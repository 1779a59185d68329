import MuxProtocol.Lib.ProbeCells
import MuxProtocol.Session

/-!
# The connections of the relay

The connections are records of a slab, the free ones of which are on a stack; a table finds the
record of a stream id. The table is an array of numbers, 0 or the number of a record and one, and
the keys are read from the records. It grows when a record of a large number is entered, and not by
how many entries there are.
-/

namespace MuxProtocol

open ProbeCells

/-- The fields of a `conn` that the slab and the table read. -/
structure SlabConn where
  used : Bool
  sid : UInt32

/-- The part of `struct relay` that the connections are in. The top of the free list comes first. -/
structure Slab where
  conns : ℕ → SlabConn
  connsCap : ℕ
  freelist : List ℕ
  sidmap : ℕ → ℕ
  sidmapCap : ℕ

namespace Slab

/-- As `calloc` leaves it. -/
def new : Slab where
  conns _ := { used := false, sid := 0 }
  connsCap := 0
  freelist := []
  sidmap _ := 0
  sidmapCap := 0

/-- `for (i = lo + n; i > lo; i--)` push `i - 1`. -/
def pushFree (lo : ℕ) : ℕ → List ℕ → List ℕ
  | 0, l => l
  | n + 1, l => pushFree lo n ((lo + n) :: l)

/-- The part of `conn_alloc` for an empty free list: the slab is doubled. -/
def growSlab (x : Slab) : Slab :=
  let nc := if x.connsCap = 0 then 64 else x.connsCap * 2
  { x with
    conns := fun i =>
      if x.connsCap ≤ i ∧ i < nc then { used := false, sid := 0 } else x.conns i
    freelist := pushFree x.connsCap (nc - x.connsCap) x.freelist
    connsCap := nc }

/-- The record taken, which is `none` for a result of -1. -/
def connAlloc (x : Slab) : Slab × Option ℕ :=
  let x := if x.freelist = [] then x.growSlab else x
  match x.freelist with
  | [] => (x, none)
  | idx :: rest =>
    ({ x with
        freelist := rest
        conns := Function.update x.conns idx { used := true, sid := 0 } }, some idx)

def connRelease (x : Slab) (idx : ℕ) : Slab :=
  { x with
    conns := Function.update x.conns idx { x.conns idx with used := false }
    freelist := idx :: x.freelist }

def pow2Ceil (n : ℕ) : ℕ := growTo n n 16

def sidMix (sid : UInt32) : ℕ := ((sid.toUInt64 * 0x9e3779b97f4a7c15) >>> 32).toNat

/-- The key of an entry of the table. -/
def key (x : Slab) (v : ℕ) : UInt32 := (x.conns v).sid

/-- The growth in `sidmap_set`. -/
def growMap (x : Slab) : Option Slab :=
  let nc := pow2Ceil (if x.sidmapCap = 0 then 64 else x.sidmapCap * 2)
  (refill sidMix x.key x.sidmap (nc - 1) x.sidmapCap).map fun nm =>
    { x with sidmap := nm, sidmapCap := nc }

/-- `none` where one of the loops does not end. -/
def sidmapSet (x : Slab) (sid : UInt32) (idx : ℕ) : Option Slab :=
  (if x.sidmapCap = 0 ∨ (idx + 1) * 4 ≥ x.sidmapCap * 3 then x.growMap else some x).bind fun x =>
    (freeCell x.sidmap (x.sidmapCap - 1) x.sidmapCap (sidMix sid &&& (x.sidmapCap - 1))).map
      fun i => { x with sidmap := Function.update x.sidmap i (idx + 1) }

/-- The record of the stream, which is `none` for a result of -1. -/
def sidmapGet (x : Slab) (sid : UInt32) : Option ℕ :=
  if x.sidmapCap = 0 then none
  else
    match seekCell (fun v => (x.conns v).used && (x.conns v).sid == sid) x.sidmap
      (x.sidmapCap - 1) x.sidmapCap (sidMix sid &&& (x.sidmapCap - 1)) with
    | some (i, true) => some (x.sidmap i - 1)
    | _ => none

/-- `none` where one of the loops does not end. -/
def sidmapDel (x : Slab) (sid : UInt32) : Option Slab :=
  if x.sidmapCap = 0 then some x
  else
    let mask := x.sidmapCap - 1
    match seekCell (fun v => (x.conns v).sid == sid) x.sidmap mask x.sidmapCap
      (sidMix sid &&& mask) with
    | none => some x
    | some (i, found) =>
      (recluster sidMix x.key mask x.sidmapCap
        (if found then Function.update x.sidmap i 0 else x.sidmap) ((i + 1) &&& mask)).map
          fun m => { x with sidmap := m }

def connDestroy (x : Slab) (idx : ℕ) : Option Slab :=
  if (x.conns idx).used then
    (x.sidmapDel (x.conns idx).sid).map fun x => x.connRelease idx
  else some x

/-- `open_backend_conn` and `accept_public`: a record is taken, named and entered. -/
def openConn (x : Slab) (sid : UInt32) : Option Slab :=
  match x.connAlloc with
  | (x, none) => some x
  | (x, some idx) =>
    sidmapSet { x with conns := Function.update x.conns idx { x.conns idx with sid } } sid idx

end Slab

/-- What the relay does with its connections. -/
inductive SlabOp where
  | openConn (sid : UInt32)
  | connDestroy (idx : ℕ)

/-- `none` where a loop does not end. -/
def Slab.apply (x : Slab) : SlabOp → Option Slab
  | .openConn sid => x.openConn sid
  | .connDestroy idx => x.connDestroy idx

end MuxProtocol
