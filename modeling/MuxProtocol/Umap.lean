import MuxProtocol.Lib.ClusterProbe
import MuxProtocol.Session

/-!
# The maps of the router and of libpeer

The router finds its routes, and libpeer its streams, in tables of open addressing in which a
deletion writes the entries behind the deleted one again. The two tables differ only in what a
deletion does with a key that is not there.
-/

namespace MuxProtocol

open LinearProbe

variable {ν : Type*}

/-- A slot that is used has a key and a value; none is a tombstone. -/
abbrev Umap (ν : Type*) := Table (UInt32 × ν)

/-- As it is at first, without slots. -/
def Umap.new : Umap ν where
  slots := fun _ => .empty
  cap := 0
  count := 0
  tombs := 0

section Shared

variable (hash : UInt32 → ℕ)

/-- `umap_grow` and `reg_grow`. -/
def tableGrow (m : Umap ν) (want : ℕ) : Umap ν :=
  m.rehashed hash Prod.fst (growTo want want (if m.cap = 0 then 64 else m.cap))

/-- One more entry is no growth. -/
def Umap.Fits (m : Umap ν) : Prop := ¬(m.count + 1) * 4 ≥ m.cap * 3

instance (m : Umap ν) : Decidable m.Fits := inferInstanceAs (Decidable (¬_))

/-- `umap_put` and `reg_put`. -/
def tablePut (m : Umap ν) (e : UInt32 × ν) : Umap ν :=
  (if m.Fits then m else tableGrow hash m ((m.count + 1) * 2)).write hash Prod.fst e

/-- `umap_get` and `reg_get`. -/
def tableGet (m : Umap ν) (k : UInt32) : Option ν :=
  if m.cap = 0 then none else (m.read hash Prod.fst k).map Prod.snd

end Shared

/-! ### The router -/

def umix (k : UInt32) : ℕ := ((k.toUInt64 * 0x9e3779b97f4a7c15) >>> 32).toNat

def umapPut (m : Umap ν) (k : UInt32) (v : ν) : Umap ν := tablePut umix m (k, v)

def umapGet (m : Umap ν) (k : UInt32) : Option ν := tableGet umix m k

def umapDel (m : Umap ν) (k : UInt32) : Umap ν :=
  if m.cap = 0 then m
  else
    let i := m.seek umix Prod.fst k
    match m.slots i with
    -- a search that ends at another key has seen all slots
    | .used e =>
      reinsert (tablePut umix) (if e.1 = k then m.emptied i else m) ((i + 1) &&& (m.cap - 1))
    | _ => m

/-! ### The registry of libpeer -/

def regMix (sid : UInt32) : ℕ := ((sid.toUInt64 * 0x9e3779b97f4a7c15) >>> 32).toNat

def regPut (m : Umap ν) (sid : UInt32) (st : ν) : Umap ν := tablePut regMix m (sid, st)

def regGet (m : Umap ν) (sid : UInt32) : Option ν := tableGet regMix m sid

/-- The deletion of `stream_try_free`. It goes on with the entries behind an empty slot, too. -/
def regDel (m : Umap ν) (sid : UInt32) : Umap ν :=
  let i := m.seek regMix Prod.fst sid
  reinsert (tablePut regMix)
    (match m.slots i with
      | .used e => if e.1 = sid then m.emptied i else m
      | _ => m) ((i + 1) &&& (m.cap - 1))

end MuxProtocol
