import MuxProtocol.Traffic

/-!
# One stream

A stream as one of its two sessions sees it: its end of the stream while it is live, the messages
it has sent and heard on it, and what it has told its host. `View.Step` is what a session may do to
it, whatever its peer sends.
-/

namespace MuxProtocol

/-- A session's end of a live stream. -/
structure StreamEnd where
  life : Life
  sendWin : ℤ
  recvWin : ℤ

structure View where
  live : Option StreamEnd
  out : List Msg
  inp : List Msg
  told : List Notice

/-- The notice of a payload, which an empty one has not. -/
def tellData (p : Bytes) : List Notice := if p = [] then [] else [.data p]

/-- The RST of a session whose output buffer takes it. -/
def putRst (rst : Bool) : List Msg := if rst then [.rst] else []

/-- A step of a session, on one stream. The windows of a stream that starts are `w` and `pw`; `own`
says who may open it, `gone` that the session is dead after the step. -/
inductive View.Step (gone own : Prop) (w pw : ℤ) : View → View → Prop
  | idle (v : View) : View.Step gone own w pw v v
  | opened {v : View} : own → v.live = none → .syn ∉ v.out →
      View.Step gone own w pw v { v with live := some ⟨.open, pw, w⟩, out := v.out ++ [.syn] }
  | wrote {v : View} {e : StreamEnd} {p : Bytes} : v.live = some e → e.life ≠ .hclLocal → p ≠ [] →
      (p.length : ℤ) ≤ e.sendWin →
      View.Step gone own w pw v
        { v with live := some { e with sendWin := e.sendWin - p.length }
                 out := v.out ++ [.data p false] }
  | half {v : View} {e : StreamEnd} : v.live = some e → e.life = .open →
      View.Step gone own w pw v
        { v with live := some { e with life := .hclLocal }, out := v.out ++ [.data [] true] }
  | full {v : View} {e : StreamEnd} : v.live = some e → e.life = .hclRemote →
      View.Step gone own w pw v { v with live := none, out := v.out ++ [.data [] true] }
  | reset {v : View} {e : StreamEnd} : v.live = some e →
      View.Step gone own w pw v { v with live := none, out := v.out ++ [.rst] }
  | lost {v : View} {e : StreamEnd} : v.live = some e → gone →
      View.Step gone own w pw v { v with live := none }
  | granted {v : View} {e : StreamEnd} (k : ℕ) : v.live = some e →
      View.Step gone own w pw v
        { v with live := some { e with recvWin := e.recvWin + k }, out := v.out ++ [.credit k] }
  | woke {v : View} {e : StreamEnd} : v.live = some e →
      View.Step gone own w pw v { v with told := v.told ++ [.writable] }
  | refused {v : View} {m : Msg} (rst : Bool) : ¬ own → v.live = none → m.isSyn = true →
      (∀ m ∈ v.inp, m.isSyn = false) → rst = true ∨ gone →
      View.Step gone own w pw v
        { v with inp := v.inp ++ [m], out := v.out ++ putRst rst }
  | accepted {v : View} : ¬ own → v.live = none → (∀ m ∈ v.inp, m.isSyn = false) →
      View.Step gone own w pw v
        { v with live := some ⟨.open, pw, w⟩, inp := v.inp ++ [.syn], told := v.told ++ [.opened] }
  | acceptedFin {v : View} : ¬ own → v.live = none → (∀ m ∈ v.inp, m.isSyn = false) →
      View.Step gone own w pw v
        { v with live := some ⟨.hclRemote, pw, w⟩, inp := v.inp ++ [.synEnd false]
                 told := v.told ++ [.opened, .closed] }
  | acceptedRst {v : View} : ¬ own → v.live = none → (∀ m ∈ v.inp, m.isSyn = false) →
      View.Step gone own w pw v
        { v with inp := v.inp ++ [.synEnd true], told := v.told ++ [.opened, .reset] }
  | stray {v : View} {m : Msg} : v.live = none → m.isSyn = false →
      View.Step gone own w pw v { v with inp := v.inp ++ [m] }
  | resetBy {v : View} {e : StreamEnd} : v.live = some e →
      View.Step gone own w pw v
        { v with live := none, inp := v.inp ++ [.rst], told := v.told ++ [.reset] }
  | aborted {v : View} {e : StreamEnd} (p : Bytes) (fin rst : Bool) : v.live = some e →
      rst = true ∨ gone →
      View.Step gone own w pw v
        { live := none, inp := v.inp ++ [.data p fin], out := v.out ++ putRst rst
          told := v.told ++ [.reset] }
  | data {v : View} {e : StreamEnd} (p : Bytes) : v.live = some e →
      (p ≠ [] → e.life ≠ .hclRemote) →
      View.Step gone own w pw v
        { v with live := some { e with recvWin := e.recvWin - p.length }
                 inp := v.inp ++ [.data p false], told := v.told ++ tellData p }
  | fin {v : View} {e : StreamEnd} (p : Bytes) : v.live = some e → e.life ≠ .hclLocal →
      (p ≠ [] → e.life ≠ .hclRemote) →
      View.Step gone own w pw v
        { v with live := some { e with life := .hclRemote, recvWin := e.recvWin - p.length }
                 inp := v.inp ++ [.data p true], told := v.told ++ (tellData p ++ [.closed]) }
  | finLast {v : View} {e : StreamEnd} (p : Bytes) : v.live = some e → e.life = .hclLocal →
      View.Step gone own w pw v
        { v with live := none, inp := v.inp ++ [.data p true]
                 told := v.told ++ (tellData p ++ [.closed]) }
  | credited {v : View} {e : StreamEnd} (n : ℕ) (wake : Bool) : v.live = some e →
      View.Step gone own w pw v
        { v with live := some { e with sendWin := e.sendWin + n }, inp := v.inp ++ [.credit n]
                 told := v.told ++ if wake then [.writable] else [] }
  | deaf {v : View} (m : Msg) : gone →
      View.Step gone own w pw v { v with inp := v.inp ++ [m] }

/-! ### What is sent and told on a stream -/

/-- The messages a session sends on a stream: a SYN only where it opens the stream, and then first
and once; then data that is not empty and at most one FIN, with no data behind it; at most one RST,
with nothing behind it. Credit stands anywhere in between. -/
structure Orderly (own : Prop) (ms : List Msg) : Prop where
  syn : own → ms = [] ∨ ∃ t, ms = .syn :: t ∧ .syn ∉ t
  no_syn : ¬ own → .syn ∉ ms
  plain : ∀ b, .synEnd b ∉ ms
  body : ∀ p fin, .data p fin ∈ ms → (p = [] ↔ fin = true)
  fin : ms.Pairwise fun m m' => m.isFin = true → m'.isData = false
  rst : ms.Pairwise fun m _ => m ≠ .rst

/-- The events of a stream: OPENED first and once, exactly where the peer opens it; then data, then
CLOSED with no data behind it, then at most one RESET with nothing behind it. WRITABLE stands
anywhere in between. -/
structure Announced (own : Prop) (ns : List Notice) : Prop where
  opened : ¬ own → ns = [] ∨ ∃ t, ns = .opened :: t ∧ .opened ∉ t
  not_opened : own → .opened ∉ ns
  closed : ns.Pairwise fun n n' => n = .closed → ∀ p, n' ≠ .data p
  reset : ns.Pairwise fun n _ => n ≠ .reset

/-- What a session hears on a stream when its peer is a session too. -/
structure View.Rely (own : Prop) (v : View) : Prop where
  orderly : Orderly (¬ own) v.inp
  unborn : own → v.out = [] → v.inp = []

def View.FinSent (v : View) : Prop := ∃ m ∈ v.out, m.isFin = true

def View.FinHeard (v : View) : Prop := ∃ m ∈ v.inp, m.isFin = true

/-- The stream was reset by one of the two sides, or closed by both. -/
def View.Ended (v : View) : Prop := .rst ∈ v.out ∨ .rst ∈ v.inp ∨ v.FinSent ∧ v.FinHeard

/-- The bytes delivered on the stream. -/
def View.toldBytes (v : View) : Bytes := v.told.flatMap Notice.bytes

/-- The stream has been opened, by either side, as far as the session knows. -/
def View.Born (own : Prop) (v : View) : Prop :=
  (own → .syn ∈ v.out) ∧ (¬ own → ∃ m ∈ v.inp, m.isSyn = true)

/-- The peer's FIN comes a second time. -/
def View.FinAgain (v v' : View) : Prop :=
  ∃ e, v.live = some e ∧ e.life = .hclRemote ∧ v'.inp = v.inp ++ [.data [] true]

end MuxProtocol
