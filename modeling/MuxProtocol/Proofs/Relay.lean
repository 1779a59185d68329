import MuxProtocol.Lib.Index
import MuxProtocol.Proofs.Ledger
import MuxProtocol.Relay

/-!
# What the relay does, one deed at a time

Every move of the relay is made of a few deeds, each a call on the session, an event taken from it
or a change of one connection. The bytes that the relay has to give back to the session are counted
deed by deed.
-/

namespace MuxProtocol

open Machine Index List Option Function RelayConn Reach

/-- A connection is not blocked any more when nothing waits. -/
def RelayConn.eased (c : RelayConn) : RelayConn := if c.s2m = [] then c.unblock else c

theorem RelayConn.finished_iff {c : RelayConn} : c.finished = true
    ↔ c.sockEof = true ∧ c.streamFin = true ∧ c.m2s = [] ∧ c.s2m = [] := by
  simp [finished, and_assoc]

namespace Relay

variable {r r' : Relay} {i j : ℕ} {c c' : RelayConn} {sid : UInt32} {ev : Event}

/-! ### Deeds -/

inductive Act where
  | session (a : Call)
  | note
  | stash
  | pause
  | event (ev : Event)
  | issue (i : ℕ) (a : Call)
  | sock (i : ℕ)
  | input (i : ℕ) (p : Bytes)
  | fail (i : ℕ)
  | done (i : ℕ)
  | kill (i : ℕ)
  | accept (peer : Bytes)

/-- The connection that the map has for the stream. -/
def connOf (r : Relay) (sid : UInt32) : Option RelayConn := (r.sidmapGet sid).bind r.conns

/-- An event that changes no connection by itself. -/
def Deaf (r : Relay) : Event → Prop
  | .opened .. | .data .. => False
  | .closed sid | .reset sid _ => r.connOf sid = none
  | _ => True

/-- A connection for the stream that was just opened. -/
def opened (r : Relay) (sid : UInt32) : Relay :=
  let (r, i) := r.connAlloc { sid := sid }
  let r := r.sidmapSet sid i
  { r with nactive := r.nactive + 1 }.connApplyInterest i

inductive Deed : Relay → Act → Relay → Prop
  | call {r : Relay} {a : Call} (ha : a.Idle) : Deed r (.session a) (r.call a)
  | note {r : Relay} (authed stop : Bool) (interest : Interest) :
      Deed r .note { r with authed, stop, interest }
  | stash {r : Relay} (recv : Bytes) : Deed r .stash { r with recv }
  | pause {r : Relay} (hf : r.full) : Deed r .pause { r with listenPaused := true }
  | skip {r : Relay} {ev : Event} (hf : r.mux.front = some ev) (hd : r.Deaf ev) :
      Deed r (.event ev) (r.call .nextEvent)
  | stray {r : Relay} {sid : UInt32} {b : Bytes} (hf : r.mux.front = some (.data sid b))
      (hg : r.connOf sid = none) :
      Deed r (.event (.data sid b)) { r.call .nextEvent with strays := r.strays ++ [b] }
  | refuse {r : Relay} {sid : UInt32} {m : Bytes} (hf : r.mux.front = some (.opened sid m))
      (code : UInt32) :
      Deed r (.event (.opened sid m)) ((r.call .nextEvent).call (.reset sid code))
  | dial {r : Relay} {sid : UInt32} {m : Bytes} (hf : r.mux.front = some (.opened sid m))
      (hb : r.opt.backend = true) :
      Deed r (.event (.opened sid m)) ((r.call .nextEvent).openBackendConn sid true)
  | data {r : Relay} {sid : UInt32} {b : Bytes} {i : ℕ} {c : RelayConn}
      (hf : r.mux.front = some (.data sid b)) (hg : r.sidmapGet sid = some i)
      (hc : r.conns i = some c) :
      Deed r (.event (.data sid b)) ((r.call .nextEvent).setConn i (c.arrive b))
  | closed {r : Relay} {sid : UInt32} {i : ℕ} {c : RelayConn}
      (hf : r.mux.front = some (.closed sid)) (hg : r.sidmapGet sid = some i)
      (hc : r.conns i = some c) :
      Deed r (.event (.closed sid)) ((r.call .nextEvent).setConn i c.closed)
  | reset {r : Relay} {sid code : UInt32} {i : ℕ} {c : RelayConn}
      (hf : r.mux.front = some (.reset sid code)) (hg : r.sidmapGet sid = some i)
      (hc : r.conns i = some c) :
      Deed r (.event (.reset sid code)) ((r.call .nextEvent).giveUp i)
  | drain {r : Relay} {i w : ℕ} {c : RelayConn} (hc : r.conns i = some c) (hw : 0 < w)
      (hl : w ≤ c.m2s.length) :
      Deed r (.issue i (.consume c.sid w)) ((r.setConn i (c.drain w)).call (.consume c.sid w))
  | shut {r : Relay} {i : ℕ} {c : RelayConn} (hc : r.conns i = some c) (hf : c.streamFin = true)
      (hm : c.m2s = []) : Deed r (.sock i) (r.setConn i c.shutWr)
  | pass {r : Relay} {i : ℕ} {c : RelayConn} (hc : r.conns i = some c) (hs : c.s2m ≠ []) :
      Deed r (.issue i (.write c.sid c.s2m)) ((r.call (.write c.sid c.s2m)).setConn i
        (c.pass (accepted (muxWrite r.mux c.sid c.s2m).2)).eased)
  | stick {r : Relay} {i : ℕ} {c : RelayConn} (hc : r.conns i = some c) (hs : c.s2m ≠ [])
      (hw : (c.pass (accepted (muxWrite r.mux c.sid c.s2m).2)).s2m ≠ []) :
      Deed r (.issue i (.write c.sid c.s2m)) ((r.call (.write c.sid c.s2m)).setConn i
        (c.pass (accepted (muxWrite r.mux c.sid c.s2m).2)).block)
  | unblock {r : Relay} {i : ℕ} {c : RelayConn} (hc : r.conns i = some c) (hs : c.s2m = []) :
      Deed r (.sock i) (r.setConn i c.unblock)
  | fin {r : Relay} {i : ℕ} {c : RelayConn} (hc : r.conns i = some c) (he : c.sockEof = true)
      (hs : c.s2m = []) :
      Deed r (.issue i (.close c.sid)) ((r.setConn i c.fin).call (.close c.sid))
  | connected {r : Relay} {i : ℕ} {c : RelayConn} (hc : r.conns i = some c) :
      Deed r (.sock i) (r.setConn i c.connected)
  | eof {r : Relay} {i : ℕ} {c : RelayConn} (hc : r.conns i = some c) (hs : c.s2m = []) :
      Deed r (.issue i (.close c.sid)) ((r.setConn i c.eof.fin).call (.close c.sid))
  | input {r : Relay} {i w : ℕ} {c : RelayConn} {p : Bytes} (hc : r.conns i = some c)
      (hs : c.s2m = []) (hp : p ≠ []) (hw : (muxWrite r.mux c.sid p).2 = .ok w) :
      Deed r (.input i p) ((r.call (.write c.sid p)).setConn i
        (if w < p.length then (c.input p w).block else c.input p w))
  | broken {r : Relay} {i : ℕ} {c : RelayConn} {p : Bytes} {e : MuxErr} (hc : r.conns i = some c)
      (hp : p ≠ []) (hw : (muxWrite r.mux c.sid p).2 = .error e) :
      Deed r (.input i p) ((r.call (.write c.sid p)).giveUp i)
  | fail {r : Relay} {i : ℕ} {c : RelayConn} (hc : r.conns i = some c) :
      Deed r (.fail i) (r.giveUp i)
  | done {r : Relay} {i : ℕ} {c : RelayConn} (hc : r.conns i = some c)
      (hf : (c.gone || c.finished) = true) : Deed r (.done i) (r.connDestroy i)
  | kill {r : Relay} {i : ℕ} {c : RelayConn} (hc : r.conns i = some c) :
      Deed r (.kill i) ((r.call (.reset c.sid muxCodeInternal)).giveUp i)
  | accept {r : Relay} {sid : UInt32} {peer : Bytes} (hl : r.opt.publicListen = true)
      (hf : ¬ r.full) (ho : (muxOpen r.mux peer).2 = .ok sid) :
      Deed r (.accept peer) ((r.call (.open peer)).opened sid)
  | busy {r : Relay} {peer : Bytes} {e : MuxErr} (hl : r.opt.publicListen = true)
      (ho : (muxOpen r.mux peer).2 = .error e) : Deed r (.accept peer) (r.call (.open peer))

/-- What the environment of the relay may be held to. -/
structure Terms where
  /-- A socket that has ended gives no more bytes, -/
  ended : Bool
  /-- no socket fails to be read, -/
  whole : Bool
  /-- and every byte of a stream finds a connection, which is not given up before it is out. -/
  kept : Bool

/-- The event costs no bytes. -/
def Spared (r : Relay) : Event → Prop
  | .data sid _ => (r.connOf sid).isSome
  | .reset sid _ => ∀ c ∈ r.connOf sid, c.m2s = []
  | _ => True

def Fit (t : Terms) (e : Option Event) (r : Relay) : Act → Prop
  | .event ev => e = some ev ∧ (t.kept → r.Spared ev)
  | .stash => e = none
  | .input i p => ∀ c, r.conns i = some c → (t.ended → c.sockEof = false)
      ∧ (t.kept → c.m2s = [] ∨ ∃ w, (muxWrite r.mux c.sid p).2 = .ok w)
  | .fail i => ¬ t.whole ∧ (t.kept → ∀ c, r.conns i = some c → c.m2s = [])
  | .kill i => t.kept → ∀ c, r.conns i = some c → c.m2s = []
  | _ => True

def Deeds (t : Terms) (e : Option Event) : Relay → Relay → Prop := Reach Deed (Fit t e)

/-- No terms at all. -/
def anyhow : Terms := ⟨false, false, false⟩

/-! ### A connection goes -/

theorem setConn_conns (r : Relay) (i : ℕ) (c) : (r.setConn i c).conns i = some c :=
  update_self ..

theorem setConn_setConn (r : Relay) (i : ℕ) (c c') :
    (r.setConn i c).setConn i c' = r.setConn i c' := by
  simp [setConn]

theorem modify_eq (hc : r.conns i = some c) (g) : r.modify i g = r.setConn i (g c) := by
  rw [modify, hc]

def released (r : Relay) (i : ℕ) (c : RelayConn) (nactive : ℕ) (listenPaused : Bool) : Relay :=
  { r with
    sidmap := r.sidmap.eraseP (·.1 = c.sid)
    conns := Function.update r.conns i none
    freelist := i :: r.freelist
    interest := r.interest.forget i
    freed := r.freed ++ [c]
    nactive
    listenPaused }

theorem connDestroy_eq (hc : r.conns i = some c) :
    ∃ n p, r.connDestroy i = r.released i c n p := by
  rw [connDestroy, hc]
  dsimp only [publicGone]
  split
  · split
    · exact ⟨_, _, rfl⟩
    · exact ⟨_, _, rfl⟩
  · exact ⟨_, _, rfl⟩

theorem giveUp_eq (hc : r.conns i = some c) :
    ∃ n p, r.giveUp i = r.released i c.giveUp n p := by
  obtain ⟨n, p, h⟩ := connDestroy_eq (r := r.setConn i c.giveUp) (setConn_conns ..)
  refine ⟨n, p, ?_⟩
  rw [giveUp, modify_eq hc, h]
  simp [released, setConn]

theorem giveUp_conns (r : Relay) (i : ℕ) : (r.giveUp i).conns i = none := by
  rcases hc : r.conns i with _ | c
  · rw [giveUp, modify, hc, connDestroy, hc]
    exact hc
  · obtain ⟨n, p, h⟩ := giveUp_eq hc
    rw [h]
    exact update_self ..

/-! ### Moves are made of deeds -/

section Moves

variable {t : Terms} {e : Option Event}

theorem markDirty_deeds (r : Relay) (i : ℕ) : Deeds t e r (r.markDirty i) :=
  .single (a := .note) trivial (.note r.authed r.stop _)

/-- The loop of `flush_to_socket`. -/
theorem socketLoop_deeds : ∀ (answers : List WriteAnswer) (r : Relay),
    Deeds t e r (socketLoop i answers r).1
  | [], _ => .start
  | a :: as, r => by
    unfold socketLoop
    split
    · exact .start
    rename_i c hc
    split
    · exact .start
    split
    · rename_i n
      dsimp only
      split
      · exact .start
      · exact (single (a := .issue i _) trivial
          (.drain hc (by omega) (Nat.min_le_right ..))).trans (socketLoop_deeds as _)
    · exact .start
    · exact .start

theorem shutdown_deeds (r : Relay) : Deeds t e r (r.shutdown i) := by
  unfold shutdown
  split
  · exact .start
  rename_i c hc
  split
  · rename_i h
    exact .single (a := .sock i) trivial (.shut hc h.1 h.2.1)
  · exact .start

theorem flushToSocket_deeds (r : Relay) (answers) : Deeds t e r (r.flushToSocket i answers).1 := by
  have h := socketLoop_deeds (t := t) (e := e) (i := i) answers r
  unfold flushToSocket
  split
  · rename_i r₁ heq
    rw [heq] at h
    exact (trans h (shutdown_deeds r₁)).trans (markDirty_deeds _ i)
  · rename_i r₁ heq
    rw [heq] at h
    exact h

theorem closeStream_deeds (hc : r.conns i = some c) (he : c.sockEof = true) (hs : c.s2m = []) :
    Deeds t e r (r.closeStream i) := by
  rw [closeStream, hc]
  exact .single (a := .issue i _) trivial (.fin hc he hs)

theorem connMaybeFinish_deeds (r : Relay) : Deeds t e r (r.connMaybeFinish i) := by
  unfold connMaybeFinish
  split
  · exact .start
  rename_i c hc
  split
  · exact .single (a := .done i) trivial (.done hc ‹_›)
  · exact .start

/-- The result of the loop of `flush_to_mux`: a `mux_write` ends it, or it has emptied the buffer
and the connection is not blocked any more afterwards. -/
def Pumped (t : Terms) (e : Option Event) (i : ℕ) (r : Relay) : Relay × Bool → Prop
  | (r', false) => ∃ r₁ sid b, Deeds t e r r₁ ∧ Deed r₁ (.issue i (.write sid b)) r'
  | (r', true) => ∃ c', r'.conns i = some c' ∧ c'.s2m = [] ∧ Deeds t e r (r'.setConn i c'.unblock)

theorem Pumped.after {out} (h : Pumped t e i r' out) (hd : Deeds t e r r') :
    Pumped t e i r out := by
  rcases out with ⟨r'', _ | _⟩
  · obtain ⟨r₁, sid, b, h, hlast⟩ := h
    exact ⟨r₁, sid, b, trans hd h, hlast⟩
  · obtain ⟨c', hc', hs', h⟩ := h
    exact ⟨c', hc', hs', trans hd h⟩

/-- The loop of `flush_to_mux` empties the buffer, or a `mux_write` ends it. -/
theorem muxLoop_deeds : ∀ (n : ℕ) (r : Relay) (c : RelayConn), r.conns i = some c →
    c.s2m.length ≤ n → Pumped t e i r (muxLoop i n r)
  | 0, r, c, hc, hn => by
    have hs := length_eq_zero_iff.1 (Nat.le_zero.1 hn)
    exact ⟨c, hc, hs, .single (a := .sock i) trivial (.unblock hc hs)⟩
  | n + 1, r, c, hc, hn => by
    rw [muxLoop, hc]
    dsimp only
    by_cases hs : c.s2m = []
    · rw [if_pos hs]
      exact ⟨c, hc, hs, .single (a := .sock i) trivial (.unblock hc hs)⟩
    rw [if_neg hs]
    have hpass := Deed.pass hc hs
    have hstick := Deed.stick hc hs
    have hlen : ∀ w, w ≠ 0 → (c.pass w).s2m.length ≤ n := fun w hw => by
      rw [RelayConn.pass, length_drop]
      omega
    have hnone : (c.pass 0).s2m = c.s2m := rfl
    generalize accepted (muxWrite r.mux c.sid c.s2m).2 = w at hpass hstick ⊢
    generalize r.call (.write c.sid c.s2m) = r₁ at hpass hstick ⊢
    by_cases hw : w = 0 ∨ w < (c.pass w).s2m.length
    · rw [if_pos hw]
      refine ⟨r, c.sid, c.s2m, .start, hstick fun h => ?_⟩
      rcases hw with rfl | hw
      · exact hs (hnone ▸ h)
      · rw [h] at hw
        exact absurd hw (Nat.not_lt_zero _)
    rw [if_neg hw]
    have hlen := hlen w fun h => hw (.inl h)
    generalize c.pass w = c₁ at hpass hlen ⊢
    by_cases hs₁ : c₁.s2m = []
    · rw [eased, if_pos hs₁] at hpass
      have hend : muxLoop i n (r₁.setConn i c₁) = (r₁.setConn i c₁, true) := by
        cases n with
        | zero => rfl
        | succ n => simp [muxLoop, setConn_conns, hs₁]
      rw [hend]
      refine ⟨c₁, setConn_conns .., hs₁, ?_⟩
      rw [setConn_setConn]
      exact .single (a := .issue i _) trivial hpass
    · rw [eased, if_neg hs₁] at hpass
      exact (muxLoop_deeds n _ c₁ (setConn_conns r₁ i c₁) hlen).after
        (.single (a := .issue i _) trivial hpass)

/-- What `flush_to_mux` leaves in the buffer, it has just offered to the session. -/
theorem flushToMux_spec (r : Relay) (i : ℕ) : Deeds t e r (r.flushToMux i)
    ∧ ((∃ r₁ r₂ sid b, Deeds t e r r₁ ∧ Deed r₁ (.issue i (.write sid b)) r₂
        ∧ r.flushToMux i = r₂.markDirty i)
      ∨ ∀ c, (r.flushToMux i).conns i = some c → c.s2m = []) := by
  unfold flushToMux
  rcases hc : r.conns i with _ | c
  · simp only [map_none, getD_none, muxLoop, flushed, hc]
    exact ⟨.start, .inr fun c h => by cases h⟩
  have h := muxLoop_deeds (t := t) (e := e) c.s2m.length r c hc (Nat.le_refl _)
  simp only [map_some, getD_some]
  split
  · rename_i r₁ heq
    rw [heq] at h
    obtain ⟨c', hc', hs, hd⟩ := h
    rw [flushed, hc']
    dsimp only
    split
    · refine ⟨(trans hd (closeStream_deeds (setConn_conns ..) ‹_› hs)).trans
        (markDirty_deeds _ i), .inr fun c'' h => ?_⟩
      rw [closeStream, setConn_conns] at h
      obtain rfl := some.inj ((setConn_conns ..).symm.trans h)
      exact hs
    · refine ⟨hd.trans (markDirty_deeds _ i), .inr fun c'' h => ?_⟩
      obtain rfl := some.inj ((setConn_conns ..).symm.trans h)
      exact hs
  · rename_i r₁ heq
    rw [heq] at h
    obtain ⟨r₂, sid, b, hd, hlast⟩ := h
    have hwrite : Deeds t e r r₁ := .step (a := .issue i _) hd trivial hlast
    exact ⟨hwrite.trans (markDirty_deeds r₁ i), .inl ⟨r₂, r₁, sid, b, hd, hlast, rfl⟩⟩

theorem flushToMux_deeds (r : Relay) (i : ℕ) : Deeds t e r (r.flushToMux i) :=
  (flushToMux_spec r i).1

theorem flushAll_deeds : ∀ (l : List ℕ) (r : Relay), Deeds t e r (l.foldl (fun r i =>
    if (r.conns i).any (·.sendBlocked) then r.flushToMux i else r) r)
  | [], _ => .start
  | i :: l, r => by
    rw [foldl_cons]
    refine trans ?_ (flushAll_deeds l _)
    split
    · exact flushToMux_deeds r i
    · exact .start

theorem onWritable_deeds (r : Relay) (sid) : Deeds t e r (r.onWritable sid) := by
  unfold onWritable
  split
  · exact flushAll_deeds _ r
  · split
    · exact .start
    · exact flushToMux_deeds r _

section Events

variable (hmac : Hmac) (hf : r.mux.front = some ev)
  (hs : e = some ev ∧ (t.kept → r.Spared ev))
include hf hs

theorem skip_deeds (hd : r.Deaf ev) : Deeds t e r (r.call .nextEvent) :=
  .single (a := .event ev) hs (.skip hf hd)

omit hf hs in
theorem onPeerHello_deeds (r : Relay) (auth nonce) :
    Deeds t e r (r.onPeerHello hmac auth nonce) := by
  unfold onPeerHello
  split
  · exact .start
  split
  · exact .single (a := .note) trivial (.note true r.stop _)
  · exact (single (a := .session _) trivial (.call (a := .goaway _) trivial)).trans
      (.single (a := .note) trivial (.note r.authed true _))

/-- What the relay does with an event. -/
theorem onEvent_deeds (a) : Deeds t e r ((r.call .nextEvent).onEvent hmac a ev) := by
  cases ev with
  | peerHello peerId weight window maxStreams auth nonce =>
    exact (skip_deeds hf hs trivial).trans (onPeerHello_deeds hmac _ auth nonce)
  | opened sid m =>
    have hrefuse : ∀ code, Deeds t e r ((r.call .nextEvent).call (.reset sid code)) := fun code =>
      .single (a := .event _) hs (.refuse hf code)
    simp only [onEvent]
    split
    · rename_i hb
      rcases hd : a.dialled with _ | _
      · exact hrefuse muxCodeInternal
      · exact .single (a := .event _) hs (.dial hf hb)
    · exact hrefuse muxCodeRefused
  | data sid b =>
    have hstray : r.connOf sid = none →
        Deeds t e r { r.call .nextEvent with strays := r.strays ++ [b] } := fun h =>
      .single (a := .event _) hs (.stray hf h)
    simp only [onEvent, onStreamData]
    split
    · rename_i hg
      exact hstray (by rw [connOf, show r.sidmapGet sid = none from hg]; rfl)
    rename_i i hg
    split
    · rename_i hc
      exact hstray (by rw [connOf, show r.sidmapGet sid = some i from hg]; exact hc)
    rename_i c hc
    have harrive : Deeds t e r ((r.call .nextEvent).setConn i (c.arrive b)) :=
      .single (a := .event _) hs (.data hf hg hc)
    split
    · exact harrive.trans (markDirty_deeds _ i)
    · exact harrive.trans (flushToSocket_deeds _ _)
  | closed sid =>
    simp only [onEvent, onStreamClosed]
    split
    · rename_i hg
      exact skip_deeds hf hs (by rw [Deaf, connOf, show r.sidmapGet sid = none from hg]; rfl)
    rename_i i hg
    refine trans ?_ (connMaybeFinish_deeds _)
    have hclosed : Deeds t e r ((r.call .nextEvent).modify i (·.closed)) := by
      rcases hc : r.conns i with _ | c
      · rw [modify, show (r.call .nextEvent).conns i = none from hc]
        exact skip_deeds hf hs
          (by rw [Deaf, connOf, show r.sidmapGet sid = some i from hg]; exact hc)
      · rw [modify_eq (show (r.call .nextEvent).conns i = some c from hc)]
        exact .single (a := .event _) hs (.closed hf hg hc)
    split
    · exact hclosed
    · exact hclosed.trans (flushToSocket_deeds _ _)
  | reset sid code =>
    simp only [onEvent]
    split
    · rename_i hg
      exact skip_deeds hf hs (by rw [Deaf, connOf, show r.sidmapGet sid = none from hg]; rfl)
    rename_i i hg
    rcases hc : r.conns i with _ | c
    · have hnone : (r.call .nextEvent).conns i = none := hc
      rw [giveUp, modify, hnone, connDestroy, hnone]
      exact skip_deeds hf hs (by rw [Deaf, connOf, show r.sidmapGet sid = some i from hg]; exact hc)
    · exact .single (a := .event _) hs (.reset hf hg hc)
  | writable sid => exact (skip_deeds hf hs trivial).trans (onWritable_deeds _ sid)
  | goaway | capacity => exact skip_deeds hf hs trivial
  | fatal code =>
    exact (skip_deeds hf hs trivial).trans
      (.single (a := .note) trivial (.note r.authed true _))

end Events

theorem onSockEof_deeds (hc : r.conns i = some c) (hs : c.s2m = []) :
    Deeds t e r (r.onSockEof i) := by
  rw [onSockEof, hc]
  simp only [hs, if_true]
  have heof : (r.setConn i c.eof).closeStream i
      = (r.setConn i c.eof.fin).call (.close c.sid) := by
    rw [closeStream, setConn_conns]
    dsimp only
    rw [setConn_setConn]
    rfl
  rw [heof]
  exact ((single (a := .issue i _) trivial (.eof hc hs)).trans (markDirty_deeds _ i)).trans
    (connMaybeFinish_deeds _)

/-- The socket gives bytes. -/
def ReadAnswer.Gives : ReadAnswer → Prop
  | .bytes b => b ≠ []
  | _ => False

instance ReadAnswer.Gives.decidable : ∀ a, Decidable (ReadAnswer.Gives a)
  | .bytes b => inferInstanceAs (Decidable (b ≠ []))
  | .eof | .again | .error => inferInstanceAs (Decidable False)

/-- The checks of `mux_write`: the session is alive and has the stream, open on our side. -/
def Sends (s : Session) (sid : UInt32) : Prop :=
  s.dead = false ∧ ∃ p ∈ stFind s.tab sid, p.2.life ≠ .hclLocal

/-- No read fails, and each `mux_write` passes its checks. -/
def ReadsInto (sid : UInt32) : List ReadAnswer → Session → Prop
  | [], _ | .eof :: _, _ | .again :: _, _ => True
  | .error :: _, _ => False
  | .bytes b :: as, s =>
    b = [] ∨ Sends s sid ∧ ReadsInto sid as (s.call (.write sid (b.take readMax)))

instance ReadsInto.decidable (sid : UInt32) : ∀ answers s, Decidable (ReadsInto sid answers s)
  | [], _ | .eof :: _, _ | .again :: _, _ => inferInstanceAs (Decidable True)
  | .error :: _, _ => inferInstanceAs (Decidable False)
  | .bytes _ :: as, s => @instDecidableOr _ _ _ (@instDecidableAnd _ _
      (inferInstanceAs (Decidable (_ ∧ ∃ p ∈ stFind s.tab sid, _))) (ReadsInto.decidable sid as _))

theorem Sends.ok {s : Session} (h : Sends s sid) (p : Bytes) :
    ∃ w, (muxWrite s sid p).2 = .ok w := by
  obtain ⟨hd, ⟨k, st⟩, hst, hl⟩ := h
  rcases hw : (muxWrite s sid p).2 with err | w
  · rcases (muxWrite_error hw).2 with hdead | hnone | ⟨k', st', hst', hl'⟩
    · simp [hd] at hdead
    · simp [hnone] at hst
    · cases hst.symm.trans hst'
      exact absurd hl' hl
  · exact ⟨w, rfl⟩

/-- The loop of `on_sock_readable`, under the terms. -/
theorem readLoop_deeds : ∀ (answers : List ReadAnswer) (r : Relay),
    (∀ c ∈ r.conns i, c.s2m = []
      ∧ (t.ended → c.sockEof = true → ∀ a ∈ answers, ¬ ReadAnswer.Gives a)
      ∧ (t.whole → .error ∉ answers)
      ∧ (t.kept → c.m2s = [] ∨ ReadsInto c.sid answers r.mux)) →
    Deeds t e r (readLoop i answers r)
  | [], _, _ => .start
  | a :: as, r, h => by
    unfold readLoop
    split
    · exact .start
    rename_i c hc
    obtain ⟨hs, hended, hwhole, hkept⟩ := h c hc
    rcases a with b | _ | _ | _
    · dsimp only
      have hgives : t.ended → c.sockEof = false ∨ b = [] := fun ht => by
        rcases he : c.sockEof with _ | _
        · exact .inl rfl
        · exact .inr (by simpa [ReadAnswer.Gives] using hended ht he _ mem_cons_self)
      split
      · exact onSockEof_deeds hc hs
      rename_i hp
      have hb : b ≠ [] := fun hb => hp (by rw [hb]; rfl)
      have hopen : t.ended → c.sockEof = false := fun ht => (hgives ht).resolve_right hb
      -- the bytes find the stream as `mux_write` wants it
      have hsend : t.kept → c.m2s = [] ∨ Sends r.mux c.sid
          ∧ ReadsInto c.sid as (r.mux.call (.write c.sid (b.take readMax))) := fun hk =>
        (hkept hk).imp_right fun h => h.resolve_left hb
      split
      · rename_i e hw
        refine .single (a := .input i _) (fun c' hc' => ?_) (.broken hc hp hw)
        obtain rfl := some.inj (hc.symm.trans hc')
        exact ⟨hopen, fun hk => (hsend hk).imp_right fun h => h.1.ok _⟩
      · rename_i w hw
        have hfit : Fit t e r (.input i (b.take readMax)) := fun c' hc' => by
          obtain rfl := some.inj (hc.symm.trans hc')
          exact ⟨hopen, fun _ => .inr ⟨w, hw⟩⟩
        have hin := Deed.input hc hs hp hw
        split
        · rw [if_pos ‹_›] at hin
          exact (single hfit hin).trans (markDirty_deeds _ i)
        rename_i hlt
        rw [if_neg hlt] at hin
        refine (single hfit hin).trans (readLoop_deeds as _ fun c' hc' => ?_)
        obtain rfl := some.inj ((setConn_conns ..).symm.trans hc')
        refine ⟨?_, fun ht he a ha => hended ht he a (mem_cons_of_mem _ ha),
          fun ht he => hwhole ht (mem_cons_of_mem _ he),
          fun hk => (hsend hk).imp_right fun h => h.2⟩
        simp only [input, hs, nil_append, drop_eq_nil_iff]
        omega
    · exact onSockEof_deeds hc hs
    · exact .start
    · refine .single (a := .fail i) ⟨fun ht => hwhole ht mem_cons_self, fun hk c' hc' => ?_⟩
        (.fail hc)
      obtain rfl := some.inj (hc.symm.trans hc')
      exact (hkept hk).resolve_right id

/-! ### Moves -/

/-- The terms for one move. -/
def Meets (t : Terms) (r : Relay) : Move → Prop
  | .event _ => t.kept → ∀ ev ∈ r.mux.front, r.Spared ev
  | .readable i answers => ∀ c ∈ r.conns i,
      (t.ended → c.sockEof = true → ∀ a ∈ answers, ¬ ReadAnswer.Gives a)
      ∧ (t.whole → .error ∉ answers)
      ∧ (t.kept → c.m2s = [] ∨ c.s2m ≠ [] ∨ ReadsInto c.sid answers r.mux)
  | .writable i sockErr answers => t.kept → ∀ c ∈ r.conns i,
      if c.connecting && sockErr then c.m2s = []
      else ((r.sockConnected i c).flushToSocket i answers).2 = true
  | _ => True

theorem meets_anyhow (r : Relay) : ∀ m, r.Meets anyhow m
  | .event _ | .writable .. => Bool.false_ne_true.elim
  | .readable .. => fun _ _ => ⟨Bool.false_ne_true.elim, Bool.false_ne_true.elim,
      Bool.false_ne_true.elim⟩
  | .timer _ | .stash _ | .recv | .advance _ | .halt | .flushDirty | .listener _ => trivial

instance Spared.decidable (r : Relay) : ∀ ev, Decidable (r.Spared ev)
  | .data sid _ => inferInstanceAs (Decidable ((r.connOf sid).isSome = true))
  | .reset sid _ => inferInstanceAs (Decidable (∀ c ∈ r.connOf sid, c.m2s = []))
  | .opened .. | .closed _ | .writable _ | .peerHello .. | .capacity _ | .goaway .. | .fatal _ =>
    inferInstanceAs (Decidable True)

instance Meets.decidable (t : Terms) (r : Relay) : ∀ m, Decidable (r.Meets t m)
  | .event _ => inferInstanceAs (Decidable (_ → ∀ ev ∈ r.mux.front, _))
  | .readable i _ => inferInstanceAs (Decidable (∀ c ∈ r.conns i, _))
  | .writable i _ _ => inferInstanceAs (Decidable (_ → ∀ c ∈ r.conns i, _))
  | .timer _ | .stash _ | .recv | .advance _ | .halt | .flushDirty | .listener _ =>
    inferInstanceAs (Decidable True)

theorem onSockReadable_deeds {answers} (h : r.Meets t (.readable i answers)) :
    Deeds t e r (r.onSockReadable i answers) := by
  unfold onSockReadable
  split
  · exact .start
  rename_i c hc
  split
  · exact .start
  rename_i hs
  obtain ⟨hended, hwhole, hkept⟩ := h c hc
  refine readLoop_deeds answers r fun c' hc' => ?_
  obtain rfl := some.inj (hc.symm.trans hc')
  exact ⟨not_not.1 hs, hended, hwhole, fun hk => (hkept hk).imp_right (·.resolve_left hs)⟩

theorem resetConn_deeds (hk : t.kept → ∀ c, r.conns i = some c → c.m2s = []) :
    Deeds t e r (r.resetConn i) := by
  unfold resetConn
  split
  · exact .start
  · exact .single (a := .kill i) hk (.kill ‹_›)

theorem sockConnected_deeds (hc : r.conns i = some c) : Deeds t e r (r.sockConnected i c) := by
  unfold sockConnected
  split
  · exact (single (a := .sock i) trivial (.connected hc)).trans (markDirty_deeds _ i)
  · exact .start

theorem onSockWritable_deeds {sockErr answers} (h : r.Meets t (.writable i sockErr answers)) :
    Deeds t e r (r.onSockWritable i sockErr answers) := by
  unfold onSockWritable
  split
  · exact .start
  rename_i c hc
  split
  · rename_i he
    refine resetConn_deeds fun hk c' hc' => ?_
    have := h hk c' hc'
    obtain rfl := some.inj (hc.symm.trans hc')
    rwa [if_pos he] at this
  rename_i he
  have hfirst : Deeds t e r ((r.sockConnected i c).flushToSocket i answers).1 :=
    (sockConnected_deeds hc).trans (flushToSocket_deeds _ _)
  split
  · rename_i r₁ heq
    rw [heq] at hfirst
    refine trans hfirst (resetConn_deeds fun hk => ?_)
    have := h hk c hc
    rw [if_neg he, heq] at this
    exact absurd this Bool.false_ne_true
  · rename_i r₁ heq
    rw [heq] at hfirst
    exact trans hfirst (connMaybeFinish_deeds _)

theorem acceptOne_deeds (hl : r.opt.publicListen = true) (hf : ¬ r.full) (peer) :
    Deeds t e r (r.acceptOne peer) := by
  unfold acceptOne
  split
  · exact .start
  split
  · exact .single (a := .accept peer) trivial (.busy hl ‹_›)
  · exact .single (a := .accept peer) trivial (.accept hl hf ‹_›)

theorem acceptOne_opt (r : Relay) (peer) : (r.acceptOne peer).opt = r.opt := by
  unfold acceptOne
  split
  · rfl
  split
  · rfl
  · dsimp only [connAlloc]
    split <;> rfl

/-- The listener is asked below the cap, and paused at it. -/
theorem acceptPublic_deeds : ∀ (peers : List Bytes) {r : Relay}, r.opt.publicListen = true →
    Deeds t e r (acceptPublic peers r)
  | [], r, _ => by
    unfold acceptPublic
    split
    · exact .single (a := .pause) trivial (.pause ‹_›)
    · exact .start
  | peer :: peers, r, hl => by
    unfold acceptPublic
    split
    · exact .single (a := .pause) trivial (.pause ‹_›)
    · rename_i hf
      have hl' : (r.acceptOne peer).opt.publicListen = true := by rwa [acceptOne_opt]
      exact (acceptOne_deeds hl hf peer).trans (acceptPublic_deeds peers hl')

theorem onListener_deeds (r : Relay) (peers) : Deeds t e r (r.onListener peers) := by
  unfold onListener
  split
  · exact acceptPublic_deeds peers ‹_›
  · exact .start

/-- The event that a move takes. -/
def Move.takes (r : Relay) : Move → Option Event
  | .event _ => r.mux.front
  | _ => none

/-- Every move is made of deeds. -/
theorem move_deeds (hmac) {m : Move} (h : r.Meets t m) : Deeds t (m.takes r) r (r.move hmac m) := by
  have hcall : ∀ {a : Call}, a.Idle → Deeds t none r (r.call a) := fun ha =>
    .single (a := .session _) trivial (.call ha)
  have hnote : ∀ stop interest, Deeds t none r { r with stop := stop, interest := interest } :=
    fun stop interest => .single (a := .note) trivial (.note r.authed stop interest)
  cases m with
  | timer now => exact hcall (a := .onTimer now) trivial
  | event a =>
    simp only [move, nextEvent]
    split
    · exact .start
    · rename_i ev hf
      exact onEvent_deeds hmac hf ⟨hf, fun hk => h hk ev hf⟩ a
  | stash b => exact .single (a := .stash) rfl (.stash b)
  | recv => exact hcall (a := .recv r.recv) trivial
  | advance n => exact hcall (a := .sendAdvance n) trivial
  | halt => exact hnote true r.interest
  | flushDirty => exact hnote r.stop _
  | listener peers => exact onListener_deeds r peers
  | readable i answers => exact onSockReadable_deeds h
  | writable i sockErr answers => exact onSockWritable_deeds h

end Moves

/-! ### Runs -/

/-- The states of a relay in an environment that keeps to the terms. -/
def Runs (hmac : Hmac) (opt : RelayOpts) (t : Terms) (r : Relay) : Prop :=
  ∃ nonce r₀, relayNew hmac opt nonce = some r₀ ∧ Reach (ofFun (move hmac)) (Meets t) r₀ r

theorem Runs.of_moves (hmac : Hmac) (opt : RelayOpts) (t : Terms)
    (nonce : Nonce) (p : Relay → Bool) (l : List Move)
    (h : (relayNew hmac opt nonce).any fun r₀ =>
      decide (Allowed (move hmac) (Meets t) r₀ l) && p (l.foldl (move hmac) r₀)) :
    ∃ r, Runs hmac opt t r ∧ p r = true := by
  obtain ⟨r₀, h₀, h⟩ := (any_eq_true _ _).1 h
  rw [Bool.and_eq_true, decide_eq_true_iff] at h
  exact ⟨_, ⟨nonce, r₀, h₀, .foldl l h.1⟩, h.2⟩

theorem Runs.inv {hmac opt t} {I : Relay → Prop} (h : Runs hmac opt t r)
    (h₀ : ∀ nonce r₀, relayNew hmac opt nonce = some r₀ → I r₀)
    (hs : ∀ e r a r', I r → Fit t e r a → Deed r a r' → I r') : I r := by
  obtain ⟨nonce, r₀, hnew, h⟩ := h
  refine h.inv (h₀ nonce r₀ hnew) fun r m r' hi hm hr => ?_
  rw [show r' = r.move hmac m from hr]
  exact Reach.inv hi (hs _) (move_deeds hmac hm)

/-! ### The slab -/

/-- The slots in use and those that are free. -/
structure Slots (r : Relay) : Prop where
  lt : ∀ i c, r.conns i = some c → i < r.connsCap
  free : ∀ i ∈ r.freelist, i < r.connsCap ∧ r.conns i = none
  nodup : r.freelist.Nodup

/-- A slot for a connection, with the slab and the free slots afterwards. -/
structure Room (r : Relay) (i : ℕ) (free : List ℕ) (cap : ℕ) : Prop where
  slot : r.conns i = none
  lt : i < cap
  le : r.connsCap ≤ cap
  rest : ∀ j ∈ free, j ≠ i ∧ j < cap ∧ r.conns j = none
  nodup : free.Nodup

/-- What a deed does to a connection. -/
inductive ConnStep (r : Relay) (i : ℕ) (c : RelayConn) : Act → RelayConn → Prop
  | arrive {sid : UInt32} (b : Bytes) (hg : r.sidmapGet sid = some i) :
      ConnStep r i c (.event (.data sid b)) (c.arrive b)
  | closed {sid : UInt32} (hg : r.sidmapGet sid = some i) :
      ConnStep r i c (.event (.closed sid)) c.closed
  | drain {w : ℕ} (hw : 0 < w) (hl : w ≤ c.m2s.length) :
      ConnStep r i c (.issue i (.consume c.sid w)) (c.drain w)
  | shut (hf : c.streamFin = true) (hm : c.m2s = []) : ConnStep r i c (.sock i) c.shutWr
  | pass (hs : c.s2m ≠ []) : ConnStep r i c (.issue i (.write c.sid c.s2m))
      (c.pass (accepted (muxWrite r.mux c.sid c.s2m).2)).eased
  | stick (hs : c.s2m ≠ []) (hw : (c.pass (accepted (muxWrite r.mux c.sid c.s2m).2)).s2m ≠ []) :
      ConnStep r i c (.issue i (.write c.sid c.s2m))
        (c.pass (accepted (muxWrite r.mux c.sid c.s2m).2)).block
  | unblock (hs : c.s2m = []) : ConnStep r i c (.sock i) c.unblock
  | fin (he : c.sockEof = true) (hs : c.s2m = []) : ConnStep r i c (.issue i (.close c.sid)) c.fin
  | connected : ConnStep r i c (.sock i) c.connected
  | eof (hs : c.s2m = []) : ConnStep r i c (.issue i (.close c.sid)) c.eof.fin
  | input {p : Bytes} {w : ℕ} (hs : c.s2m = []) (hp : p ≠ [])
      (hw : (muxWrite r.mux c.sid p).2 = .ok w) :
      ConnStep r i c (.input i p) (if w < p.length then (c.input p w).block else c.input p w)

/-- The events that a deed takes. -/
def Act.events : Act → List Event
  | .event ev => [ev]
  | _ => []

/-- What a deed passes to `mux_consume`. -/
def Act.credits : Act → List (UInt32 × ℕ)
  | .issue _ a => a.credits
  | _ => []

theorem Act.credits_eq_nil {a : Act} (h : ∀ i b, a ≠ .issue i b) : a.credits = [] := by
  cases a with
  | issue i b => exact absurd rfl (h i b)
  | _ => rfl

/-- The stream is new to the relay. -/
def Opens (r : Relay) (a : Act) (sid : UInt32) : Prop :=
  (∃ m, a = .event (.opened sid m) ∧ r.mux.front = some (.opened sid m))
    ∨ ∃ peer, a = .accept peer ∧ (muxOpen r.mux peer).2 = .ok sid

/-- What a deed does to the slab. -/
inductive Outcome (r : Relay) (a : Act) (r' : Relay) : Prop
  | same (hcn : r'.conns = r.conns) (hcap : r'.connsCap = r.connsCap)
      (hfree : r'.freelist = r.freelist) (hmap : r'.sidmap = r.sidmap) (hfr : r'.freed = r.freed)
      (hst : (r'.strays.map length).sum
        = (r.strays.map length).sum + deliveredBytes a.events) (hact : ∀ i b, a ≠ .issue i b)
      (hdata : ∀ sid b, a = .event (.data sid b) → r.connOf sid = none)
  | step {i : ℕ} {c c' : RelayConn} (hc : r.conns i = some c) (hs : ConnStep r i c a c')
      (hcn : r'.conns = update r.conns i (some c')) (hcap : r'.connsCap = r.connsCap)
      (hfree : r'.freelist = r.freelist) (hmap : r'.sidmap = r.sidmap) (hfr : r'.freed = r.freed)
      (hst : r'.strays = r.strays)
  | born {i : ℕ} (c : RelayConn) (hnew : c = { sid := c.sid, connecting := c.connecting })
      (hopen : r.Opens a c.sid)
      (hroom : Room r i r'.freelist r'.connsCap)
      (hcn : r'.conns = update r.conns i (some c))
      (hmap : r'.sidmap = r.sidmap ++ [(c.sid, i)]) (hfr : r'.freed = r.freed)
      (hst : r'.strays = r.strays) (hev : deliveredBytes a.events = 0)
      (hact : ∀ i b, a ≠ .issue i b) (hdata : ∀ sid b, a ≠ .event (.data sid b))
  | gone {i : ℕ} {c c' : RelayConn} (hc : r.conns i = some c) (hg : c' = c ∨ c' = c.giveUp)
      (hcn : r'.conns = update r.conns i none) (hcap : r'.connsCap = r.connsCap)
      (hfree : r'.freelist = i :: r.freelist) (hmap : r'.sidmap = r.sidmap.eraseP (·.1 = c.sid))
      (hfr : r'.freed = r.freed ++ [c']) (hst : r'.strays = r.strays)
      (hev : deliveredBytes a.events = 0) (hact : ∀ i b, a ≠ .issue i b)
      (hdata : ∀ sid b, a ≠ .event (.data sid b))

/-- What a deed does to the session. -/
inductive Called (r : Relay) (a : Act) (r' : Relay) : Prop
  | none (hm : r'.mux = r.mux) (hcr : r'.credits = r.credits) (hev : a.events = [])
      (hact : ∀ i b, a ≠ .issue i b)
  -- for a connection
  | issue {i : ℕ} {c : RelayConn} (hc : r.conns i = some c) (b : Call) (ha : a = .issue i b)
      (hb : b ≠ .nextEvent) (hret : r.mux.returned b = [])
      (hclose : ∀ sid, b = .close sid → sid = c.sid)
      (hm : r'.mux = r.mux.call b) (hcr : r'.credits = r.credits ++ b.credits)
  | call (b : Call) (hb : b ≠ .nextEvent) (hret : r.mux.returned b = [])
      (hclose : ∀ sid, b ≠ .close sid) (hact : ∀ i b, a ≠ .issue i b)
      (hm : r'.mux = r.mux.call b) (hcr : r'.credits = r.credits) (hev : a.events = [])
  | event (ev : Event) (ha : a = .event ev) (hf : r.mux.front = some ev) (hno : ev.openedId = none)
      (hm : r'.mux = r.mux.call .nextEvent) (hcr : r'.credits = r.credits)
  | refuse (sid : UInt32) (m : Bytes) (code : UInt32) (ha : a = .event (.opened sid m))
      (hf : r.mux.front = some (.opened sid m))
      (hm : r'.mux = (r.mux.call .nextEvent).call (.reset sid code)) (hcr : r'.credits = r.credits)
  | dial (sid : UInt32) (m : Bytes) (ha : a = .event (.opened sid m))
      (hf : r.mux.front = some (.opened sid m))
      (hnew : ∃ i c, r'.conns i = some c ∧ c.sid = sid)
      (hm : r'.mux = r.mux.call .nextEvent) (hcr : r'.credits = r.credits)
  | accept (sid : UInt32) (peer : Bytes) (ha : a = .accept peer)
      (ho : (muxOpen r.mux peer).2 = .ok sid) (hnew : ∃ i c, r'.conns i = some c ∧ c.sid = sid)
      (hm : r'.mux = r.mux.call (.open peer)) (hcr : r'.credits = r.credits)
      (hl : r.opt.publicListen = true)

theorem Slots.alloc (h : Slots r) (c) : ∃ i free cap w, Room r i free cap ∧ r.connAlloc c
    = ({ r.setConn i c with freelist := free, connsCap := cap, interest := w }, i) := by
  rcases hfree : r.freelist with _ | ⟨i, free⟩
  · have hnone : ∀ j, r.connsCap ≤ j → r.conns j = none := fun j hj => by
      rcases hc : r.conns j with _ | c
      · rfl
      · exact absurd (h.lt _ _ hc) (Nat.not_lt.2 hj)
    refine ⟨_, _, _, _, ⟨hnone _ (Nat.le_refl _), ?_, ?_, fun j hj => ?_, nodup_range'⟩,
      by rw [connAlloc, hfree]⟩
    · split <;> omega
    · split <;> omega
    · have hj := mem_range'_1.1 hj
      exact ⟨by omega, by omega, hnone j (by omega)⟩
  · have hi := h.free i (by simp [hfree])
    have hnd := h.nodup
    rw [hfree, nodup_cons] at hnd
    refine ⟨i, free, r.connsCap, _, ⟨hi.2, hi.1, Nat.le_refl _, fun j hj => ?_, hnd.2⟩,
      by rw [connAlloc, hfree]; rfl⟩
    exact ⟨fun hji => hnd.1 (hji ▸ hj), h.free j (by rw [hfree]; exact mem_cons_of_mem _ hj)⟩

theorem Slots.dial (h : Slots r) (sid) : ∃ i free cap w, Room r i free cap
    ∧ (r.call .nextEvent).openBackendConn sid true
      = { (r.call .nextEvent).setConn i { sid := sid, connecting := true } with
          freelist := free, connsCap := cap, sidmap := r.sidmap ++ [(sid, i)]
          interest := w } := by
  obtain ⟨i, free, cap, w, hroom, heq⟩ := Slots.alloc (r := r.call .nextEvent)
    ⟨h.lt, h.free, h.nodup⟩ { sid := sid, connecting := true }
  refine ⟨i, free, cap, ((r.call .nextEvent).openBackendConn sid true).interest,
    ⟨hroom.slot, hroom.lt, hroom.le, hroom.rest, hroom.nodup⟩, ?_⟩
  simp only [openBackendConn, Bool.true_eq_false, if_false, heq]
  rfl

theorem Slots.accept (h : Slots r) (sid peer) : ∃ i free cap w,
    Room r i free cap ∧ (r.call (.open peer)).opened sid
      = { (r.call (.open peer)).setConn i { sid := sid } with
          freelist := free, connsCap := cap, sidmap := r.sidmap ++ [(sid, i)]
          interest := w, nactive := r.nactive + 1 } := by
  obtain ⟨i, free, cap, w, hroom, heq⟩ := Slots.alloc (r := r.call (.open peer))
    ⟨h.lt, h.free, h.nodup⟩ { sid := sid }
  refine ⟨i, free, cap, ((r.call (.open peer)).opened sid).interest,
    ⟨hroom.slot, hroom.lt, hroom.le, hroom.rest, hroom.nodup⟩, ?_⟩
  simp only [opened, heq]
  rfl

/-- What a deed does to the slab, of its many kinds. -/
theorem Deed.outcome {a} (h : Deed r a r') (hi : Slots r) : Outcome r a r' := by
  cases h with
  | call | note | stash | pause | refuse | busy =>
    exact .same rfl rfl rfl rfl rfl rfl (by simp) (by simp)
  | @skip ev hf hd =>
    cases ev with
    | data => exact hd.elim
    | _ => exact .same rfl rfl rfl rfl rfl rfl (by simp) (by simp)
  | stray hf hg =>
    refine .same rfl rfl rfl rfl rfl ?_ (by simp) fun _ _ h => ?_
    · simp [Act.events, Event.size]
    · cases h
      exact hg
  | @dial sid m hf =>
    obtain ⟨i, free, cap, w, hroom, heq⟩ := hi.dial sid
    rw [heq]
    exact .born { sid := sid, connecting := true } rfl (.inl ⟨m, rfl, hf⟩) hroom rfl rfl rfl rfl rfl
      (by simp) (by simp)
  | data hf hg hc => exact .step hc (.arrive _ hg) rfl rfl rfl rfl rfl rfl
  | closed hf hg hc => exact .step hc (.closed hg) rfl rfl rfl rfl rfl rfl
  | drain hc hw hl => exact .step hc (.drain hw hl) rfl rfl rfl rfl rfl rfl
  | shut hc hf hm => exact .step hc (.shut hf hm) rfl rfl rfl rfl rfl rfl
  | pass hc hs => exact .step hc (.pass hs) rfl rfl rfl rfl rfl rfl
  | stick hc hs hw => exact .step hc (.stick hs hw) rfl rfl rfl rfl rfl rfl
  | unblock hc hs => exact .step hc (.unblock hs) rfl rfl rfl rfl rfl rfl
  | fin hc he hs => exact .step hc (.fin he hs) rfl rfl rfl rfl rfl rfl
  | connected hc => exact .step hc .connected rfl rfl rfl rfl rfl rfl
  | eof hc hs => exact .step hc (.eof hs) rfl rfl rfl rfl rfl rfl
  | input hc hs hp hw => exact .step hc (.input hs hp hw) rfl rfl rfl rfl rfl rfl
  | reset hf hg hc =>
    obtain ⟨n, p, heq⟩ := giveUp_eq (r := r.call .nextEvent) hc
    rw [heq]
    exact .gone hc (.inr rfl) rfl rfl rfl rfl rfl rfl rfl (by simp) (by simp)
  | broken hc hp hw =>
    obtain ⟨n, p, heq⟩ := giveUp_eq (r := r.call _) hc
    rw [heq]
    exact .gone hc (.inr rfl) rfl rfl rfl rfl rfl rfl rfl (by simp) (by simp)
  | fail hc =>
    obtain ⟨n, p, heq⟩ := giveUp_eq hc
    rw [heq]
    exact .gone hc (.inr rfl) rfl rfl rfl rfl rfl rfl rfl (by simp) (by simp)
  | kill hc =>
    obtain ⟨n, p, heq⟩ := giveUp_eq (r := r.call _) hc
    rw [heq]
    exact .gone hc (.inr rfl) rfl rfl rfl rfl rfl rfl rfl (by simp) (by simp)
  | done hc hf =>
    obtain ⟨n, p, heq⟩ := connDestroy_eq hc
    rw [heq]
    exact .gone hc (.inl rfl) rfl rfl rfl rfl rfl rfl rfl (by simp) (by simp)
  | @accept sid peer hl hf ho =>
    obtain ⟨i, free, cap, w, hroom, heq⟩ := hi.accept sid peer
    rw [heq]
    exact .born { sid := sid } rfl (.inr ⟨peer, rfl, ho⟩) hroom rfl rfl rfl rfl rfl (by simp)
      (by simp)

/-- What a deed does to the session, of its many kinds. -/
theorem Deed.called {a} (h : Deed r a r') (hi : Slots r) : Called r a r' := by
  have hnil : r.credits ++ [] = r.credits := append_nil _
  cases h with
  | @call a ha =>
    cases a with
    | recv | onTimer | sendAdvance | goaway =>
      exact .call _ ha.ne_nextEvent rfl (by simp) (by simp) rfl hnil rfl
    | _ => exact ha.elim
  | note | stash | pause | shut | unblock | connected => exact .none rfl rfl rfl (by simp)
  | @skip ev hf hd =>
    refine .event _ rfl hf ?_ rfl hnil
    cases ev with
    | opened => exact hd.elim
    | _ => rfl
  | stray hf | data hf | closed hf => exact .event _ rfl hf rfl rfl hnil
  | refuse hf code => exact .refuse _ _ code rfl hf rfl (by simp [Relay.call, Call.credits])
  | @dial sid m hf =>
    obtain ⟨i, free, cap, w, -, heq⟩ := hi.dial sid
    rw [heq]
    exact .dial sid m rfl hf ⟨i, _, update_self .., rfl⟩ rfl hnil
  | reset hf hg hc =>
    obtain ⟨n, p, heq⟩ := giveUp_eq (r := r.call .nextEvent) hc
    rw [heq]
    exact .event _ rfl hf rfl rfl hnil
  | @drain i w c hc => exact .issue hc (.consume c.sid w) rfl (by simp) rfl (by simp) rfl rfl
  | @pass i c hc | @stick i c hc =>
    exact .issue hc (.write c.sid c.s2m) rfl (by simp) rfl (by simp) rfl rfl
  | @fin i c hc | @eof i c hc =>
    exact .issue hc (.close c.sid) rfl (by simp) rfl (by simp +contextual) rfl rfl
  | @input i w c p => exact .call (.write c.sid p) (by simp) rfl (by simp) (by simp) rfl hnil rfl
  | @broken i c p _ hc hp hw =>
    obtain ⟨n, q, heq⟩ := giveUp_eq (r := r.call _) hc
    rw [heq]
    exact .call (.write c.sid p) (by simp) rfl (by simp) (by simp) rfl hnil rfl
  | fail hc =>
    obtain ⟨n, p, heq⟩ := giveUp_eq hc
    rw [heq]
    exact .none rfl rfl rfl (by simp)
  | done hc hf =>
    obtain ⟨n, p, heq⟩ := connDestroy_eq hc
    rw [heq]
    exact .none rfl rfl rfl (by simp)
  | @kill i c hc =>
    obtain ⟨n, p, heq⟩ := giveUp_eq (r := r.call _) hc
    rw [heq]
    exact .call (.reset c.sid muxCodeInternal) (by simp) rfl (by simp) (by simp) rfl hnil rfl
  | @accept sid peer hl hf ho =>
    obtain ⟨i, free, cap, w, -, heq⟩ := hi.accept sid peer
    rw [heq]
    exact .accept sid peer rfl ho ⟨i, _, update_self .., rfl⟩ rfl hnil hl
  | @busy peer e hl ho =>
    refine .call (.open peer) (by simp) ?_ (by simp) (by simp) rfl hnil rfl
    simp [Session.returned, ho, Except.toOption]

theorem Called.credits {a : Act} (h : Called r a r') : r'.credits = r.credits ++ a.credits := by
  cases h with
  | none _ hcr _ hact | call _ _ _ _ hact _ hcr =>
    rw [hcr, Act.credits_eq_nil hact, append_nil]
  | issue _ _ ha _ _ _ _ hcr => rw [hcr, ha, Act.credits]
  | event _ ha _ _ _ hcr | refuse _ _ _ ha _ _ hcr | dial _ _ ha _ _ _ hcr
  | accept _ _ ha _ _ _ hcr =>
    subst ha
    rw [hcr]
    exact (append_nil _).symm

theorem Called.inv {a} (h : Called r a r') {I : Session → Prop} (hI : I r.mux)
    (hcall : ∀ s b, I s → I (s.call b)) : I r'.mux := by
  cases h with
  | none hm => exact hm ▸ hI
  | issue _ b _ _ _ _ hm | call b _ _ _ _ hm => exact hm ▸ hcall _ b hI
  | event _ _ _ _ hm | dial _ _ _ _ _ hm | accept _ _ _ _ _ hm => exact hm ▸ hcall _ _ hI
  | refuse _ _ code _ _ hm => exact hm ▸ hcall _ _ (hcall _ _ hI)

theorem Called.queues {a} (h : Called r a r') (hq : r.mux.Queues) : r'.mux.Queues :=
  h.inv hq fun _ b h => h.call b

theorem Called.popped {a : Act} (h : Called r a r') (hq : r.mux.Queues) :
    r'.mux.popped = r.mux.popped ++ a.events := by
  cases h with
  | none hm _ hev => rw [hm, hev, append_nil]
  | issue _ b ha hb _ _ hm =>
    rw [hm, ha, (Session.call_pushes hb _).popped]
    exact (append_nil _).symm
  | call b hb _ _ _ hm _ hev => rw [hm, hev, append_nil, (Session.call_pushes hb _).popped]
  | event ev ha hf _ hm | dial sid m ha hf _ hm =>
    subst ha
    rw [hm, hq.popped_front hf]
    rfl
  | refuse sid m code ha hf hm =>
    subst ha
    rw [hm, (Session.call_pushes (by simp) _).popped, hq.popped_front hf]
    rfl
  | accept sid peer ha _ _ hm =>
    subst ha
    rw [hm, (Session.call_pushes (by simp) _).popped]
    exact (append_nil _).symm

/-- The slab and its free list stay consistent. -/
theorem Outcome.slots {a} (h : Outcome r a r') (hi : Slots r) : Slots r' := by
  cases h with
  | same hcn hcap hfree =>
    refine ⟨?_, ?_, ?_⟩
    · rw [hcn, hcap]
      exact hi.lt
    · rw [hcn, hcap, hfree]
      exact hi.free
    · rw [hfree]
      exact hi.nodup
  | @step i c c' hc _ hcn hcap hfree =>
    refine ⟨fun j d hj => ?_, fun j hj => ?_, hfree ▸ hi.nodup⟩
    · rw [hcn] at hj
      rw [hcap]
      by_cases hji : j = i
      · exact hji ▸ hi.lt i c hc
      · rw [update_of_ne hji] at hj
        exact hi.lt j d hj
    · rw [hfree] at hj
      have := hi.free j hj
      have hji : j ≠ i := fun h => by simp [h, hc] at this
      rwa [hcn, hcap, update_of_ne hji]
  | @born i c _ _ hroom hcn =>
    refine ⟨fun j d hj => ?_, fun j hj => ?_, hroom.nodup⟩
    · rw [hcn] at hj
      by_cases hji : j = i
      · exact hji ▸ hroom.lt
      · rw [update_of_ne hji] at hj
        exact (hi.lt j d hj).trans_le hroom.le
    · obtain ⟨hji, hj⟩ := hroom.rest j hj
      rwa [hcn, update_of_ne hji]
  | @gone i c c' hc _ hcn hcap hfree =>
    have hnot : ∀ j ∈ r.freelist, j ≠ i := fun j hj h => by
      have := (hi.free j hj).2
      simp [h, hc] at this
    refine ⟨fun j d hj => ?_, fun j hj => ?_, ?_⟩
    · rw [hcn] at hj
      rw [hcap]
      by_cases hji : j = i
      · simp [hji] at hj
      · rw [update_of_ne hji] at hj
        exact hi.lt j d hj
    · rw [hfree] at hj
      rw [hcn, hcap]
      rcases mem_cons.1 hj with rfl | hj
      · exact ⟨hi.lt j c hc, update_self ..⟩
      · rw [update_of_ne (hnot j hj)]
        exact hi.free j hj
    · rw [hfree, nodup_cons]
      exact ⟨fun h => hnot i h rfl, hi.nodup⟩

theorem Slots.deeds {t e} (hi : Slots r) (h : Deeds t e r r') : Slots r' :=
  inv hi (fun _ _ _ hi _ hs => (hs.outcome hi).slots hi) h

end Relay

end MuxProtocol
