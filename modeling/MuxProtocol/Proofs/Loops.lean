import Mathlib.Data.Option.Basic
import MuxProtocol.Proofs.Edits
import MuxProtocol.Relay

/-!
# The main loops

An iteration of a main loop is made of moves, so what holds along runs of moves holds where an
iteration starts. While the tunnels are served one after the other, the events taken from a session
are those of its own drains, and a session goes only when its tunnel is torn down.
-/

namespace MuxProtocol

open Machine Relation Option Function EpConn

def Event.isFatal : Event → Bool
  | .fatal _ => true
  | _ => false

/-- The events taken from a session before and after: it goes on, or there is none. -/
def Further (a b : Option (List Event)) : Prop := Option.Rel (· <+: ·) a b

namespace Further

variable {a b d : Option (List Event)}

theorem refl : ∀ a, Further a a
  | none => .none
  | some _ => .some List.prefix_rfl

theorem trans (h : Further a b) (h' : Further b d) : Further a d := by
  cases h with
  | none => exact h'
  | some h =>
    cases h' with
    | some h' => exact .some (h.trans h')

theorem eq_none (h : Further a b) : b = none ↔ a = none := by
  cases h with
  | none => rfl
  | some => simp

end Further

/-! ### The loops over a socket -/

section Socket

variable {σ : Type} {R : σ → σ → Prop} (hr : ∀ x, R x x) (ht : ∀ {x y z}, R x y → R y z → R x z)
include hr ht

/-- What sending keeps, the loop that sends keeps. -/
theorem sendLoop_rel {mux : σ → Option Session} {advance : σ → ℕ → σ}
    (hadv : ∀ x n, R x (advance x n)) : ∀ (as : List WriteAnswer) (x : σ),
    R x (sendLoop mux advance as x).1
  | [], x => hr x
  | a :: as, x => by
    unfold sendLoop
    split
    · exact hr x
    split
    · exact hr x
    cases a with
    | wrote n =>
      dsimp only
      split
      · exact hr x
      · exact ht (hadv x n) (sendLoop_rel hadv as _)
    | again | error => exact hr x

/-- What the buffer and `mux_recv` keep, the loop that reads keeps. -/
theorem Reader.readLoop_rel {h : Reader σ} (hstash : ∀ x b, R x (h.stash x b))
    (hpump : ∀ x, R x (h.pump x).1) :
    ∀ (as : List ReadAnswer) (x : σ), R x (h.readLoop as x).1 := by
  have hroom : ∀ x, R x (h.makeRoom x).1 := by
    intro x
    have hp := hpump x
    unfold makeRoom
    split
    · exact hr x
    · generalize h.pump x = res at hp
      obtain ⟨y, err | (_ | n)⟩ := res <;> exact hp
  intro as
  induction as with
  | nil =>
    intro x
    have hx := hroom x
    unfold readLoop
    generalize h.makeRoom x = res at hx
    obtain ⟨y, _ | ok⟩ := res <;> exact hx
  | cons a as ih =>
    intro x
    have hx := hroom x
    unfold readLoop
    generalize h.makeRoom x = res at hx
    obtain ⟨y, _ | ok⟩ := res
    swap
    · exact hx
    cases a with
    | bytes b =>
      dsimp only
      split
      · exact hx
      · have hp := ht (ht hx (hstash y (b.take (recvCap - (h.recv y).length)))) (hpump _)
        generalize h.pump (h.stash y (b.take (recvCap - (h.recv y).length))) = res at hp
        obtain ⟨z, err | n⟩ := res
        · exact hp
        · dsimp only
          split
          · exact hp
          · exact ht hp (ih z)
    | eof | again | error => exact hx

end Socket

/-! ### The router -/

namespace Router

variable {ne nw : ℕ} {e e' e'' : Router ne nw} {t t' : Tunnel ne nw} {m : Move ne nw} {p : ℕ}
  {s : Session} {hmac : Hmac}

/-! ### The events taken -/

/-- The events taken from the session of a tunnel. -/
def taken (e : Router ne nw) (t : Tunnel ne nw) : Option (List Event) :=
  (e.conn t).mux.map Session.popped

theorem Edit.taken_eq (h : Edit e e') (t) : e'.taken t = e.taken t := by
  rcases h.mux t with heq | ⟨a, ha, heq⟩
  · rw [taken, heq, taken]
  · rw [taken, heq, Option.map_map, taken]
    exact congrArg (fun f => Option.map f _) (funext fun s => (Session.call_pushes ha s).popped)

theorem Edits.taken_eq (h : Edits e e') (t) : e'.taken t = e.taken t := by
  induction h with
  | refl => rfl
  | tail _ h ih => exact (h.taken_eq t).trans ih

theorem Handled.taken_eq {ev} (h : Handled hmac e t ev e') (t') : e'.taken t' = e.taken t' := by
  cases h with
  | edits _ h => exact h.taken_eq t'
  | greet _ _ h => rw [taken, h.mux, taken]
  | refuse => exact (call_edits e t (by simp)).taken_eq t'
  | route _ h =>
    rw [taken, routeNew_mux]
    exact h.taken_eq t'

theorem Edit.fd_eq (h : Edit e e') (t) : (e'.conn t).fd = (e.conn t).fd := by
  cases h with
  | call => exact call_field _ _ _ fd fun _ _ _ => rfl
  | minor h => exact h.fd t
  | set => rfl
  | drop | free => exact routeFree_field _ fd (fun _ _ _ => rfl) t

theorem Edits.fd_eq (h : Edits e e') (t) : (e'.conn t).fd = (e.conn t).fd := by
  induction h with
  | refl => rfl
  | tail _ h ih => exact (h.fd_eq t).trans ih

theorem Handled.fd_eq {ev} (h : Handled hmac e t ev e') (t') :
    (e'.conn t').fd = (e.conn t').fd := by
  cases h with
  | edits _ h => exact h.fd_eq t'
  | greet _ _ h => exact h.fd t'
  | refuse => exact (call_edits e t (by simp)).fd_eq t'
  | route _ h =>
    rw [routeNew_field _ _ _ _ _ fd fun _ _ _ => rfl]
    exact h.fd_eq t'

def Move.tunnel : Move ne nw → Tunnel ne nw
  | .tick t _ _ _ | .finish t _ _ _ | .timer t _ | .event t | .stash t _ | .recv t | .advance t _
  | .teardown t _ => t

/-- What a move does to the other tunnels. -/
structure Spared (t : Tunnel ne nw) (e e' : Router ne nw) : Prop where
  taken : e'.taken t = e.taken t
  fd : (e'.conn t).fd = (e.conn t).fd

theorem Spared.refl (t : Tunnel ne nw) (e : Router ne nw) : Spared t e e := ⟨rfl, rfl⟩

theorem Spared.trans (h : Spared t e e') (h' : Spared t e' e'') : Spared t e e'' :=
  ⟨h'.taken.trans h.taken, h'.fd.trans h.fd⟩

theorem Edits.spared (h : Edits e e') (t) : Spared t e e' :=
  ⟨h.taken_eq t, h.fd_eq t⟩

theorem spared_of_conn (h : e'.conn t = e.conn t) : Spared t e e' :=
  ⟨by rw [taken, h, taken], by rw [h]⟩

theorem spared_modify {g} (h : t ≠ t') : Spared t e (e.modify t' g) :=
  spared_of_conn (modify_of_ne _ _ _ h)

/-- A move on one tunnel takes no event from another. -/
theorem move_spared (hmac : Hmac) (hm : t ≠ m.tunnel) :
    Spared t e (e.move hmac m) := by
  cases m with
  | tick =>
    unfold move connTickConnect
    dsimp only
    split_ifs
    · exact .refl ..
    · exact spared_modify hm
    · exact spared_modify hm
  | finish =>
    unfold move connFinishConnect
    dsimp only
    split_ifs
    · exact spared_modify hm
    · split
      · exact spared_modify hm
      · rw [connFlush, sendLoop]
        dsimp only
        exact spared_modify hm
    · exact .refl ..
  | timer | recv | advance => exact spared_of_conn (call_of_ne _ _ _ hm)
  | event t' =>
    rcases nextEvent_cases hmac e t' with heq | ⟨s, ev, -, -, heq⟩
    · rw [move, heq]
      exact .refl ..
    · rw [move, heq]
      have hh := onEvent_handled hmac (e.call t' .nextEvent) t' ev
      exact (spared_of_conn (call_of_ne _ _ _ hm)).trans ⟨hh.taken_eq t, hh.fd_eq t⟩
  | stash =>
    simp only [move]
    exact spared_modify hm
  | teardown t' now =>
    simp only [move, connTeardown]
    exact ((dropRoutes_edits e t').spared t).trans (spared_modify hm)

def Going (t : Tunnel ne nw) (e e' : Router ne nw) : Prop := Further (e.taken t) (e'.taken t)

theorem Going.refl (t : Tunnel ne nw) (e : Router ne nw) : Going t e e := Further.refl _

theorem Going.trans (h : Going t e e') (h' : Going t e' e'') : Going t e e'' := Further.trans h h'

theorem Spared.going (h : Spared t e e') : Going t e e' := by
  rw [Going, h.taken]
  exact Going.refl t e

/-- The moves of the loops over one tunnel, between its coming and its going. -/
def Move.Serves (t : Tunnel ne nw) : Move ne nw → Prop
  | .timer t' _ | .event t' | .stash t' _ | .recv t' | .advance t' _ => t' = t
  | .tick .. | .finish .. | .teardown .. => False

theorem move_going (h : Firm e) (hm : m.Serves t') : Going t e (e.move hmac m) := by
  by_cases ht : t = m.tunnel
  · have hcall : ∀ (t : Tunnel ne nw) (a : Call), Going t e (e.call t a) := by
      intro t a
      unfold Going taken
      rw [call_mux_self]
      rcases hs : (e.conn t).mux with _ | s
      · exact .none
      · exact .some ((h.base.hosted t s hs).waiting.popped_call a)
    subst ht
    cases m with
    | tick | finish | teardown => exact hm.elim
    | timer | recv | advance => exact hcall _ _
    | event t =>
      rcases nextEvent_cases hmac e t with heq | ⟨s, ev, -, -, heq⟩
      · rw [move, heq]
        exact .refl ..
      · rw [move, heq]
        have hh := onEvent_handled hmac (e.call t .nextEvent) t ev
        refine (hcall t .nextEvent).trans ?_
        rw [Going, hh.taken_eq]
        exact Going.refl ..
    | stash t b =>
      simp only [move, Going, taken]
      rw [modify_field _ _ _ mux rfl]
      exact Going.refl ..
  · exact (move_spared hmac ht).going

/-! ### The loops as moves -/

abbrev Moves (hmac : Hmac) : Router ne nw → Router ne nw → Prop :=
  Reach (ofFun (move hmac)) fun _ _ => True

/-- The moves of serving a tunnel. -/
abbrev Serves (hmac : Hmac) (t : Tunnel ne nw) :
    Router ne nw → Router ne nw → Prop :=
  Reach (ofFun (move hmac)) fun _ m => m.Serves t

theorem Moves.firm (h : Moves hmac e e') (hf : Firm e) : Firm e' :=
  h.inv hf fun _ m _ hf _ he => by
    rw [he]
    exact hf.move m

theorem Serves.moves (h : Serves hmac t e e') : Moves hmac e e' := h.mono fun _ _ _ => trivial

theorem Serves.going (h : Serves hmac t' e e') (hf : Firm e) (t) : Going t e e' :=
  (h.inv (I := fun e' => Firm e' ∧ Going t e e') ⟨hf, .refl ..⟩ fun _ m _ hI hm he => by
    rw [he]
    exact ⟨hI.1.move m, hI.2.trans (move_going hI.1 hm)⟩).2

theorem Serves.spared (h : Serves hmac t' e e') (ht : t ≠ t') : Spared t e e' :=
  h.inv (I := fun e' => Spared t e e') (.refl ..) fun _ m _ hI hm he => by
    rw [he]
    refine hI.trans (move_spared hmac ?_)
    have hmt : m.tunnel = t' := by
      cases m with
      | tick | finish | teardown => exact hm.elim
      | _ => exact hm
    rwa [hmt]

theorem move_serves (e : Router ne nw) (hm : m.Serves t) : Serves hmac t e (e.move hmac m) :=
  .single hm rfl

theorem connFlush_serves (t) (as : List WriteAnswer) (e : Router ne nw) :
    Serves hmac t e (connFlush t as e).1 :=
  sendLoop_rel (fun _ => .start) Reach.trans (fun e n => move_serves (m := .advance t n) e rfl) as e

theorem onEvents_serves (e : Router ne nw) (t) : Serves hmac t e (e.onEvents hmac t) :=
  Function.Iterate.rec (Serves hmac t e) .start
    (fun e' h => Reach.trans h (move_serves (m := .event t) e' rfl)) _

theorem stash_serves (hmac : Hmac) (e : Router ne nw) (t : Tunnel ne nw)
    (g : Bytes → Bytes) :
    Serves hmac t e (e.modify t fun c => { c with recv := g c.recv }) := by
  refine Reach.single (a := .stash t (g (e.conn t).recv)) rfl ?_
  unfold ofFun move modify
  rfl

theorem connPump_serves (hmac : Hmac) (e : Router ne nw) (t : Tunnel ne nw) :
    Serves hmac t e (e.connPump hmac t).1 := by
  unfold connPump
  split
  · exact .start
  · exact ((move_serves (m := .recv t) e rfl).trans (onEvents_serves _ t)).trans
      (stash_serves hmac _ t _)

theorem connRead_serves (t : Tunnel ne nw) (as : List ReadAnswer) (e : Router ne nw) :
    Serves hmac t e (connRead hmac t as e).1 :=
  Reader.readLoop_rel (fun _ => .start) Reach.trans (fun e b => stash_serves hmac e t (· ++ b))
    (connPump_serves hmac · t) as e

theorem connTimer_serves (hmac) (e : Router ne nw) (t now as) :
    Serves hmac t e (e.connTimer hmac t now as) := by
  unfold connTimer
  split
  · exact ((move_serves (m := .timer t now) e rfl).trans (onEvents_serves _ t)).trans
      (connFlush_serves t as _)
  · exact .start

theorem connFlush_edits (t) (as : List WriteAnswer) (e : Router ne nw) :
    Edits e (connFlush t as e).1 :=
  sendLoop_rel (fun _ => .refl) .trans (fun e n => call_edits e t (by simp)) as e

theorem tick_taken (e : Router ne nw) (t t' now dialled failedAt) :
    (e.connTickConnect t now dialled failedAt).taken t' = e.taken t' := by
  unfold connTickConnect
  split_ifs
  · rfl
  · exact congrArg (Option.map _) (modify_field _ _ _ EpConn.mux rfl)
  · exact congrArg (Option.map _) (modify_field _ _ _ EpConn.mux rfl)

theorem connFinishConnect_serves (hc : (e.conn t).connecting = true) (hfd : (e.conn t).fd = true)
    (err) (nonce : Nonce) (failedAt as) :
    Serves hmac t (e.move hmac (.finish t err nonce failedAt))
      (e.connFinishConnect hmac t err nonce failedAt as) := by
  unfold move connFinishConnect
  simp only [hc, hfd, Bool.and_self, if_true]
  split
  · exact .start
  · split
    · exact .start
    · rw [connFlush, sendLoop]
      exact connFlush_serves t as _

/-- The turn of a tunnel: it is served and goes on, or it connects, or it is served and torn
down. -/
theorem connTurn_cases (hmac) (e : Router ne nw) (polled : EpConn) (t) (a : Answers)
    (hfd : polled.fd = true → (e.conn t).fd = true) :
    ((e.connTurn hmac polled t a).2 = true ∧ Serves hmac t e (e.connTurn hmac polled t a).1)
    ∨ ((e.connTurn hmac polled t a).2 = true ∧ (e.conn t).connecting = true
      ∧ ∃ m : Move ne nw, m.tunnel = t
        ∧ Serves hmac t (e.move hmac m) (e.connTurn hmac polled t a).1)
    ∨ (e.connTurn hmac polled t a).2 = false ∧ ∃ e₁, Serves hmac t e e₁
      ∧ (e.connTurn hmac polled t a).1 = e₁.connTeardown t a.downAt := by
  unfold connTurn
  dsimp only
  by_cases hp : polled.fd = false
  · rw [if_pos hp]
    exact .inl ⟨rfl, .start⟩
  rw [if_neg hp]
  by_cases hc : (e.conn t).connecting = true
  · rw [if_pos hc]
    split
    · exact .inr (.inl ⟨rfl, hc, _, rfl,
        connFinishConnect_serves hc (hfd (by simpa using hp)) _ _ _ _⟩)
    · exact .inl ⟨rfl, .start⟩
  rw [if_neg hc]
  have hread : Serves hmac t e (if (a.pollIn && pollIn polled || a.pollErr) = true
      then connRead hmac t a.reads e else (e, true)).1 := by
    split
    · exact connRead_serves t _ e
    · exact .start
  generalize (if (a.pollIn && pollIn polled || a.pollErr) = true then connRead hmac t a.reads e
    else (e, true)) = res at hread
  obtain ⟨e₁, _ | _⟩ := res
  · exact .inr (.inr ⟨rfl, e₁, hread, rfl⟩)
  dsimp only
  have hflush : Serves hmac t e (if ((e₁.conn t).fd && (a.pollOut && pollOut polled)) = true
      then connFlush t a.writes e₁ else (e₁, true)).1 := by
    split
    · exact hread.trans (connFlush_serves t _ e₁)
    · exact hread
  generalize (if ((e₁.conn t).fd && (a.pollOut && pollOut polled)) = true
    then connFlush t a.writes e₁ else (e₁, true)) = res at hflush
  obtain ⟨e₂, _ | _⟩ := res
  · exact .inr (.inr ⟨rfl, e₂, hflush, rfl⟩)
  · exact .inl ⟨rfl, hflush⟩

end Router

/-! ### The library -/

namespace LpClient

variable {c c' c'' : LpClient} {m : Move} {hmac : Hmac}

/-- The events taken from the session. -/
def taken (c : LpClient) : Option (List Event) := c.mux.map Session.popped

def Going (c c' : LpClient) : Prop := Further c.taken c'.taken

theorem Going.refl (c) : Going c c := Further.refl _

theorem Going.trans (h : Going c c') (h' : Going c' c'') : Going c c'' := Further.trans h h'

theorem Going.mux_none (h : Going c c') : c'.mux = none ↔ c.mux = none := by
  have := h.eq_none
  rwa [taken, taken, map_eq_none_iff, map_eq_none_iff] at this

/-- The moves between the coming and the going of a session. -/
def Move.Serves : Move → Prop
  | .up _ | .down => False
  | _ => True

theorem Deed.going {a} (h : Deed c a c') (hi : Links c) (hup : a ≠ .up) (hdown : a ≠ .hangUp) :
    Going c c' := by
  have hc := h.called hi hup hdown
  unfold Going taken
  rcases hs : c.mux with _ | s
  · have hnone := hc.isSome
    rw [hs, isSome_none, isSome_eq_false_iff, isNone_iff_eq_none] at hnone
    rw [hnone]
    exact .none
  · obtain ⟨s', hs', hp, -⟩ := hc.popped hi hs
    rw [hs']
    exact .some ⟨_, hp.symm⟩

theorem move_going (hi : Links c) (hm : m.Serves) : Going c (c.move hmac m) := by
  refine ((move_deeds hmac hi m).inv (I := fun c' => Links c' ∧ Going c c') ⟨hi, .refl c⟩
    fun _ a _ h ha hs => ⟨hs.links h.1, h.2.trans (hs.going h.1 ?_ ?_)⟩).2
  · rintro rfl
    obtain ⟨nonce, rfl⟩ := ha
    exact hm
  · rintro rfl
    subst ha
    exact hm

abbrev Moves (hmac : Hmac) : LpClient → LpClient → Prop :=
  Reach (ofFun (move hmac)) fun _ _ => True

abbrev Serves (hmac : Hmac) : LpClient → LpClient → Prop :=
  Reach (ofFun (move hmac)) fun _ m => m.Serves

theorem Moves.sound (h : Moves hmac c c') (hi : Sound c) : Sound c' :=
  h.inv hi fun _ m _ hi _ he => by
    rw [he]
    exact move_sound hi m

theorem Serves.moves (h : Serves hmac c c') : Moves hmac c c' := h.mono fun _ _ _ => trivial

theorem Serves.going (h : Serves hmac c c') (hi : Sound c) : Going c c' :=
  (h.inv (I := fun c' => Sound c' ∧ Going c c') ⟨hi, .refl c⟩ fun _ m _ hI hm he => by
    rw [he]
    exact ⟨move_sound hI.1 m, hI.2.trans (move_going hI.1.links hm)⟩).2

theorem move_serves (c : LpClient) (hm : m.Serves) : Serves hmac c (c.move hmac m) :=
  .single hm rfl

theorem tunnelFlush_serves (as : List WriteAnswer) (c : LpClient) :
    Serves hmac c (tunnelFlush as c).1 :=
  sendLoop_rel (fun _ => .start) Reach.trans (fun c n => move_serves (m := .advance n) c trivial)
    as c

theorem handleEvents_serves (c : LpClient) : Serves hmac c (c.handleEvents hmac) :=
  Function.Iterate.rec (Serves hmac c) .start
    (fun c' h => Reach.trans h (move_serves (m := .event) c' trivial)) _

theorem tunnelPump_serves (hmac) (c : LpClient) : Serves hmac c (c.tunnelPump hmac).1 := by
  unfold tunnelPump
  split
  · exact .start
  · exact ((move_serves (m := .recv) c trivial).trans (handleEvents_serves _)).trans
      (move_serves (m := .stash _) _ trivial)

theorem tunnelRead_serves (as : List ReadAnswer) (c : LpClient) :
    Serves hmac c (tunnelRead hmac as c).1 :=
  Reader.readLoop_rel (fun _ => .start) Reach.trans
    (fun c b => move_serves (m := .stash (c.recv ++ b)) c trivial) (tunnelPump_serves hmac) as c

/-- The calls of the application and the work on the pending list. -/
abbrev Works (hmac : Hmac) : LpClient → LpClient → Prop :=
  Reach (ofFun (move hmac)) fun _ m => m = .work ∨ ∃ a, m = .app a

theorem Works.serves (h : Works hmac c c') : Serves hmac c c' :=
  h.mono fun _ _ hm => by
    rcases hm with rfl | ⟨a, rfl⟩
    · trivial
    · trivial

theorem app_works (hmac) : ∀ (as : List AppCall) (c : LpClient), Works hmac c (as.foldl app c)
  | [], _ => .start
  | a :: as, _ => (Reach.single (a := .app a) (.inr ⟨a, rfl⟩) rfl).trans (app_works hmac as _)

theorem runPending_works (hmac) (hi : Sound c) (hfd : c.fd = true) : Works hmac c c.runPending := by
  unfold runPending
  generalize c.pending.length = n
  induction n generalizing c with
  | zero => exact .start
  | succ n ih =>
    rw [iterate_succ_apply]
    have hs : Works hmac c c.workNext := .single (a := .work) (.inl rfl) (if_pos hfd).symm
    have hi' := hs.serves.moves.sound hi
    refine hs.trans (ih hi' ?_)
    rw [hi'.links.fd, isSome_iff_ne_none, ne_eq, (hs.serves.going hi).mux_none]
    exact isSome_iff_ne_none.1 (hi.links.fd ▸ hfd)

theorem drainOut_serves : ∀ (rounds) (c : LpClient), Serves hmac c (drainOut rounds c)
  | [], _ => .start
  | (ws, calls) :: rounds, c => by
    have hflush : Serves hmac c _ := tunnelFlush_serves ws c
    unfold drainOut
    split
    · exact .start
    generalize tunnelFlush ws c = res at hflush
    obtain ⟨c₁, _ | _⟩ := res
    · exact hflush
    dsimp only at hflush ⊢
    split
    · exact hflush
    · exact (hflush.trans (app_works hmac calls c₁).serves).trans (drainOut_serves rounds _)

/-- The way out of `io_main` is a run of moves too, and the last is the end of the session. -/
theorem ioExit_moves (hmac) (hi : Sound c) (rounds) :
    ∃ c₁, Moves hmac c c₁ ∧ c.ioExit rounds = c₁.sessionDown := by
  unfold ioExit
  refine ⟨_, ?_, rfl⟩
  split
  · rename_i hup
    exact (runPending_works hmac hi (by simp_all)).serves.moves.trans (drainOut_serves _ _).moves
  · exact .start

end LpClient

/-! ### The relay -/

namespace Relay

variable {r r' : Relay} {hmac : Hmac}

abbrev Moves (hmac : Hmac) : Relay → Relay → Prop :=
  Reach (ofFun (move hmac)) fun _ _ => True

theorem move_moves (r : Relay) (m : Move) : Moves hmac r (r.move hmac m) := .single trivial rfl

theorem handleEvents_moves (r : Relay) (ans) : Moves hmac r (r.handleEvents hmac ans) :=
  Function.Iterate.rec (Moves hmac r) .start
    (fun r' h => Reach.trans h (move_moves r' (.event _))) _

theorem tunnelFlush_moves (as : List WriteAnswer) (r : Relay) : Moves hmac r (tunnelFlush as r).1 :=
  sendLoop_rel (fun _ => .start) Reach.trans (fun r n => move_moves r (.advance n)) as r

theorem pumpRecv_moves (hmac) (r : Relay) (ans) : Moves hmac r (r.pumpRecv hmac ans).1 :=
  ((move_moves r .recv).trans (handleEvents_moves _ ans)).trans (move_moves _ (.stash _))

theorem tunnelRead_moves (ans) (as : List ReadAnswer) (r : Relay) :
    Moves hmac r (tunnelRead hmac ans as r).1 :=
  Reader.readLoop_rel (fun _ => .start) Reach.trans
    (fun r b => move_moves r (.stash (r.recv ++ b))) (pumpRecv_moves hmac · ans) as r

theorem onReady_moves (r : Relay) (ans e) : Moves hmac r (r.onReady hmac ans e).1 := by
  cases e with
  | tunnel readable writable reads writes =>
    unfold onReady
    dsimp only
    have hread : Moves hmac r (if readable then tunnelRead hmac ans reads r else (r, true)).1 := by
      split
      · exact tunnelRead_moves ans reads r
      · exact .start
    generalize (if readable then tunnelRead hmac ans reads r else (r, true)) = res at hread
    obtain ⟨r₁, _ | _⟩ := res
    · exact hread.trans (move_moves r₁ .halt)
    · dsimp only
      split
      · exact hread.trans (tunnelFlush_moves writes r₁)
      · exact hread
  | listener peers => exact move_moves r (.listener peers)
  | conn i readable writable sockErr reads writes =>
    have hwrite : Moves hmac r (if writable then r.onSockWritable i sockErr writes else r) := by
      split
      · exact move_moves r (.writable i sockErr writes)
      · exact .start
    unfold onReady
    dsimp only
    split
    · exact hwrite.trans (move_moves _ (.readable i reads))
    · exact hwrite

theorem onAllReady_moves (ans) : ∀ (es : List Ready) (r : Relay),
    Moves hmac r (onAllReady hmac ans es r)
  | [], _ => .start
  | e :: es, r => by
    have h : Moves hmac r _ := onReady_moves r ans e
    unfold onAllReady
    generalize r.onReady hmac ans e = res at h
    obtain ⟨r₁, _ | _⟩ := res
    · exact h
    · exact h.trans (onAllReady_moves ans es r₁)

/-- An iteration of the main loop is a run of moves. -/
theorem runLoop_moves (r : Relay) (a) : Moves hmac r (r.runLoop hmac a).1 := by
  have h₁ : Moves hmac r _ := (move_moves r (.timer a.now)).trans (handleEvents_moves _ a.event)
  unfold runLoop
  dsimp only [move] at h₁ ⊢
  generalize (r.call (.onTimer a.now)).handleEvents hmac a.event = r₁ at h₁
  split
  · exact h₁
  have h₂ := h₁.trans (tunnelFlush_moves a.before r₁)
  generalize tunnelFlush a.before r₁ = res at h₂
  obtain ⟨r₂, _ | _⟩ := res
  · exact h₂
  dsimp only at h₂ ⊢
  have h₃ := ((h₂.trans (move_moves r₂ .flushDirty)).trans
    (onAllReady_moves a.event a.ready _)).trans (tunnelFlush_moves a.after _)
  dsimp only [move] at h₃
  generalize tunnelFlush a.after (onAllReady hmac a.event a.ready r₂.flushDirty) = res at h₃
  obtain ⟨r₃, _ | _⟩ := res
  · exact h₃
  · exact h₃.trans (move_moves r₃ .flushDirty)

/-- What is reached in iterations of the main loop is reached in moves. -/
theorem moves_of_turns (h : Reach (ofFun (turn hmac)) (fun _ _ => True) r r') : Moves hmac r r' :=
  h.inv .start fun _ a _ hm _ he => by
    rw [he]
    cases a with
    | inl m => exact hm.trans (move_moves _ m)
    | inr a => exact hm.trans (runLoop_moves _ a)

end Relay

end MuxProtocol
