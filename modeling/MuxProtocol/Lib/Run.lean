import Mathlib.Logic.Basic
import Mathlib.Tactic.Common

/-!
# Runs of a machine

A machine takes one action at a time; `ok` says which actions its environment may take in a state.
A property that the start has and every allowed step keeps holds in every state reached.
-/

namespace Machine

variable {σ β : Type*}

/-- The machine whose steps are a function. -/
def ofFun (f : σ → β → σ) (s : σ) (a : β) (s' : σ) : Prop := s' = f s a

/-- The states reached from `s₀` by allowed actions. -/
inductive Reach (step : σ → β → σ → Prop) (ok : σ → β → Prop) (s₀ : σ) : σ → Prop
  | start : Reach step ok s₀ s₀
  | step {s s' : σ} {a : β} : Reach step ok s₀ s → ok s a → step s a s' → Reach step ok s₀ s'

namespace Reach

variable {step : σ → β → σ → Prop} {ok ok' : σ → β → Prop} {s₀ s s' : σ}

theorem single {a : β} (ha : ok s a) (h : step s a s') : Reach step ok s s' :=
  .step .start ha h

theorem trans (h : Reach step ok s₀ s) (h' : Reach step ok s s') : Reach step ok s₀ s' := by
  induction h' with
  | start => exact h
  | step _ ha hs ih => exact .step ih ha hs

theorem inv {I : σ → Prop} (h₀ : I s₀) (hs : ∀ s a s', I s → ok s a → step s a s' → I s')
    (h : Reach step ok s₀ s) : I s := by
  induction h with
  | start => exact h₀
  | step _ ha h ih => exact hs _ _ _ ih ha h

theorem mono (hok : ∀ s a, ok s a → ok' s a) (h : Reach step ok s₀ s) :
    Reach step ok' s₀ s := by
  induction h with
  | start => exact .start
  | step _ ha hs ih => exact .step ih (hok _ _ ha) hs

theorem map {τ : Type*} {step' : τ → β → τ → Prop} {okt : τ → β → Prop} (g : σ → τ)
    (hok : ∀ s a, ok s a → okt (g s) a) (hg : ∀ s a s', step s a s' → step' (g s) a (g s'))
    (h : Reach step ok s₀ s) : Reach step' okt (g s₀) (g s) := by
  induction h with
  | start => exact .start
  | step _ ha hs ih => exact .step ih (hok _ _ ha) (hg _ _ _ hs)

end Reach

/-- Every action of a list is allowed where it is taken. -/
def Allowed (f : σ → β → σ) (ok : σ → β → Prop) : σ → List β → Prop
  | _, [] => True
  | s, a :: l => ok s a ∧ Allowed f ok (f s a) l

instance Allowed.decidable (f : σ → β → σ) (ok : σ → β → Prop) [∀ s a, Decidable (ok s a)] :
    ∀ (s : σ) (l : List β), Decidable (Allowed f ok s l)
  | _, [] => inferInstanceAs (Decidable True)
  | s, a :: l => @instDecidableAnd _ _ _ (Allowed.decidable f ok (f s a) l)

theorem Reach.foldl {f} {ok : σ → β → Prop} :
    ∀ {s : σ} (l : List β), Allowed f ok s l → Reach (ofFun f) ok s (l.foldl f s)
  | _, [], _ => .start
  | _, _ :: l, h => (Reach.single h.1 rfl).trans (Reach.foldl l h.2)

/-! ### Two machines side by side -/

section Pair

variable {step : σ → β → σ → Prop}

/-- Two copies of a machine, of which one takes a step; the flag says which. -/
inductive Pair (step : σ → β → σ → Prop) : σ × σ → Bool × β → σ × σ → Prop
  | left {x x' y : σ} {a : β} : step x a x' → Pair step (x, y) (false, a) (x', y)
  | right {x y y' : σ} {a : β} : step y a y' → Pair step (x, y) (true, a) (x, y')

/-- What one may do next to the other: `ok` of itself, its peer and the action. -/
def Beside (ok : σ → σ → β → Prop) (p : σ × σ) : Bool × β → Prop
  | (false, a) => ok p.1 p.2 a
  | (true, a) => ok p.2 p.1 a

theorem Reach.left (ok : σ → σ → β → Prop) {x x' y : σ} (h : Reach step (ok · y ·) x x') :
    Reach (Pair step) (Beside ok) (x, y) (x', y) := by
  induction h with
  | start => exact .start
  | step _ ha hs ih => exact .step (a := (false, _)) ih ha (.left hs)

theorem Reach.right (ok : σ → σ → β → Prop) {x y y' : σ} (h : Reach step (ok · x ·) y y') :
    Reach (Pair step) (Beside ok) (x, y) (x, y') := by
  induction h with
  | start => exact .start
  | step _ ha hs ih => exact .step (a := (true, _)) ih ha (.right hs)

/-- The invariant rule of a pair: `J` says of one of the two what it keeps next to the other, and
a step of the one has to keep it for both. -/
theorem Reach.inv_pair {ok : σ → σ → β → Prop} {J : σ → σ → Prop} {p₀ p : σ × σ}
    (h : Reach (Pair step) (Beside ok) p₀ p)
    (h₀ : J p₀.1 p₀.2 ∧ J p₀.2 p₀.1)
    (hs : ∀ x y a x', J x y → J y x → ok x y a → step x a x' → J x' y ∧ J y x') :
    J p.1 p.2 ∧ J p.2 p.1 := by
  refine h.inv (I := fun p => J p.1 p.2 ∧ J p.2 p.1) h₀ ?_
  intro p a p' hJ ha hp
  cases hp with
  | left hx => exact hs _ _ _ _ hJ.1 hJ.2 ha hx
  | right hy => exact (hs _ _ _ _ hJ.2 hJ.1 ha hy).symm

end Pair

end Machine
