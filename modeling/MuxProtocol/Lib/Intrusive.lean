import Mathlib.Data.List.Nodup
import Mathlib.Logic.Function.Basic
import Mathlib.Tactic.Common

/-!
# Records threaded on lists

Records in a heap, some of them linked in a list. Each has a flag that says whether it is;
`Threaded` says that the flags tell the truth and that no record is linked twice.
-/

namespace Intrusive

open List Function

variable {κ α : Type*}

/-! ### All records -/

def Each (P : κ → α → Prop) (heap : κ → Option α) : Prop := ∀ p a, heap p = some a → P p a

namespace Each

variable {P Q : κ → α → Prop} {heap : κ → Option α} {p : κ} {a : α}

theorem imp (h : Each P heap) (hq : ∀ p a, heap p = some a → P p a → Q p a) : Each Q heap :=
  fun p a ha => hq p a ha (h p a ha)

variable [DecidableEq κ]

theorem set (h : Each P heap) (ha : P p a) : Each P (update heap p (some a)) := by
  intro q b hb
  by_cases hq : q = p
  · subst hq
    rw [update_self, Option.some_inj] at hb
    exact hb ▸ ha
  · rw [update_of_ne hq] at hb
    exact h q b hb

theorem drop (h : Each P heap) : Each P (update heap p none) := by
  intro q b hb
  by_cases hq : q = p
  · subst hq
    simp at hb
  · rw [update_of_ne hq] at hb
    exact h q b hb

end Each

/-! ### Lists -/

structure Threaded (flag : α → Prop) (heap : κ → Option α) (l : List κ) : Prop where
  nodup : l.Nodup
  mem_iff : ∀ p, p ∈ l ↔ ∃ a, heap p = some a ∧ flag a

namespace Threaded

variable {flag : α → Prop} {heap : κ → Option α} {l l' : List κ} {p : κ} {a a' : α}

theorem mem (h : Threaded flag heap l) (hp : heap p = some a) : p ∈ l ↔ flag a := by
  rw [h.mem_iff p]
  exact ⟨fun ⟨b, hb, hf⟩ => Option.some.inj (hp.symm.trans hb) ▸ hf, fun hf => ⟨a, hp, hf⟩⟩

theorem not_mem (h : Threaded flag heap l) (hp : heap p = none) : p ∉ l := fun hm => by
  obtain ⟨a, ha, -⟩ := (h.mem_iff p).1 hm
  simp [hp] at ha

variable [DecidableEq κ]

theorem change (h : Threaded flag heap l) {o} (hn : l'.Nodup)
    (hp : p ∈ l' ↔ ∃ a, o = some a ∧ flag a) (hl : ∀ q, q ≠ p → (q ∈ l' ↔ q ∈ l)) :
    Threaded flag (update heap p o) l' := by
  refine ⟨hn, fun q => ?_⟩
  by_cases hq : q = p
  · subst hq
    rw [update_self, hp]
  · rw [update_of_ne hq, hl q hq, h.mem_iff q]

theorem set (h : Threaded flag heap l) (hp : heap p = some a) (hf : flag a' ↔ flag a) :
    Threaded flag (update heap p (some a')) l := by
  refine h.change h.nodup ?_ fun _ _ => Iff.rfl
  rw [h.mem hp]
  simp [hf]

theorem push (h : Threaded flag heap l) (hno : ∀ a, heap p = some a → ¬ flag a) (hf : flag a') :
    Threaded flag (update heap p (some a')) (p :: l) := by
  have hp : p ∉ l := fun hm => by
    obtain ⟨a, ha, hfa⟩ := (h.mem_iff p).1 hm
    exact hno a ha hfa
  refine h.change (nodup_cons.2 ⟨hp, h.nodup⟩) ?_ fun q hq => by simp [hq]
  simpa using hf

theorem insert (h : Threaded flag heap l) (hp : heap p = none) (hf : ¬ flag a') :
    Threaded flag (update heap p (some a')) l :=
  h.change h.nodup (by simpa [h.not_mem hp] using hf) fun _ _ => Iff.rfl

theorem append (h : Threaded flag heap l) (hp : heap p = none) (hf : flag a') :
    Threaded flag (update heap p (some a')) (l ++ [p]) := by
  refine h.change ?_ (by simpa using hf) fun q hq => by simp [hq]
  rw [nodup_append]
  refine ⟨h.nodup, nodup_singleton p, ?_⟩
  rintro q hq _ hm rfl
  rw [mem_singleton] at hm
  exact h.not_mem hp (hm ▸ hq)

theorem pop (h : Threaded flag heap (p :: l)) (hf : ¬ flag a') :
    Threaded flag (update heap p (some a')) l := by
  obtain ⟨hp, hn⟩ := nodup_cons.1 h.nodup
  exact h.change hn (by simpa [hp] using hf) fun q hq => by simp [hq]

theorem erase (h : Threaded flag heap l) :
    Threaded flag (update heap p none) (l.erase p) :=
  h.change (h.nodup.erase p) (by simp [h.nodup.mem_erase_iff]) fun q hq => by
    simp [h.nodup.mem_erase_iff, hq]

theorem drop (h : Threaded flag heap l) (hp : heap p = some a) (hf : ¬ flag a) :
    Threaded flag (update heap p none) l :=
  h.change h.nodup (by simpa [h.mem hp] using hf) fun _ _ => Iff.rfl

end Threaded

end Intrusive
