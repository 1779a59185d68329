import Mathlib.Data.List.Basic
import Mathlib.Tactic.Common

/-!
# Hashing block by block

A hash of this kind keeps a state and less than a block of input, and compresses each block into
the state as soon as it is complete. Taking the input byte by byte (`absorb`) it does not matter in
which pieces it arrives (`absorb_append`); an input of whole blocks is compressed one block after
the other (`absorb_blocks`).
-/

namespace BlockHash

open List

variable {σ β : Type*} (n : ℕ) (compress : σ → List β → σ)

/-- One more byte. -/
def push (x : σ × List β) (b : β) : σ × List β :=
  if x.2.length + 1 = n then (compress x.1 (x.2 ++ [b]), []) else (x.1, x.2 ++ [b])

def absorb (x : σ × List β) (l : List β) : σ × List β := l.foldl (push n compress) x

/-- The block of the number `i`. -/
def block (l : List β) (i : ℕ) : List β := (l.drop (n * i)).take n

/-- The blocks are compressed one after the other. -/
def fold (s : σ) (l : List β) : σ :=
  (List.range (l.length / n)).foldl (fun s i => compress s (block n l i)) s

variable {n compress} {x : σ × List β} {s : σ} {l l' : List β}

@[simp] theorem absorb_nil : absorb n compress x [] = x := rfl

theorem absorb_append :
    absorb n compress x (l ++ l') = absorb n compress (absorb n compress x l) l' :=
  foldl_append

theorem absorb_short : ∀ (l : List β) {x : σ × List β}, x.2.length + l.length < n →
    absorb n compress x l = (x.1, x.2 ++ l)
  | [], x, _ => by simp
  | b :: l, x, h => by
    rw [length_cons] at h
    have hpush : push n compress x b = (x.1, x.2 ++ [b]) := if_neg (by omega)
    have hlen : (x.1, x.2 ++ [b]).2.length + l.length < n := by simp; omega
    rw [absorb, foldl_cons, hpush]
    exact (absorb_short l hlen).trans (by simp)

theorem absorb_full (hl : l ≠ []) (h : x.2.length + l.length = n) :
    absorb n compress x l = (compress x.1 (x.2 ++ l), []) := by
  obtain ⟨l, b, rfl⟩ := eq_nil_or_concat l |>.resolve_left hl
  rw [concat_eq_append] at h ⊢
  rw [length_append, length_singleton] at h
  rw [absorb_append, absorb_short l (by omega), ← append_assoc]
  exact if_pos (by rw [length_append]; omega)

/-- What is kept is less than a block, and counts the input modulo the size of a block. -/
theorem absorb_length (l : List β) {x : σ × List β} (hx : x.2.length < n) :
    (absorb n compress x l).2.length = (x.2.length + l.length) % n := by
  induction l generalizing x with
  | nil => exact (Nat.mod_eq_of_lt hx).symm
  | cons b l ih =>
    have hpush : (push n compress x b).2.length = (x.2.length + 1) % n := by
      unfold push
      split_ifs with h
      · rw [h, Nat.mod_self]
        rfl
      · rw [Nat.mod_eq_of_lt (by omega), length_append, length_singleton]
    have hlt : (push n compress x b).2.length < n := by
      rw [hpush]
      exact Nat.mod_lt _ (by omega)
    rw [absorb, foldl_cons]
    refine (ih hlt).trans ?_
    rw [hpush, Nat.mod_add_mod, length_cons]
    congr 1
    omega

theorem block_take {i k : ℕ} (h : i < k) : block n (l.take (n * k)) i = block n l i := by
  have : n * i + n ≤ n * k := by
    rw [← Nat.mul_succ]
    exact Nat.mul_le_mul_left n h
  rw [block, block, drop_take, take_take, Nat.min_eq_left (by omega)]

theorem block_length {i : ℕ} (h : i < l.length / n) : (block n l i).length = n := by
  have hle : n * (i + 1) ≤ l.length :=
    Nat.le_trans (Nat.mul_le_mul_left n h) (Nat.mul_div_le _ _)
  rw [Nat.mul_succ] at hle
  rw [block, length_take, length_drop]
  omega

theorem fold_congr {compress'} (h : ∀ s b, b.length = n → compress s b = compress' s b) :
    fold n compress s l = fold n compress' s l :=
  foldl_ext _ _ _ fun s _ hi => h s _ (block_length (mem_range.1 hi))

/-- Whole blocks are compressed as they come, and nothing is left in the buffer. -/
theorem absorb_blocks (hn : 0 < n) {k : ℕ} : ∀ {l : List β}, l.length = n * k →
    absorb n compress (s, []) l = (fold n compress s l, []) := by
  have hfold : ∀ {l : List β} {k : ℕ}, l.length = n * k → fold n compress s l
      = (range k).foldl (fun s i => compress s (block n l i)) s := by
    intro l k h
    rw [fold, h, Nat.mul_div_cancel_left k hn]
  induction k with
  | zero =>
    intro l h
    obtain rfl : l = [] := eq_nil_of_length_eq_zero (by simpa using h)
    rw [hfold h]
    rfl
  | succ k ih =>
    intro l h
    have htake : (l.take (n * k)).length = n * k := by
      rw [length_take, h, Nat.mul_succ]
      omega
    have hdrop : (l.drop (n * k)).length = n := by
      rw [length_drop, h, Nat.mul_succ]
      omega
    have hlast : l.drop (n * k) = block n l k := by
      rw [block, take_of_length_le (by omega)]
    have hne : l.drop (n * k) ≠ [] := fun hnil => by
      rw [hnil] at hdrop
      exact absurd hdrop (by simp; omega)
    -- all blocks but the last, and then the last
    calc absorb n compress (s, []) l
        = absorb n compress (s, []) (l.take (n * k) ++ l.drop (n * k)) := by
          rw [take_append_drop]
      _ = absorb n compress (fold n compress s (l.take (n * k)), []) (l.drop (n * k)) := by
          rw [absorb_append, ih htake]
      _ = (compress (fold n compress s (l.take (n * k))) (block n l k), []) := by
          rw [absorb_full hne (by simpa using hdrop), hlast]
          rfl
      _ = (fold n compress s l, []) := by
          rw [hfold h, hfold htake, range_succ, foldl_append]
          congr 2
          exact foldl_ext _ _ _ fun s' i hi => by rw [block_take (mem_range.1 hi)]

end BlockHash
