import Mathlib.Algebra.BigOperators.Ring.Finset
import Mathlib.Algebra.Order.BigOperators.Group.Finset
import Mathlib.Algebra.Order.Floor.Div
import Mathlib.Tactic.Ring

/-!
# Smooth weighted round robin

Each candidate has a credit, which grows by its weight before every pick; the pick is one with the
most credit, and pays the sum of all weights. A candidate of weight 0 takes no part.
-/

namespace RoundRobin

variable {ι : Type*} [Fintype ι] [DecidableEq ι] {w : ι → ℕ} {cw cw' : ι → ℤ} {i : ι}

/-- The pick of `i`, and the credits after it. -/
structure Pick (w : ι → ℕ) (cw : ι → ℤ) (i : ι) (cw' : ι → ℤ) : Prop where
  pos : 0 < w i
  most : ∀ j, 0 < w j → cw j + w j ≤ cw i + w i
  next : ∀ j, cw' j = cw j + w j - if j = i then ∑ k, (w k : ℤ) else 0

/-- The credit of a pick is positive before it pays: the credits add up to the sum of the weights.
-/
theorem Pick.credit_pos (hp : Pick w cw i cw') (hsum : ∑ j, cw j = 0)
    (hidle : ∀ j, w j = 0 → cw j = 0) : 0 < cw i + w i := by
  by_contra hle
  have hall : ∀ j ∈ Finset.univ, cw j + w j ≤ 0 := fun j _ => by
    rcases Nat.eq_zero_or_pos (w j) with hj | hj
    · simp [hj, hidle j hj]
    · have := hp.most j hj
      omega
  have h1 := Finset.sum_nonpos hall
  have h2 : (w i : ℤ) ≤ ∑ k, (w k : ℤ) :=
    Finset.single_le_sum (fun j _ => Int.natCast_nonneg (w j)) (Finset.mem_univ i)
  rw [Finset.sum_add_distrib, hsum] at h1
  have := hp.pos
  omega

/-- The credits after some picks, from none. -/
inductive Run (w : ι → ℕ) : List ι → (ι → ℤ) → Prop
  | start : Run w [] fun _ => 0
  | pick {l : List ι} {cw cw' : ι → ℤ} {i : ι} : Run w l cw → Pick w cw i cw' →
      Run w (l ++ [i]) cw'

namespace Run

variable {l : List ι}

/-- The credit after a run: the share of the rounds, less what was paid for the picks. -/
theorem credit_eq (h : Run w l cw) (j : ι) :
    cw j = l.length * w j - (∑ k, (w k : ℤ)) * l.count j := by
  induction h with
  | start => simp
  | @pick l cw cw' i _ hp ih =>
    rw [hp.next, ih, List.length_append, List.count_append, List.length_singleton]
    by_cases hj : j = i
    · subst hj
      rw [if_pos rfl, List.count_singleton_self]
      push_cast
      ring
    · rw [if_neg hj, List.count_singleton, if_neg (by simpa using Ne.symm hj)]
      push_cast
      ring

theorem sum_credit (h : Run w l cw) : ∑ j, cw j = 0 := by
  induction h with
  | start => simp
  | pick _ hp ih =>
    simp only [hp.next, Finset.sum_sub_distrib, Finset.sum_add_distrib, ih]
    simp

theorem idle (h : Run w l cw) {j : ι} (hj : w j = 0) : cw j = 0 ∧ l.count j = 0 := by
  have hc : l.count j = 0 := by
    induction h with
    | start => rfl
    | @pick l cw cw' i _ hp ih =>
      rw [List.count_append, ih, List.count_singleton, if_neg]
      rintro h
      rw [beq_iff_eq] at h
      have := hp.pos
      rw [h] at this
      omega
  rw [h.credit_eq, hj, hc]
  simp

/-- Nobody with a weight owes a whole round. -/
theorem credit_gt (h : Run w l cw) {j : ι} (hj : 0 < w j) : -∑ k, (w k : ℤ) < cw j := by
  have hle : (w j : ℤ) ≤ ∑ k, (w k : ℤ) :=
    Finset.single_le_sum (fun j _ => Int.natCast_nonneg (w j)) (Finset.mem_univ j)
  induction h with
  | start =>
    dsimp only
    omega
  | @pick l cw cw' i hr hp ih =>
    rw [hp.next]
    by_cases hji : j = i
    · subst hji
      have := hp.credit_pos hr.sum_credit fun k hk => (hr.idle hk).1
      rw [if_pos rfl]
      omega
    · rw [if_neg hji]
      omega

theorem count_le (h : Run w l cw) {j : ι} (hj : 0 < w j) :
    l.count j ≤ (l.length * w j) ⌈/⌉ (∑ k, w k) := by
  have hgt := h.credit_gt hj
  rw [h.credit_eq] at hgt
  have hle : w j ≤ ∑ k, w k :=
    Finset.single_le_sum (fun k _ => Nat.zero_le (w k)) (Finset.mem_univ j)
  rw [← Nat.cast_sum] at hgt
  generalize (∑ k, w k) = W at *
  have hW : 0 < W := by omega
  rw [Nat.ceilDiv_eq_add_pred_div, Nat.le_div_iff_mul_le hW]
  have : (l.count j * W : ℤ) < l.length * w j + W := by
    rw [mul_comm]
    omega
  have : l.count j * W < l.length * w j + W := by exact_mod_cast this
  omega

/-- After whole periods every credit is back at 0, and every candidate has had its share. -/
theorem period (h : Run w l cw) (hd : (∑ k, w k) ∣ l.length) (j : ι) :
    l.count j = l.length / (∑ k, w k) * w j ∧ cw j = 0 := by
  obtain ⟨m, hm⟩ := hd
  have hcredit : ∀ j, cw j = (∑ k, w k : ℕ) * (m * w j - l.count j) := fun j => by
    rw [h.credit_eq, hm, Nat.cast_sum]
    push_cast
    ring
  have hzero : ∀ j, cw j = 0 := by
    -- each credit is a multiple of the period above its negative, and they add up to 0
    have hnonneg : ∀ j ∈ Finset.univ, 0 ≤ cw j := fun j _ => by
      rcases Nat.eq_zero_or_pos (w j) with hj | hj
      · rw [(h.idle hj).1]
      · have hgt := h.credit_gt hj
        rw [hcredit, ← Nat.cast_sum] at hgt
        rw [hcredit]
        refine Int.mul_nonneg (Int.natCast_nonneg _) ?_
        by_contra hneg
        have : (m * w j - l.count j : ℤ) ≤ -1 := by omega
        have := Int.mul_le_mul_of_nonneg_left this (Int.natCast_nonneg (∑ k, w k))
        omega
    exact fun j => (Finset.sum_eq_zero_iff_of_nonneg hnonneg).1 h.sum_credit j (Finset.mem_univ j)
  refine ⟨?_, hzero j⟩
  rcases Nat.eq_zero_or_pos (w j) with hj | hj
  · rw [(h.idle hj).2, hj, mul_zero]
  have hW : 0 < ∑ k, w k := Nat.lt_of_lt_of_le hj
    (Finset.single_le_sum (fun k _ => Nat.zero_le (w k)) (Finset.mem_univ j))
  have hj0 := hzero j
  rw [hcredit, mul_eq_zero] at hj0
  have hj0 := hj0.resolve_left (by exact_mod_cast hW.ne')
  rw [hm, Nat.mul_div_cancel_left m hW]
  have : (l.count j : ℤ) = m * w j := by omega
  exact_mod_cast this

end Run

end RoundRobin
