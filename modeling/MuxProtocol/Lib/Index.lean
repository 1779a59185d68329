import Mathlib.Algebra.BigOperators.Group.Finset.Basic
import Mathlib.Logic.Function.Basic
import Mathlib.Tactic.Common

/-!
# Records found by key

Records in a heap, each found through its keys in a map. `Indexed` says that the map leads from
every key of a record to the record, and nowhere else; `total` adds up a number over the records.
-/

namespace Index

open List Option Function

variable {ι κ ρ : Type*}

structure Indexed (key : ι → ρ → κ) (heap : ℕ → Option ρ) (map : κ → Option ℕ) : Prop where
  reach : ∀ p r, heap p = some r → ∀ i, map (key i r) = some p
  owned : ∀ k p, map k = some p → ∃ r, heap p = some r ∧ ∃ i, key i r = k

namespace Indexed

variable {key : ι → ρ → κ} {heap : ℕ → Option ρ} {map map' : κ → Option ℕ} {p p' : ℕ} {r r' : ρ}

theorem unique (h : Indexed key heap map) (hr : heap p = some r) (hr' : heap p' = some r')
    {i j : ι} (hk : key i r = key j r') : p = p' := by
  have h1 := h.reach p r hr i
  rw [hk, h.reach p' r' hr' j] at h1
  exact (some.inj h1).symm

theorem insert (h : Indexed key heap map) (hp : heap p = none) (hfresh : ∀ i, map (key i r) = none)
    (hnew : ∀ i, map' (key i r) = some p) (hold : ∀ k, (∀ i, key i r ≠ k) → map' k = map k) :
    Indexed key (update heap p (some r)) map' := by
  refine ⟨fun q s hq i => ?_, fun k q hk => ?_⟩
  · by_cases hqp : q = p
    · subst hqp
      rw [update_self, some_inj] at hq
      exact hq ▸ hnew i
    · rw [update_of_ne hqp] at hq
      have := h.reach q s hq i
      rw [hold _ fun j hj => ?_]
      · exact this
      · rw [← hj, hfresh] at this
        cases this
  · by_cases hkey : ∃ i, key i r = k
    · obtain ⟨i, rfl⟩ := hkey
      rw [hnew i, some_inj] at hk
      subst hk
      exact ⟨r, update_self .., i, rfl⟩
    · rw [hold k fun i hi => hkey ⟨i, hi⟩] at hk
      obtain ⟨s, hs, hi⟩ := h.owned k q hk
      have hqp : q ≠ p := fun e => by simp [e, hp] at hs
      exact ⟨s, by rw [update_of_ne hqp, hs], hi⟩

theorem set (h : Indexed key heap map) (hr : heap p = some r) (hk : ∀ i, key i r' = key i r) :
    Indexed key (update heap p (some r')) map := by
  refine ⟨fun q s hq i => ?_, fun k q hk' => ?_⟩
  · by_cases hqp : q = p
    · subst hqp
      rw [update_self, some_inj] at hq
      rw [← hq, hk]
      exact h.reach q r hr i
    · rw [update_of_ne hqp] at hq
      exact h.reach q s hq i
  · obtain ⟨s, hs, i, hi⟩ := h.owned k q hk'
    by_cases hqp : q = p
    · subst hqp
      rw [hr, some_inj] at hs
      subst hs
      exact ⟨r', update_self .., i, (hk i).trans hi⟩
    · exact ⟨s, by rw [update_of_ne hqp, hs], i, hi⟩

theorem erase (h : Indexed key heap map) (hr : heap p = some r)
    (hgone : ∀ i, map' (key i r) = none) (hold : ∀ k, (∀ i, key i r ≠ k) → map' k = map k) :
    Indexed key (update heap p none) map' := by
  refine ⟨fun q s hq i => ?_, fun k q hk => ?_⟩
  · by_cases hqp : q = p
    · subst hqp
      simp at hq
    · rw [update_of_ne hqp] at hq
      rw [hold _ fun j hj => hqp (h.unique hq hr hj.symm)]
      exact h.reach q s hq i
  · by_cases hkey : ∃ i, key i r = k
    · obtain ⟨i, rfl⟩ := hkey
      rw [hgone i] at hk
      cases hk
    · rw [hold k fun i hi => hkey ⟨i, hi⟩] at hk
      obtain ⟨s, hs, i, hi⟩ := h.owned k q hk
      have hqp : q ≠ p := fun e => by
        rw [e, hr, some_inj] at hs
        exact hkey ⟨i, hs ▸ hi⟩
      exact ⟨s, by rw [update_of_ne hqp, hs], i, hi⟩

end Indexed

/-! ### Maps as lists

The entries of a map in the order in which they were made; a key that is erased loses its oldest
entry. -/

section Entries

variable [BEq κ] [LawfulBEq κ] {l : List (κ × ℕ)} {k k' : κ} {p : ℕ}

theorem lookup_concat_self (h : l.lookup k = none) : (l ++ [(k, p)]).lookup k = some p := by
  rw [lookup_append, h, lookup_cons_self]
  rfl

theorem lookup_concat_of_ne (h : k' ≠ k) : (l ++ [(k, p)]).lookup k' = l.lookup k' := by
  have hne : (k' == k) = false := beq_false_of_ne h
  rw [lookup_append, lookup_cons, hne]
  simp

theorem nodup_keys_concat (hl : (l.map Prod.fst).Nodup) (h : l.lookup k = none) :
    ((l ++ [(k, p)]).map Prod.fst).Nodup := by
  rw [map_append, map_cons, map_nil, nodup_append]
  refine ⟨hl, nodup_singleton _, fun x hx y hy => ?_⟩
  obtain ⟨e, he, rfl⟩ := mem_map.1 hx
  rw [mem_singleton.1 hy]
  have := lookup_eq_none_iff.1 h e he
  exact fun heq => by simp [heq] at this

variable [DecidableEq κ]

theorem lookup_eraseP_of_ne (h : k' ≠ k) : (l.eraseP (·.1 = k)).lookup k' = l.lookup k' := by
  induction l with
  | nil => rfl
  | cons e l ih =>
    by_cases he : e.1 = k
    · have hne : (k' == e.1) = false := beq_false_of_ne (he ▸ h)
      rw [eraseP_cons_of_pos (by simp [he]), lookup_cons, hne]
    · rw [eraseP_cons_of_neg (by simp [he]), lookup_cons, lookup_cons, ih]

theorem lookup_eraseP_self (hl : (l.map Prod.fst).Nodup) :
    (l.eraseP (·.1 = k)).lookup k = none := by
  induction l with
  | nil => rfl
  | cons e l ih =>
    rw [map_cons, nodup_cons] at hl
    by_cases he : e.1 = k
    · rw [eraseP_cons_of_pos (by simp [he]), lookup_eq_none_iff]
      intro e' he'
      have hne : k ≠ e'.1 := fun heq => hl.1 (he ▸ heq ▸ mem_map_of_mem he')
      simpa using hne
    · have hne : (k == e.1) = false := beq_false_of_ne (Ne.symm he)
      rw [eraseP_cons_of_neg (by simp [he]), lookup_cons, hne]
      exact ih hl.2

omit [BEq κ] [LawfulBEq κ] in
theorem nodup_keys_eraseP (hl : (l.map Prod.fst).Nodup) :
    ((l.eraseP (·.1 = k)).map Prod.fst).Nodup :=
  hl.sublist (eraseP_sublist.map _)

end Entries

/-! ### Sums over the records -/

section Total

variable (f : ρ → ℕ) {heap : ℕ → Option ρ} {n p : ℕ}

/-- The sum over the records at the addresses below `n`. -/
def total (heap : ℕ → Option ρ) (n : ℕ) : ℕ := ∑ p ∈ Finset.range n, ((heap p).map f).getD 0

theorem total_succ (heap) (n : ℕ) :
    total f heap (n + 1) = total f heap n + ((heap n).map f).getD 0 :=
  Finset.sum_range_succ _ _

theorem total_update_of_le (hp : n ≤ p) (v) :
    total f (update heap p v) n = total f heap n := by
  refine Finset.sum_congr rfl fun q hq => ?_
  have hq := Finset.mem_range.1 hq
  rw [update_of_ne (by omega)]

theorem total_of_le {m : ℕ} (hm : n ≤ m) (hfree : ∀ p, n ≤ p → heap p = none) :
    total f heap m = total f heap n := by
  induction m, hm using Nat.le_induction with
  | base => rfl
  | succ m hm ih => rw [total_succ, ih, hfree m hm, map_none, getD_none, Nat.add_zero]

theorem total_update (heap) (hp : p < n) (v : Option ρ) :
    total f (update heap p v) n + ((heap p).map f).getD 0
      = total f heap n + (v.map f).getD 0 := by
  induction n with
  | zero => omega
  | succ n ih =>
    rw [total_succ, total_succ]
    by_cases hpn : p = n
    · subst hpn
      rw [total_update_of_le f (Nat.le_refl p), update_self]
      omega
    · rw [update_of_ne (Ne.symm hpn)]
      have := ih (by omega)
      omega

end Total

end Index
