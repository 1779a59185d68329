import Mathlib.Algebra.BigOperators.Fin
import MuxProtocol.Lib.RoundRobin
import MuxProtocol.Proofs.Router

/-!
# Balancing over the workers

`pick_worker` is a smooth weighted round robin over the workers that are ready and have a weight.
-/

namespace MuxProtocol

open List EpConn

namespace Router

variable {ne nw : ℕ} {e e' : Router ne nw}

/-- The weight with which a worker takes part: 0 if it is not ready. -/
def share (e : Router ne nw) (j : Fin nw) : ℕ :=
  if (e.conn (.worker j)).ready then (e.conn (.worker j)).weight.toNat else 0

def credit (e : Router ne nw) (j : Fin nw) : ℤ := (e.conn (.worker j)).swrrCw

/-- A worker that can be picked. -/
def Eligible (e : Router ne nw) (j : Fin nw) : Prop :=
  (e.conn (.worker j)).ready = true ∧ (e.conn (.worker j)).weight ≠ 0

instance Eligible.decidable (e : Router ne nw) (j : Fin nw) : Decidable (e.Eligible j) :=
  inferInstanceAs (Decidable (_ ∧ _))

theorem share_pos {j} : 0 < e.share j ↔ e.Eligible j := by
  unfold share Eligible
  rcases (e.conn (.worker j)).ready <;> simp [Nat.pos_iff_ne_zero, ← UInt32.toNat_inj]

theorem share_congr {j} (h1 : (e'.conn (.worker j)).ready = (e.conn (.worker j)).ready)
    (h2 : (e'.conn (.worker j)).weight = (e.conn (.worker j)).weight) : e'.share j = e.share j := by
  rw [share, share, h1, h2]

/-- The loop of `pick_worker` has gone over the workers `js`. -/
structure Scanned (e : Router ne nw) (js : List (Fin nw))
    (acc : Router ne nw × ℤ × Option (Fin nw × ℤ)) : Prop where
  share : ∀ j, acc.1.share j = e.share j
  ready : ∀ j, (acc.1.conn (.worker j)).ready = (e.conn (.worker j)).ready
  weight : ∀ j, (acc.1.conn (.worker j)).weight = (e.conn (.worker j)).weight
  credit : ∀ j, acc.1.credit j = e.credit j + if j ∈ js then e.share j else 0
  total : acc.2.1 = ((js.map e.share).sum : ℕ)
  none : acc.2.2 = none → ∀ j ∈ js, e.share j = 0
  best : ∀ b cw, acc.2.2 = some (b, cw) → b ∈ js ∧ 0 < e.share b ∧ cw = e.credit b + e.share b
    ∧ ∀ j ∈ js, 0 < e.share j → e.credit j + e.share j ≤ cw

/-- A round of the loop: the worker gains its weight, and may be the best so far. -/
theorem Scanned.step {js acc} (h : Scanned e js acc) {j} (hj : j ∉ js) :
    Scanned e (js ++ [j]) (pickStep acc j) := by
  obtain ⟨e₁, total, best⟩ := acc
  unfold pickStep
  dsimp only
  by_cases hskip : (e₁.conn (.worker j)).ready = false ∨ (e₁.conn (.worker j)).weight = 0
  · have hzero : e.share j = 0 := by
      rw [← Nat.le_zero, ← Nat.not_lt, share_pos, Eligible, ← h.ready, ← h.weight]
      rcases hskip with hr | hr <;> simp [hr]
    rw [if_pos hskip]
    refine ⟨h.share, h.ready, h.weight, fun k => ?_, ?_, fun hn k hk => ?_, fun b cw hb => ?_⟩
    · rw [h.credit]
      by_cases hkj : k = j
      · simp [hkj, hj, hzero]
      · simp [hkj]
    · rw [List.map_append, List.sum_append, List.map_singleton, List.sum_singleton, hzero, add_zero]
      exact h.total
    · rcases List.mem_append.1 hk with hk | hk
      · exact h.none hn k hk
      · rw [List.mem_singleton.1 hk, hzero]
    · obtain ⟨h1, h2, h3, h4⟩ := h.best b cw hb
      refine ⟨List.mem_append_left _ h1, h2, h3, fun k hk hpos => ?_⟩
      rcases List.mem_append.1 hk with hk | hk
      · exact h4 k hk hpos
      · rw [List.mem_singleton.1 hk, hzero] at hpos
        cases hpos
  · have helig : e.Eligible j := by
      rw [not_or, Bool.not_eq_false, h.ready, h.weight] at hskip
      exact hskip
    have hpos := share_pos.2 helig
    have hshare : e.share j = (e₁.conn (.worker j)).weight.toNat := by
      rw [h.weight, Router.share, if_pos helig.1]
    have hcredit : (e₁.conn (.worker j)).swrrCw = e.credit j := by
      have := h.credit j
      rw [if_neg hj, Nat.cast_zero, add_zero] at this
      exact this
    rw [if_neg hskip, ← hshare, hcredit]
    clear hshare hcredit
    have hfield : ∀ {α : Type} (φ : EpConn → α), (∀ c n, φ { c with swrrCw := n } = φ c) → ∀ k,
        φ ((e₁.modify (.worker j) fun w =>
          { w with swrrCw := e.credit j + e.share j }).conn (.worker k))
            = φ (e₁.conn (.worker k)) :=
      fun φ hφ k => modify_field _ _ _ φ (hφ _ _)
    refine ⟨fun k => ?_, fun k => ?_, fun k => ?_, fun k => ?_, ?_, fun hn => ?_, fun b cw hb => ?_⟩
    · exact (share_congr (hfield EpConn.ready (fun _ _ => rfl) k)
        (hfield EpConn.weight (fun _ _ => rfl) k)).trans (h.share k)
    · rw [hfield EpConn.ready fun _ _ => rfl, h.ready]
    · rw [hfield EpConn.weight fun _ _ => rfl, h.weight]
    · by_cases hkj : k = j
      · subst hkj
        simp [Router.credit]
      · have := h.credit k
        simp only [Router.credit] at this ⊢
        rw [modify_of_ne _ _ _ (by simpa using hkj), this]
        simp [hkj]
    · rw [List.map_append, List.sum_append, List.map_singleton, List.sum_singleton, Nat.cast_add,
        ← h.total]
    · dsimp only at hn
      split at hn
      · cases hn
      · split at hn <;> cases hn
    · dsimp only at hb
      have hlast : ∀ {cw : ℤ}, (∀ k ∈ js, 0 < e.share k → e.credit k + e.share k ≤ cw) →
          e.credit j + e.share j ≤ cw →
          ∀ k ∈ js ++ [j], 0 < e.share k → e.credit k + e.share k ≤ cw := by
        intro cw h1 h2 k hk hk'
        rcases List.mem_append.1 hk with hk | hk
        · exact h1 k hk hk'
        · rw [List.mem_singleton.1 hk]
          exact h2
      split at hb
      · cases hb
        refine ⟨by simp, hpos, rfl, hlast (fun k hk hk' => ?_) (Int.le_refl _)⟩
        rw [h.none rfl k hk] at hk'
        cases hk'
      · obtain ⟨h1, h2, h3, h4⟩ := h.best _ _ rfl
        split at hb
        · rename_i hgt
          cases hb
          refine ⟨by simp, hpos, rfl, hlast (fun k hk hk' => ?_) (Int.le_refl _)⟩
          exact (h4 k hk hk').trans hgt.le
        · rename_i hle
          cases hb
          exact ⟨List.mem_append_left _ h1, h2, h3, hlast h4 (Int.not_lt.1 hle)⟩

theorem scanned_foldl (e) : ∀ (js done : List (Fin nw))
    {acc : Router ne nw × ℤ × Option (Fin nw × ℤ)}, Scanned e done acc → (done ++ js).Nodup →
    Scanned e (done ++ js) (js.foldl pickStep acc)
  | [], done, acc, h, _ => by simpa using h
  | j :: js, done, acc, h, hn => by
    have hj : j ∉ done := fun hd => (nodup_append'.1 hn).2.2 hd mem_cons_self
    have := scanned_foldl e js (done ++ [j]) (h.step hj) (by simpa using hn)
    simpa using this

/-- A call of `pick_worker` is a pick of the round robin, unless no worker can be picked. -/
theorem pickWorker_pick (e : Router ne nw) :
    (e.pickWorker.1.share = e.share)
      ∧ ((e.pickWorker.2 = none ∧ (∀ j, e.share j = 0) ∧ e.pickWorker.1.credit = e.credit)
        ∨ ∃ i, e.pickWorker.2 = some i
          ∧ RoundRobin.Pick e.share e.credit i e.pickWorker.1.credit) := by
  have h₀ : Scanned e [] (e, 0, none) :=
    ⟨fun _ => rfl, fun _ => rfl, fun _ => rfl, by simp, rfl, by simp, by simp⟩
  have h := scanned_foldl e (finRange nw) [] h₀ (nodup_finRange nw)
  rw [nil_append] at h
  unfold pickWorker
  generalize (finRange nw).foldl pickStep (e, 0, none) = acc at h
  obtain ⟨e₁, total, _ | ⟨i, cw⟩⟩ := acc
  · have hzero : ∀ j, e.share j = 0 := fun j => h.none rfl j (mem_finRange j)
    refine ⟨funext h.share, .inl ⟨rfl, hzero, funext fun j => ?_⟩⟩
    have := h.credit j
    rwa [hzero, ite_self, Nat.cast_zero, add_zero] at this
  · obtain ⟨-, hpos, -, hmost⟩ := h.best i cw rfl
    have hcw : cw = e.credit i + e.share i := (h.best i cw rfl).2.2.1
    dsimp only at h hmost ⊢
    refine ⟨funext fun j => ?_, .inr ⟨i, rfl, hpos, fun j hj => ?_, fun j => ?_⟩⟩
    · refine Eq.trans (share_congr ?_ ?_) (h.share j)
      · exact modify_field _ _ _ ready rfl
      · exact modify_field _ _ _ weight rfl
    · rw [← hcw]
      exact hmost j (mem_finRange j) hj
    · have hj := h.credit j
      rw [if_pos (mem_finRange j)] at hj
      have htotal : total = ∑ k, (e.share k : ℤ) := by
        rw [show total = _ from h.total, ← Nat.cast_sum, Fin.sum_univ_def]
      unfold credit at hj ⊢
      by_cases hji : j = i
      · subst hji
        rw [modify_self, if_pos rfl, ← htotal]
        dsimp only at hj ⊢
        rw [hj]
      · rw [modify_of_ne _ _ _ (by simpa using hji), if_neg hji, sub_zero]
        exact hj

/-- The picks made since the state `e`, in order. Between them the router does what it does, as long
as who is ready, with which weight and credit, stays. -/
inductive Picks (e : Router ne nw) : List (Option (Fin nw)) → Router ne nw → Prop
  | start : Picks e [] e
  | pick {l : List (Option (Fin nw))} {e₁ : Router ne nw} : Picks e l e₁ →
      Picks e (l ++ [e₁.pickWorker.2]) e₁.pickWorker.1
  | other {l : List (Option (Fin nw))} {e₁ e₂ : Router ne nw} : Picks e l e₁ →
      (∀ j, (e₂.conn (.worker j)).ready = (e₁.conn (.worker j)).ready) →
      (∀ j, (e₂.conn (.worker j)).weight = (e₁.conn (.worker j)).weight) →
      (∀ j, (e₂.conn (.worker j)).swrrCw = (e₁.conn (.worker j)).swrrCw) → Picks e l e₂

/-- The picks are a run of the smooth round robin, unless nobody can be picked. -/
theorem Picks.run {l} (h : Picks e l e') (h₀ : ∀ j, e.credit j = 0) :
    e'.share = e.share ∧ ((∀ j, e.share j = 0) ∧ (∀ x ∈ l, x = none) ∧ (∀ j, e'.credit j = 0)
      ∨ ∃ l', l = l'.map some ∧ RoundRobin.Run e.share l' e'.credit) := by
  induction h with
  | start =>
    refine ⟨rfl, .inr ⟨[], rfl, ?_⟩⟩
    rw [show e.credit = fun _ => 0 from funext h₀]
    exact .start
  | @pick l e₁ _ ih =>
    obtain ⟨hshare, hpick⟩ := pickWorker_pick e₁
    rw [ih.1] at hpick
    refine ⟨hshare.trans ih.1, ?_⟩
    rcases ih.2 with ⟨hzero, hnone, hcredit⟩ | ⟨l', rfl, hrun⟩
    · rcases hpick with ⟨hn, -, hc⟩ | ⟨i, -, hp⟩
      · refine .inl ⟨hzero, fun x hx => ?_, fun j => by rw [hc, hcredit]⟩
        rcases mem_append.1 hx with hx | hx
        · exact hnone x hx
        · rw [mem_singleton.1 hx, hn]
      · have := hp.pos
        rw [hzero] at this
        cases this
    · rcases hpick with ⟨hn, hzero, hc⟩ | ⟨i, hi, hp⟩
      · -- no worker could be picked, now or before
        have hnil : l' = [] := eq_nil_iff_forall_not_mem.2 fun j hj =>
          count_eq_zero.1 (hrun.idle (hzero j)).2 hj
        subst hnil
        refine .inl ⟨hzero, by simp [hn], fun j => ?_⟩
        rw [hc]
        exact (hrun.idle (hzero j)).1
      · exact .inr ⟨l' ++ [i], by simp [hi], hrun.pick hp⟩
  | @other l e₁ e₂ _ h1 h2 h3 ih =>
    have hshare : e₂.share = e₁.share := funext fun j => share_congr (h1 j) (h2 j)
    have hcredit : e₂.credit = e₁.credit := funext h3
    rw [hshare, hcredit]
    exact ih

/-- The balancing is fair to the weights, over any workers, weights and number of picks. With `W`
the sum of the weights: no worker is picked more often than its share of the picks, rounded up;
after every `W` picks each worker was picked exactly as its weight says, and every credit is 0
again; and the credits of the workers that can be picked always add up to 0, each above `-W`. -/
theorem weighted_fairness {l : List (Option (Fin nw))}
    (h₀ : ∀ j, (e.conn (.worker j)).swrrCw = 0) (h : Picks e l e') :
    (∀ j, e.Eligible j → l.count (some j) ≤
        (l.length * (e.conn (.worker j)).weight.toNat)
          ⌈/⌉ (∑ k with e.Eligible k, (e.conn (.worker k)).weight.toNat))
      ∧ ((∑ k with e.Eligible k, (e.conn (.worker k)).weight.toNat) ∣ l.length →
        (∀ j, e.Eligible j → l.count (some j)
            = l.length / (∑ k with e.Eligible k, (e.conn (.worker k)).weight.toNat)
              * (e.conn (.worker j)).weight.toNat)
          ∧ ∀ j, (e'.conn (.worker j)).swrrCw = 0)
      ∧ ∑ k with e.Eligible k, (e'.conn (.worker k)).swrrCw = 0
      ∧ ∀ j, e.Eligible j → -(∑ k with e.Eligible k, (e.conn (.worker k)).weight.toNat : ℤ)
          < (e'.conn (.worker j)).swrrCw := by
  have hw : ∀ {j}, e.Eligible j → e.share j = (e.conn (.worker j)).weight.toNat := fun hj => by
    rw [share, if_pos hj.1]
  have hsum : ∑ k, e.share k = ∑ k with e.Eligible k, (e.conn (.worker k)).weight.toNat := by
    rw [Finset.sum_filter]
    refine Finset.sum_congr rfl fun k _ => ?_
    split
    · exact hw ‹_›
    · exact Nat.eq_zero_of_not_pos fun hk => absurd (share_pos.1 hk) ‹_›
  rw [← hsum]
  obtain ⟨hshare, ⟨hzero, -, hcredit⟩ | ⟨l', rfl, hrun⟩⟩ := h.run h₀
  · have hno : ∀ j, ¬ e.Eligible j := fun j hj => by
      have := share_pos.2 hj
      rw [hzero] at this
      cases this
    exact ⟨fun j hj => absurd hj (hno j), fun _ => ⟨fun j hj => absurd hj (hno j), hcredit⟩,
      Finset.sum_eq_zero fun k _ => hcredit k, fun j hj => absurd hj (hno j)⟩
  · have hcount : ∀ j, (l'.map some).count (some j) = l'.count j := fun j =>
      List.count_map_of_injective l' some (Option.some_injective _) j
    simp only [hcount, List.length_map]
    refine ⟨fun j hj => ?_, fun hd => ⟨fun j hj => ?_, fun j => (hrun.period hd j).2⟩, ?_,
      fun j hj => ?_⟩
    · rw [← hw hj]
      exact hrun.count_le (share_pos.2 hj)
    · rw [← hw hj]
      exact (hrun.period hd j).1
    · rw [Finset.sum_filter]
      refine (Finset.sum_congr rfl fun k _ => ?_).trans hrun.sum_credit
      split
      · rfl
      · rename_i hk
        exact ((hrun.idle (Nat.eq_zero_of_not_pos fun h => hk (share_pos.1 h))).1).symm
    · have := hrun.credit_gt (share_pos.2 hj)
      have hcast : (∑ k, (e.share k : ℤ))
          = ∑ k with e.Eligible k, ((e.conn (.worker k)).weight.toNat : ℤ) := by
        exact_mod_cast congrArg (Nat.cast (R := ℤ)) hsum
      rwa [hcast] at this

/-- Two workers, of weights 1 and 3. -/
def oneToThree : Router 0 2 :=
  { start 0 2 {} with
    conn := fun
      | .edge _ => {}
      | .worker j => { ready := true, weight := if j = 0 then 1 else 3 } }

/-- In four picks the second worker is picked three times. -/
theorem weighted_fairness_oneToThree :
    ∃ l e', Picks oneToThree l e' ∧ l.length = 4 ∧ l.count (some 1) = 3
      ∧ ∀ j, (e'.conn (.worker j)).swrrCw = 0 := by
  have h : Picks oneToThree _ _ := Picks.start.pick.pick.pick.pick
  have hsum : ∑ k with oneToThree.Eligible k, (oneToThree.conn (.worker k)).weight.toNat = 4 := by
    decide
  obtain ⟨-, hperiod, -⟩ := weighted_fairness (by decide) h
  rw [hsum] at hperiod
  obtain ⟨hcount, hcw⟩ := hperiod (by simp)
  exact ⟨_, _, h, by simp, (hcount 1 (by decide)).trans (by simp [oneToThree]), hcw⟩

end Router

end MuxProtocol
