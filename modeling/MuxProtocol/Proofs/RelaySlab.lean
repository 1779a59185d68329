import MuxProtocol.Lib.Run
import MuxProtocol.Proofs.Store
import MuxProtocol.RelaySlab

/-!
# The slab and its table

Records that were never used are handed out in order, and only when none is left that was released.
So the number of a record is at most that of the records ever used, and a table that grows by this
number has room for all of them: it never fills up, and its loops end.
-/

namespace MuxProtocol

open LinearProbe ProbeCells Machine List Option Function

namespace Slab

variable {x : Slab} {rel : List ℕ} {high count idx : ℕ} {sid : UInt32}

/-- The free list: first the records released, each below `high`, then those never used. -/
structure Stacked (x : Slab) (rel : List ℕ) (high : ℕ) : Prop where
  free : x.freelist = rel ++ range' high (x.connsCap - high)
  le : high ≤ x.connsCap
  nodup : rel.Nodup
  lt : ∀ i ∈ rel, i < high
  used : ∀ i, (x.conns i).used = true ↔ i < high ∧ i ∉ rel

/-- The table of `count` records, with room for as many as were ever used. -/
def Roomy (x : Slab) (high count : ℕ) : Prop :=
  (x.sidmapCap = 0 ∧ high = 0 ∧ count = 0)
    ∨ (Probed sidMix x.key x.sidmap x.sidmapCap count ∧ high * 4 < x.sidmapCap * 3)

structure Kept (x : Slab) (rel : List ℕ) (high count : ℕ) : Prop where
  stacked : x.Stacked rel high
  size : count + rel.length = high
  roomy : x.Roomy high count
  entry : ∀ v, Entry x.sidmap x.sidmapCap v ↔ (x.conns v).used = true
  sids : ∀ i j, (x.conns i).used = true → (x.conns j).used = true →
    (x.conns i).sid = (x.conns j).sid → i = j

/-! ### Records taken and released -/

theorem pushFree_eq (lo n : ℕ) (l) : pushFree lo n l = range' lo n ++ l := by
  induction n generalizing l with
  | zero => rfl
  | succ n ih => rw [pushFree, ih, range'_1_concat, append_assoc, singleton_append]

theorem Stacked.growSlab (h : x.Stacked rel high) (hf : x.freelist = []) :
    x.growSlab.Stacked [] high ∧ rel = [] ∧ x.growSlab.freelist ≠ [] := by
  have hnil := h.free.symm.trans hf
  obtain ⟨hrel, hrange⟩ := append_eq_nil_iff.1 hnil
  have hle := h.le
  have hhigh : x.connsCap = high := by
    have := range'_eq_nil_iff.1 hrange
    omega
  have hgrow : x.growSlab.connsCap = if x.connsCap = 0 then 64 else x.connsCap * 2 := rfl
  have hlt : high < x.growSlab.connsCap := by
    rw [hgrow]
    split <;> omega
  have hfree : x.growSlab.freelist = range' high (x.growSlab.connsCap - high) := by
    rw [← hhigh, Slab.growSlab, pushFree_eq, hf, append_nil]
  refine ⟨⟨hfree, hlt.le, .nil, by simp, fun i => ?_⟩, hrel, ?_⟩
  · by_cases hi : x.connsCap ≤ i ∧ i < x.growSlab.connsCap
    · have hnew : x.growSlab.conns i = { used := false, sid := 0 } := if_pos hi
      rw [hnew]
      simp
      omega
    · have hold : x.growSlab.conns i = x.conns i := if_neg hi
      rw [hold, h.used, hrel]
  · rw [hfree, Ne, range'_eq_nil_iff]
    omega

/-- A released record is taken first, and then the next one that was never used. -/
structure Taken (x x' : Slab) (rel rel' : List ℕ) (high high' idx : ℕ) : Prop where
  stacked : x'.Stacked rel' high'
  which : idx :: rel' = rel ∧ high' = high ∨ rel = [] ∧ rel' = [] ∧ idx = high ∧ high' = high + 1
  unused : (x.conns idx).used = false
  conns : ∀ i ≠ idx, (x'.conns i).used = (x.conns i).used
    ∧ ((x.conns i).used = true → x'.conns i = x.conns i)
  sidmap : x'.sidmap = x.sidmap
  sidmapCap : x'.sidmapCap = x.sidmapCap

theorem Stacked.take {rest} {c : SlabConn} (h : x.Stacked rel high) (hc : c.used = true)
    (hf : x.freelist = idx :: rest) : ∃ rel' high', Taken x { x with
      freelist := rest
      conns := update x.conns idx c } rel rel' high high' idx := by
  have hfree := h.free.symm.trans hf
  have hle := h.le
  have hconns : ∀ i ≠ idx, (update x.conns idx c i).used = (x.conns i).used
      ∧ ((x.conns i).used = true → update x.conns idx c i = x.conns i) := by
    intro i hi
    rw [update_of_ne hi]
    exact ⟨rfl, fun _ => rfl⟩
  rcases rel with _ | ⟨i, rel⟩
  · rw [nil_append] at hfree
    obtain ⟨k, hk⟩ : ∃ k, x.connsCap - high = k + 1 := by
      refine ⟨x.connsCap - high - 1, ?_⟩
      have : range' high (x.connsCap - high) ≠ [] := by
        rw [hfree]
        simp
      rw [Ne, range'_eq_nil_iff] at this
      omega
    rw [hk, range'_succ, cons.injEq] at hfree
    obtain ⟨rfl, hrest⟩ := hfree
    have hunused : ¬(x.conns high).used = true := fun hu => by
      have := ((h.used high).1 hu).1
      omega
    refine ⟨[], high + 1, ⟨⟨?_, ?_, .nil, by simp, fun i => ?_⟩, .inr ⟨rfl, rfl, rfl, rfl⟩,
      Bool.eq_false_iff.2 hunused, hconns, rfl, rfl⟩⟩
    · rw [nil_append, ← hrest, show x.connsCap - (high + 1) = k by omega]
    · dsimp only
      omega
    · by_cases hi : i = high
      · subst hi
        simp [hc]
      · rw [(hconns i hi).1, h.used]
        simp
        omega
  · rw [cons_append, cons.injEq] at hfree
    obtain ⟨rfl, hrest⟩ := hfree
    have hnodup := nodup_cons.1 h.nodup
    have hunused : ¬(x.conns i).used = true := fun hu => ((h.used i).1 hu).2 (by simp)
    refine ⟨rel, high, ⟨⟨hrest.symm, hle, hnodup.2, fun j hj => h.lt j (by simp [hj]), fun j => ?_⟩,
      .inl ⟨rfl, rfl⟩, Bool.eq_false_iff.2 hunused, hconns, rfl, rfl⟩⟩
    by_cases hj : j = i
    · subst hj
      simp [hc, hnodup.1, h.lt j (by simp)]
    · rw [(hconns j hj).1, h.used]
      simp [hj]

theorem Stacked.connAlloc (h : x.Stacked rel high) (sid) :
    ∃ x₁ idx rel' high', x.connAlloc = (x₁, some idx)
      ∧ Taken x { x₁ with
        conns := update x₁.conns idx { x₁.conns idx with sid } } rel rel' high high' idx
      ∧ (update x₁.conns idx { x₁.conns idx with sid } idx).sid = sid := by
  have htake : ∀ y : Slab, y.Stacked rel high → y.freelist ≠ [] →
      (∀ i, (y.conns i).used = (x.conns i).used ∧ ((x.conns i).used = true →
        y.conns i = x.conns i)) → y.sidmap = x.sidmap → y.sidmapCap = x.sidmapCap →
      (if x.freelist = [] then x.growSlab else x) = y →
      ∃ x₁ idx rel' high', x.connAlloc = (x₁, some idx)
        ∧ Taken x { x₁ with
          conns := update x₁.conns idx { x₁.conns idx with sid } } rel rel' high high' idx
        ∧ (update x₁.conns idx { x₁.conns idx with sid } idx).sid = sid := by
    intro y hy hne hsame hmap hcap heq
    obtain ⟨idx, rest, hf⟩ := exists_cons_of_ne_nil hne
    obtain ⟨rel', high', ht⟩ := hy.take (c := { used := true, sid }) rfl hf
    have halloc : x.connAlloc = ({ y with
        freelist := rest
        conns := update y.conns idx { used := true, sid := 0 } }, some idx) := by
      rw [Slab.connAlloc, heq]
      simp only [hf]
    refine ⟨_, idx, rel', high', halloc, ?_, by simp⟩
    simp only [update_self, update_idem]
    refine ⟨ht.stacked, ht.which, (hsame idx).1 ▸ ht.unused, fun i hi => ?_, hmap, hcap⟩
    obtain ⟨h1, h2⟩ := ht.conns i hi
    obtain ⟨h3, h4⟩ := hsame i
    exact ⟨h1.trans h3, fun hu => (h2 (h3.trans hu)).trans (h4 hu)⟩
  by_cases hf : x.freelist = []
  · obtain ⟨hgrown, rfl, hne⟩ := h.growSlab hf
    refine htake _ hgrown hne (fun i => ?_) rfl rfl (if_pos hf)
    have hused : (x.conns i).used = (x.growSlab.conns i).used := by
      rw [Bool.eq_iff_iff, h.used, hgrown.used]
    refine ⟨hused.symm, fun hu => ?_⟩
    have hi := ((h.used i).1 hu).1
    have hle := h.le
    exact if_neg (by omega)
  · exact htake x h hf (fun _ => ⟨rfl, fun _ => rfl⟩) rfl rfl (if_neg hf)

theorem Stacked.connRelease (h : x.Stacked rel high) (hu : (x.conns idx).used = true) :
    (x.connRelease idx).Stacked (idx :: rel) high := by
  obtain ⟨hlt, hnot⟩ := (h.used idx).1 hu
  refine ⟨by rw [Slab.connRelease, h.free]; rfl, h.le, nodup_cons.2 ⟨hnot, h.nodup⟩, ?_,
    fun i => ?_⟩
  · intro i hi
    rcases mem_cons.1 hi with rfl | hi
    · exact hlt
    · exact h.lt i hi
  · simp only [Slab.connRelease, update_apply]
    split_ifs with hi
    · simp [hi]
    · rw [h.used]
      simp [hi]

/-! ### The table -/

theorem pow2Ceil_spec (n : ℕ) : (∃ k, pow2Ceil n = 2 ^ k) ∧ n ≤ pow2Ceil n ∧ 16 ≤ pow2Ceil n :=
  ⟨growTo_pow ⟨4, rfl⟩, want_le_growTo_self (by decide), le_growTo ..⟩

theorem growMap_spec (h : x.Roomy high count) (hle : count ≤ high) :
    ∃ m cap, x.growMap = some { x with sidmap := m, sidmapCap := cap }
      ∧ Probed sidMix x.key m cap count ∧ (high + 1) * 4 < cap * 3
      ∧ ∀ v, Entry m cap v ↔ Entry x.sidmap x.sidmapCap v := by
  obtain ⟨hpow, hwant, hmin⟩ := pow2Ceil_spec (if x.sidmapCap = 0 then 64 else x.sidmapCap * 2)
  have hload : (high + 1) * 4
      < pow2Ceil (if x.sidmapCap = 0 then 64 else x.sidmapCap * 2) * 3 := by
    rcases h with ⟨h0, h1, h2⟩ | ⟨hp, hl⟩
    · rw [if_pos h0] at hwant hmin ⊢
      omega
    · have := hp.pos
      rw [if_neg (by omega)] at hwant hmin ⊢
      omega
  have hcount : count = (table x.sidmap x.sidmapCap count).countIf fun _ => true := by
    rcases h with ⟨h0, -, rfl⟩ | ⟨hp, -⟩
    · simp [Table.countIf, table, h0, tally]
    · exact hp.wf.count_eq
  have hdistinct : (table x.sidmap x.sidmapCap count).Distinct x.key := by
    rcases h with ⟨h0, -, -⟩ | ⟨hp, -⟩
    · intro i hi
      exact absurd hi (by simp [h0])
    · exact hp.distinct
  obtain ⟨m, hm, hprobed, hmem⟩ := refill_spec sidMix hcount hdistinct hpow (by omega)
  exact ⟨m, _, by simp only [growMap, hm, map_some], hprobed, hload, hmem⟩

theorem sidmapSet_spec {high' : ℕ} (h : x.Roomy high count) (hle : count ≤ high)
    (hkey : x.key idx = sid) (hfresh : ∀ v, Entry x.sidmap x.sidmapCap v → x.key v ≠ sid)
    (hwhich : idx < high ∧ high' = high ∨ idx = high ∧ high' = high + 1)
    (hsize : count + 1 ≤ high') :
    ∃ m cap, x.sidmapSet sid idx = some { x with sidmap := m, sidmapCap := cap }
      ∧ Probed sidMix x.key m cap (count + 1) ∧ high' * 4 < cap * 3
      ∧ ∀ v, Entry m cap v ↔ v = idx ∨ Entry x.sidmap x.sidmapCap v := by
  -- a table that has room, grown or not
  have hgrown : ∃ m cap, (if x.sidmapCap = 0 ∨ (idx + 1) * 4 ≥ x.sidmapCap * 3 then x.growMap
        else some x) = some { x with sidmap := m, sidmapCap := cap }
      ∧ Probed sidMix x.key m cap count ∧ high' * 4 < cap * 3
      ∧ ∀ v, Entry m cap v ↔ Entry x.sidmap x.sidmapCap v := by
    split_ifs with hgrow
    · obtain ⟨m, cap, hm, hp, hl, he⟩ := growMap_spec h hle
      exact ⟨m, cap, hm, hp, by omega, he⟩
    · rcases h with ⟨h0, -⟩ | ⟨hp, hl⟩
      · exact absurd (.inl h0) hgrow
      · exact ⟨_, _, rfl, hp, by omega, fun _ => Iff.rfl⟩
  obtain ⟨m, cap, hm, hp, hl, he⟩ := hgrown
  obtain ⟨m', hput, hp', he'⟩ := hp.put (v := idx) (by omega) fun v hv hk =>
    hfresh v ((he v).1 hv) (hk.trans hkey)
  refine ⟨m', cap, ?_, hp', hl, fun v => (he' v).trans (or_congr_right (he v))⟩
  have hpos := hp.pos
  rw [put, show cap - 1 + 1 = cap by omega, hkey, map_eq_some_iff] at hput
  obtain ⟨j, hj, rfl⟩ := hput
  rw [sidmapSet, hm, bind_some]
  dsimp only
  rw [hj, map_some]

theorem sidmapDel_spec (h : Probed sidMix x.key x.sidmap x.sidmapCap count)
    (he : Entry x.sidmap x.sidmapCap idx) (hkey : x.key idx = sid) :
    ∃ m, x.sidmapDel sid = some { x with sidmap := m }
      ∧ Probed sidMix x.key m x.sidmapCap (count - 1)
      ∧ ∀ v, Entry m x.sidmapCap v ↔ Entry x.sidmap x.sidmapCap v ∧ v ≠ idx := by
  have hpos := h.pos
  obtain ⟨i, hseek, hi⟩ := h.seek_some (p := fun v => (x.conns v).sid == sid) (k := sid)
    (fun v _ => by simp [key]) he hkey
  obtain ⟨m, hm, hp, hmem⟩ := h.del hi
  refine ⟨m, ?_, hp, hmem⟩
  rw [sidmapDel, if_neg (by omega)]
  simp only [hseek, if_true, hm, map_some]

theorem sidmapGet_eq (h : x.Roomy high count)
    (hentry : ∀ v, Entry x.sidmap x.sidmapCap v ↔ (x.conns v).used = true) (sid) (idx : ℕ) :
    x.sidmapGet sid = some idx ↔ (x.conns idx).used = true ∧ (x.conns idx).sid = sid := by
  unfold sidmapGet
  rcases h with ⟨h0, -, -⟩ | ⟨hp, -⟩
  · rw [if_pos h0]
    refine iff_of_false (by simp) fun ⟨hu, _⟩ => ?_
    obtain ⟨i, hi, -⟩ := (hentry idx).2 hu
    omega
  · have hpos := hp.pos
    rw [if_neg (by omega)]
    have hiff : ∀ v, Entry x.sidmap x.sidmapCap v →
        (((x.conns v).used && (x.conns v).sid == sid) = true ↔ x.key v = sid) := by
      intro v hv
      simp [key, (hentry v).1 hv]
    by_cases hex : ∃ v, Entry x.sidmap x.sidmapCap v ∧ x.key v = sid
    · obtain ⟨v, hv, hk⟩ := hex
      obtain ⟨i, hseek, hi⟩ := hp.seek_some hiff hv hk
      simp only [hseek, hi, Nat.add_sub_cancel, some_inj]
      constructor
      · rintro rfl
        exact ⟨(hentry v).1 hv, hk⟩
      · rintro ⟨hu, hsid⟩
        obtain ⟨a, ha, hma⟩ := hv
        obtain ⟨b, hb, hmb⟩ := (hentry idx).2 hu
        have hab := hp.distinct a ha b hb v idx (slotOf_eq_used.2 hma) (slotOf_eq_used.2 hmb)
          (hk.trans hsid.symm)
        rw [hab, hmb] at hma
        omega
    · have hnone := hp.seek_none (k := sid)
        (p := fun v => (x.conns v).used && (x.conns v).sid == sid) fun v hv => by
          rw [Bool.eq_false_iff]
          exact fun ht => hex ⟨v, hv, (hiff v hv).1 ht⟩
      simp only [hnone]
      refine iff_of_false (by simp) fun ⟨hu, hsid⟩ => hex ⟨idx, (hentry idx).2 hu, hsid⟩

/-! ### Any connections opened and destroyed -/

/-- No connection has the id of one that is opened. -/
def Fresh (x : Slab) : SlabOp → Prop
  | .openConn sid => ∀ i < x.connsCap, (x.conns i).used = true → (x.conns i).sid ≠ sid
  | .connDestroy _ => True

instance Fresh.decidable (x : Slab) : ∀ a, Decidable (x.Fresh a)
  | .openConn _ => inferInstanceAs (Decidable (∀ i < x.connsCap, _))
  | .connDestroy _ => inferInstanceAs (Decidable True)

/-- A record is taken from the free list, or from a slab that has grown, and is entered. -/
theorem Kept.openConn (h : x.Kept rel high count) (hfresh : x.Fresh (.openConn sid)) :
    ∃ x' rel' high', x.openConn sid = some x' ∧ x'.Kept rel' high' (count + 1) := by
  obtain ⟨x₁, idx, rel', high', halloc, ht, hnamed⟩ := h.stacked.connAlloc sid
  generalize hx₂ : { x₁ with
    conns := update x₁.conns idx { x₁.conns idx with sid } } = x₂ at ht
  have hsid : (x₂.conns idx).sid = sid := by rw [← hx₂]; exact hnamed
  have hsize := h.size
  have hle := h.stacked.le
  have hwhich : idx < high ∧ high' = high ∨ idx = high ∧ high' = high + 1 := by
    rcases ht.which with ⟨rfl, hh⟩ | ⟨-, -, hi, hh⟩
    · exact .inl ⟨h.stacked.lt idx (by simp), hh⟩
    · exact .inr ⟨hi, hh⟩
  have hsize' : count + 1 + rel'.length = high' := by
    rcases ht.which with ⟨rfl, rfl⟩ | ⟨rfl, rfl, -, rfl⟩
    · rw [length_cons] at hsize
      omega
    · simpa using hsize
  have hold : ∀ {v}, (x.conns v).used = true → v ≠ idx ∧ x₂.conns v = x.conns v := by
    intro v hv
    have hne : v ≠ idx := by
      rintro rfl
      rw [ht.unused] at hv
      cases hv
    exact ⟨hne, (ht.conns v hne).2 hv⟩
  have hother : ∀ {v}, (x.conns v).used = true → (x.conns v).sid ≠ sid := by
    intro v hv
    have := ((h.stacked.used v).1 hv).1
    exact hfresh v (by omega) hv
  have hentry : ∀ v, Entry x₂.sidmap x₂.sidmapCap v ↔ (x.conns v).used = true := by
    rw [ht.sidmap, ht.sidmapCap]
    exact h.entry
  have hroomy : x₂.Roomy high count := by
    refine h.roomy.imp (fun h0 => ?_) fun ⟨hp, hl⟩ => ⟨?_, ?_⟩
    · rw [ht.sidmapCap]
      exact h0
    · rw [ht.sidmap, ht.sidmapCap]
      refine hp.congr fun v hv => ?_
      rw [key, key, (hold ((h.entry v).1 hv)).2]
    · rw [ht.sidmapCap]
      exact hl
  obtain ⟨m, cap, hset, hp, hl, hmem⟩ := sidmapSet_spec hroomy (by omega) hsid (fun v hv => by
      have hu := (hentry v).1 hv
      rw [key, (hold hu).2]
      exact hother hu) hwhich (by omega)
  have hused : ∀ v, (x₂.conns v).used = true ↔ v = idx ∨ (x.conns v).used = true := by
    intro v
    by_cases hv : v = idx
    · subst hv
      have hin : v < high' ∧ v ∉ rel' := by
        rcases ht.which with ⟨hrel, hh⟩ | ⟨-, hrel, hi, hh⟩
        · have hnodup := h.stacked.nodup
          rw [← hrel] at hnodup
          have hlt := h.stacked.lt v (by simp [← hrel])
          exact ⟨by omega, (nodup_cons.1 hnodup).1⟩
        · rw [hrel]
          exact ⟨by omega, by simp⟩
      exact iff_of_true ((ht.stacked.used v).2 hin) (.inl rfl)
    · rw [(ht.conns v hv).1]
      simp [hv]
  refine ⟨{ x₂ with sidmap := m, sidmapCap := cap }, rel', high', ?_, ⟨?_, hsize', .inr ⟨hp, hl⟩,
    fun v => ?_, fun i j hi hj hij => ?_⟩⟩
  · simp only [Slab.openConn, halloc]
    rw [hx₂]
    exact hset
  · obtain ⟨h1, h2, h3, h4, h5⟩ := ht.stacked
    exact ⟨h1, h2, h3, h4, h5⟩
  · rw [hmem, hentry]
    exact (hused v).symm
  · dsimp only at hi hj hij
    rcases (hused i).1 hi with rfl | hi' <;> rcases (hused j).1 hj with rfl | hj'
    · rfl
    · rw [hsid, (hold hj').2] at hij
      exact absurd hij.symm (hother hj')
    · rw [hsid, (hold hi').2] at hij
      exact absurd hij (hother hi')
    · rw [(hold hi').2, (hold hj').2] at hij
      exact h.sids i j hi' hj' hij

/-- A record is taken out of the table, and put on the free list. -/
theorem Kept.connDestroy (h : x.Kept rel high count) (idx : ℕ) :
    ∃ x' rel' count', x.connDestroy idx = some x' ∧ x'.Kept rel' high count' := by
  unfold Slab.connDestroy
  split_ifs with hu
  · have he := (h.entry idx).2 hu
    have hp : Probed sidMix x.key x.sidmap x.sidmapCap count ∧ high * 4 < x.sidmapCap * 3 := by
      refine h.roomy.resolve_left fun ⟨h0, _⟩ => ?_
      obtain ⟨i, hi, -⟩ := he
      omega
    obtain ⟨m, hdel, hp', hmem⟩ := sidmapDel_spec hp.1 he rfl
    have hcount : 0 < count := by
      by_contra h0
      have hlt := ((h.stacked.used idx).1 hu)
      have hsize := h.size
      have hsub : idx :: rel ⊆ range high := by
        intro i hi
        rcases mem_cons.1 hi with rfl | hi
        · exact mem_range.2 hlt.1
        · exact mem_range.2 (h.stacked.lt i hi)
      have := (subperm_of_subset (nodup_cons.2 ⟨hlt.2, h.stacked.nodup⟩) hsub).length_le
      rw [length_cons, length_range] at this
      omega
    have hconns : ∀ v, v ≠ idx → ({ x with sidmap := m }.connRelease idx).conns v = x.conns v :=
      fun v hv => update_of_ne hv ..
    have hgone : (({ x with sidmap := m }.connRelease idx).conns idx).used = false := by
      simp [connRelease]
    have hkeys : ∀ v, ({ x with sidmap := m }.connRelease idx).key v = x.key v := by
      intro v
      by_cases hv : v = idx
      · subst hv
        simp [key, connRelease]
      · rw [key, key, hconns v hv]
    have hstacked : ({ x with sidmap := m }).Stacked rel high := by
      obtain ⟨h1, h2, h3, h4, h5⟩ := h.stacked
      exact ⟨h1, h2, h3, h4, h5⟩
    refine ⟨_, idx :: rel, count - 1,
      by rw [show (x.conns idx).sid = x.key idx from rfl, hdel]; rfl,
      hstacked.connRelease hu, ?_, .inr ⟨hp'.congr fun v _ => hkeys v, hp.2⟩, fun v => ?_,
      fun i j hi hj hij => ?_⟩
    · rw [length_cons]
      have := h.size
      omega
    · refine (hmem v).trans ?_
      rw [h.entry]
      by_cases hv : v = idx
      · subst hv
        simp [hgone]
      · rw [hconns v hv]
        simp [hv]
    · have hne : ∀ {v}, (({ x with sidmap := m }.connRelease idx).conns v).used = true →
        v ≠ idx := by
        rintro v hv rfl
        rw [hgone] at hv
        cases hv
      have hi' := hne hi
      have hj' := hne hj
      rw [hconns i hi'] at hi hij
      rw [hconns j hj'] at hj hij
      exact h.sids i j hi hj hij
  · exact ⟨x, rel, count, rfl, h⟩

theorem Kept.apply (h : x.Kept rel high count) {a} (ha : x.Fresh a) :
    ∃ x' rel' high' count', x.apply a = some x' ∧ x'.Kept rel' high' count' := by
  cases a with
  | openConn sid =>
    obtain ⟨x', rel', high', h1, h2⟩ := h.openConn ha
    exact ⟨x', rel', high', _, h1, h2⟩
  | connDestroy idx =>
    obtain ⟨x', rel', count', h1, h2⟩ := h.connDestroy idx
    exact ⟨x', rel', high, count', h1, h2⟩

theorem kept_new : Slab.new.Kept [] 0 0 :=
  ⟨⟨rfl, le_rfl, .nil, by simp, fun i => by simp [Slab.new]⟩, rfl, .inl ⟨rfl, rfl, rfl⟩,
    fun v => by simp [Entry, Slab.new], fun i j hi => by simp [Slab.new] at hi⟩

/-- The free list and the records in use are the two parts of the slab, the table finds the records
in use and no others, and one of its cells is empty. -/
structure Consistent (x : Slab) : Prop where
  nodup : x.freelist.Nodup
  free : ∀ i, i ∈ x.freelist ↔ i < x.connsCap ∧ (x.conns i).used = false
  used : ∀ i, (x.conns i).used = true → i < x.connsCap
  get : ∀ sid idx, x.sidmapGet sid = some idx
    ↔ (x.conns idx).used = true ∧ (x.conns idx).sid = sid
  empty : x.sidmapCap = 0 ∧ (∀ i, (x.conns i).used = false) ∨ ∃ i < x.sidmapCap, x.sidmap i = 0

theorem Kept.consistent (h : x.Kept rel high count) : x.Consistent := by
  have hle := h.stacked.le
  refine ⟨?_, fun i => ?_, fun i hi => ?_, sidmapGet_eq h.roomy h.entry, ?_⟩
  · rw [h.stacked.free]
    refine h.stacked.nodup.append (nodup_range' ..) fun i hi hi' => ?_
    have := h.stacked.lt i hi
    have := (mem_range'_1.1 hi').1
    omega
  · rw [h.stacked.free, mem_append, mem_range'_1, Bool.eq_false_iff, Ne, h.stacked.used]
    constructor
    · rintro (hi | hi)
      · have := h.stacked.lt i hi
        exact ⟨by omega, fun hn => hn.2 hi⟩
      · exact ⟨by omega, fun hn => by omega⟩
    · rintro ⟨h1, h2⟩
      by_cases hi : i ∈ rel
      · exact .inl hi
      · have : ¬i < high := fun hlt => h2 ⟨hlt, hi⟩
        exact .inr (by omega)
  · have := ((h.stacked.used i).1 hi).1
    omega
  · refine h.roomy.imp (fun h0 => ⟨h0.1, fun i => ?_⟩) fun hp => hp.1.exists_empty
    rw [Bool.eq_false_iff, Ne, h.stacked.used]
    omega

/-- The state after a call, which is as before if it does not return. -/
def next (x : Slab) (a : SlabOp) : Slab := (x.apply a).getD x

/-- Whatever is opened, with ids that are not in use, and destroyed, the slab and the table agree,
and no loop goes on for ever. -/
theorem slab_consistent (hr : Reach (ofFun Slab.next) Slab.Fresh .new x) :
    x.Consistent ∧ ∀ a, x.Fresh a → x.apply a = some (x.next a) := by
  obtain ⟨rel, high, count, h⟩ :=
    hr.inv (I := fun x => ∃ rel high count, Kept x rel high count) ⟨_, _, _, kept_new⟩ <| by
      rintro x a _ ⟨rel, high, count, h⟩ ha rfl
      obtain ⟨x', rel', high', count', hx', h'⟩ := h.apply ha
      refine ⟨rel', high', count', ?_⟩
      rw [next, hx']
      exact h'
  refine ⟨h.consistent, fun a ha => ?_⟩
  obtain ⟨x', -, -, -, hx', -⟩ := h.apply ha
  rw [next, hx']
  rfl

/-- A record is released and taken again by a stream of another id. -/
def slabRun : List SlabOp := [.openConn 1, .openConn 129, .connDestroy 0, .openConn 3]

theorem slab_consistent_slabRun :
    ∃ x : Slab, x = slabRun.foldl Slab.next .new ∧ x.sidmapGet 129 = some 1 ∧ x.sidmapGet 3 = some 0
      ∧ x.sidmapGet 1 = none ∧ x.Consistent :=
  ⟨_, rfl, by decide +kernel, by decide +kernel, by decide +kernel,
    (slab_consistent (.foldl slabRun (by decide +kernel))).1⟩

end Slab

end MuxProtocol
