import MuxProtocol.Lib.ClusterProbe

/-!
# Linear probing in an array of numbers

A cell holds 0 or, for the record of number `v`, the number `v + 1`; what the key of a record is, is
not in the table. The loops that look for a free cell have no bound of their own: here they are
given as many looks as there are cells, and are `none` where they would go on. As long as a cell is
left empty they end, and the cells are a table of linear probing (`Probed`).
-/

namespace ProbeCells

open LinearProbe Option Function Slot Table

section Defs

variable {κ : Type*} (hash : κ → ℕ) (key : ℕ → κ)

/-- From cell `i` on, the first that is empty, in `n` looks. -/
def freeCell (m : ℕ → ℕ) (mask : ℕ) : ℕ → ℕ → Option ℕ
  | 0, _ => none
  | n + 1, i => if m i = 0 then some i else freeCell m mask n ((i + 1) &&& mask)

/-- Write record `v` to the first empty cell from its home on. -/
def put (m : ℕ → ℕ) (mask v : ℕ) : Option (ℕ → ℕ) :=
  (freeCell m mask (mask + 1) (hash (key v) &&& mask)).map fun j => Function.update m j (v + 1)

/-- The records of the first `n` cells, put into `mask + 1` empty ones. -/
def refill (m : ℕ → ℕ) (mask : ℕ) : ℕ → Option (ℕ → ℕ)
  | 0 => some fun _ => 0
  | n + 1 =>
    (refill m mask n).bind fun nm =>
      match m n with
      | 0 => some nm
      | v + 1 => put hash key nm mask v

/-- From cell `i` on, the first with a record that satisfies `p`: `none` where an empty cell comes
first, and with `false` the cell behind the `n` looked at. -/
def seekCell (p : ℕ → Bool) (m : ℕ → ℕ) (mask : ℕ) : ℕ → ℕ → Option (ℕ × Bool)
  | 0, i => some (i, false)
  | n + 1, i =>
    match m i with
    | 0 => none
    | v + 1 => if p v then some (i, true) else seekCell p m mask n ((i + 1) &&& mask)

/-- Put the records from cell `j` on, up to the first empty cell, again. -/
def recluster (mask : ℕ) : ℕ → (ℕ → ℕ) → ℕ → Option (ℕ → ℕ)
  | 0, m, j => if m j = 0 then some m else none
  | n + 1, m, j =>
    match m j with
    | 0 => some m
    | v + 1 =>
      (put hash key (Function.update m j 0) mask v).bind fun m =>
        recluster mask n m ((j + 1) &&& mask)

end Defs

/-! ### The cells as a table -/

/-- What a cell holds. -/
def slotOf : ℕ → Slot ℕ
  | 0 => .empty
  | v + 1 => .used v

/-- The table of the cells, `count` of which are in use. -/
def table (m : ℕ → ℕ) (cap count : ℕ) : Table ℕ where
  slots i := slotOf (m i)
  cap := cap
  count := count
  tombs := 0

/-- Record `v` is in the table. -/
def Entry (m : ℕ → ℕ) (cap v : ℕ) : Prop := ∃ i < cap, m i = v + 1

/-- Every record is found from its home on, and no two have one key. -/
structure Probed {κ : Type*} (hash : κ → ℕ) (key : ℕ → κ) (m : ℕ → ℕ) (cap count : ℕ) : Prop where
  wf : (table m cap count).Wf hash key
  distinct : (table m cap count).Distinct key

variable {κ : Type*} {hash : κ → ℕ} {key : ℕ → κ} {m m' : ℕ → ℕ} {cap count i v : ℕ}

@[simp] theorem slotOf_eq_empty {x : ℕ} : slotOf x = .empty ↔ x = 0 := by
  cases x <;> simp [slotOf]

@[simp] theorem slotOf_eq_used {x v : ℕ} : slotOf x = .used v ↔ x = v + 1 := by
  cases x <;> simp [slotOf]

theorem slotOf_ne_tomb (x : ℕ) : slotOf x ≠ .tomb := by
  cases x <;> simp [slotOf]

theorem slotOf_update (m) (i x : ℕ) : (fun j => slotOf (update m i x j))
      = update (fun j => slotOf (m j)) i (slotOf x) := by
  funext j
  rw [update_apply, update_apply]
  split_ifs <;> rfl

@[simp] theorem table_cap (m) (cap count : ℕ) : (table m cap count).cap = cap := rfl

theorem table_update (m) (cap count count' i x : ℕ) :
    table (update m i x) cap count' = { table m cap count with
      slots := update (table m cap count).slots i (slotOf x)
      count := count' } := by
  rw [table, slotOf_update]
  rfl

@[simp] theorem mem_table : (table m cap count).Mem v ↔ Entry m cap v := by
  simp [Table.Mem, Entry, table]

namespace Probed

theorem pow (h : Probed hash key m cap count) : ∃ n, cap = 2 ^ n := h.wf.pow

theorem pos (h : Probed hash key m cap count) : 0 < cap := pos_of_pow h.pow

theorem exists_empty (h : Probed hash key m cap count) : ∃ i < cap, m i = 0 := by
  obtain ⟨q, hq, he⟩ := h.wf.exists_empty_on 0
  exact ⟨_, Nat.mod_lt _ h.pos, slotOf_eq_empty.1 he⟩

theorem lt_cap (h : Probed hash key m cap count) (hm : m i = v + 1) : i < cap :=
  h.wf.lt_cap (slotOf_eq_used.2 hm)

theorem congr {key'} (h : Probed hash key m cap count) (hk : ∀ v, Entry m cap v → key' v = key v) :
    Probed hash key' m cap count := by
  have hentry : ∀ {i v}, i < cap → slotOf (m i) = .used v → key' v = key v :=
    fun hi hs => hk _ ⟨_, hi, slotOf_eq_used.1 hs⟩
  obtain ⟨⟨h1, h2, h3, h4, h5, hchain⟩, hdistinct⟩ := h
  refine ⟨⟨h1, h2, h3, h4, h5, fun i hi v hs => ?_⟩, fun i hi j hj v v' hs hs' he => ?_⟩
  · rw [hentry hi hs]
    exact hchain i hi v hs
  · rw [hentry hi hs, hentry hj hs'] at he
    exact hdistinct i hi j hj v v' hs hs' he

end Probed

/-! ### Putting a record -/

theorem freeCell_eq (hp : ∃ n, cap = 2 ^ n) (h : ℕ) {d : ℕ} (hfree : m ((h + d) % cap) = 0) :
    ∀ (n p : ℕ), p ≤ d → d < p + n → (∀ p', p ≤ p' → p' < d → m ((h + p') % cap) ≠ 0) →
      freeCell m (cap - 1) n ((h + p) % cap) = some ((h + d) % cap)
  | 0, p, h1, h2, _ => absurd h2 (by omega)
  | n + 1, p, h1, h2, hne => by
    rw [freeCell]
    rcases Nat.eq_or_lt_of_le h1 with rfl | hlt
    · rw [if_pos hfree]
    · rw [if_neg (hne p le_rfl hlt), and_next hp, Nat.add_assoc]
      exact freeCell_eq hp h hfree n (p + 1) hlt (by omega) fun p' h3 h4 => hne p' (by omega) h4

theorem put_eq (hp : ∃ n, cap = 2 ^ n) {d : ℕ} (hd : d < cap)
    (hfree : m ((hash (key v) + d) % cap) = 0)
    (hne : ∀ p < d, m ((hash (key v) + p) % cap) ≠ 0) :
    put hash key m (cap - 1) v
      = some (update m ((hash (key v) + d) % cap) (v + 1)) := by
  have hpos := pos_of_pow hp
  have hcell := freeCell_eq hp (hash (key v)) hfree cap 0 (Nat.zero_le _) (by omega)
    fun p _ hlt => hne p hlt
  rw [put, show cap - 1 + 1 = cap by omega, and_mask hp]
  rw [Nat.add_zero] at hcell
  rw [hcell, map_some]

/-- A new key finds a cell, and only its entry is new. -/
theorem Probed.put (h : Probed hash key m cap count) (hroom : count + 1 < cap)
    (hne : ∀ v', Entry m cap v' → key v' ≠ key v) :
    ∃ m', put hash key m (cap - 1) v = some m' ∧ Probed hash key m' cap (count + 1)
      ∧ ∀ v', Entry m' cap v' ↔ v' = v ∨ Entry m cap v' := by
  have hfresh : ∀ v', (table m cap count).Mem v' → key v' ≠ key v :=
    fun v' hv' => hne v' (mem_table.1 hv')
  obtain ⟨d, hd, b, hi, hs, hpath⟩ := insert_spec h.wf v
  have hb : b = false := by
    cases b
    · rfl
    · exact absurd hs (slotOf_ne_tomb _)
  rw [hb] at hs hi
  have hins : ((table m cap count).insert hash key v).1
      = table (update m ((hash (key v) + d) % cap) (v + 1)) cap (count + 1) := by
    rw [hi, table_update m cap count]
    rfl
  rw [table_cap] at hd
  refine ⟨_, put_eq h.pow hd (slotOf_eq_empty.1 hs) fun p hp => ?_, ⟨?_, ?_⟩, fun v' => ?_⟩
  · exact fun he => hpath p hp (slotOf_eq_empty.2 he)
  · exact hins ▸ h.wf.insert hroom v
  · exact hins ▸ h.distinct.insert h.wf hfresh
  · rw [← (mem_table : (table _ cap (count + 1)).Mem v' ↔ _), ← hins, mem_insert h.wf, mem_table]

/-! ### Growth -/

theorem refill_eq (hash : κ → ℕ) (key : ℕ → κ) (hp : ∃ k, cap = 2 ^ k) :
    ∀ n, tally (holds fun _ => true) (fun i => slotOf (m i)) n < cap →
      ∃ nm, refill hash key m (cap - 1) n = some nm
        ∧ (fun i => slotOf (nm i)) = rehash hash key (fun i => slotOf (m i)) (cap - 1) n
  | 0, _ => ⟨_, rfl, rfl⟩
  | n + 1, hlt => by
    rw [tally_succ] at hlt
    obtain ⟨nm, hnm, heq⟩ := refill_eq hash key hp n (by omega)
    have hspec : Rehashed hash key (fun i => slotOf (m i)) cap n _ := rehash_spec hp n (by omega)
    rw [refill, hnm, rehash_succ, bind_some]
    generalize rehash hash key (fun i => slotOf (m i)) (cap - 1) n = nt at heq hspec ⊢
    have hat : ∀ i, nt i = slotOf (nm i) := fun i => (congrFun heq i).symm
    rcases hn : m n with _ | v
    · exact ⟨nm, rfl, heq⟩
    · -- the new table has an empty cell for the record
      rw [hn] at hlt
      have hroom : tally (holds fun _ => true) nt cap + tally isTomb nt cap < cap := by
        rw [hspec.tally_eq, tally_eq_zero (P := isTomb)]
        · exact Nat.lt_of_succ_lt (by simpa [slotOf, holds] using hlt)
        · intro i _
          rw [hat]
          rcases nm i with _ | _ <;> rfl
      obtain ⟨i, hi, he⟩ := LinearProbe.exists_empty hroom
      obtain ⟨q, hq, rfl⟩ := exists_offset hi (hash (key v))
      obtain ⟨d, -, hdq, hplace, hfree, hne⟩ :=
        place_eq v hp (hash (key v)) he cap 0 (Nat.zero_le _) (by omega)
      have hzero : nm ((hash (key v) + d) % cap) = 0 := by
        rcases hc : nm ((hash (key v) + d) % cap) with _ | v'
        · rfl
        · exact absurd ((hat _).trans (slotOf_eq_used.2 hc)) (hfree v')
      have hd : d < cap := by omega
      refine ⟨_, put_eq hp hd hzero fun p hp' h0 => ?_, ?_⟩
      · exact hne p (Nat.zero_le _) hp' ((hat _).trans (slotOf_eq_empty.2 h0))
      · have hpos := pos_of_pow hp
        rw [slotOf_update, heq, show cap - 1 + 1 = cap by omega]
        rw [Nat.add_zero, ← and_mask hp] at hplace
        exact hplace.symm

theorem refill_spec (hash : κ → ℕ) {ncap : ℕ}
    (hcount : count = (table m cap count).countIf fun _ => true)
    (hd : (table m cap count).Distinct key) (hp : ∃ k, ncap = 2 ^ k) (hlt : count < ncap) :
    ∃ m', refill hash key m (ncap - 1) cap = some m' ∧ Probed hash key m' ncap count
      ∧ ∀ v, Entry m' ncap v ↔ Entry m cap v := by
  have htally : tally (holds fun _ => true) (fun i => slotOf (m i)) cap < ncap := by
    rw [hcount] at hlt
    exact hlt
  obtain ⟨m', hm', heq⟩ := refill_eq hash key hp cap htally
  have htable : table m' ncap count = (table m cap count).rehashed hash key ncap := by
    simp only [table, rehashed, ← heq]
  have hr : Rehashed hash key (fun i => slotOf (m i)) ncap cap _ := rehash_spec hp cap htally
  refine ⟨m', hm', ⟨?_, ?_⟩, fun v => ?_⟩
  · rw [htable]
    exact Table.Wf.rehashed hcount hp hlt
  · rw [htable]
    exact hr.distinct hd
  · rw [← (mem_table : (table m' ncap count).Mem v ↔ _), htable,
      ← (mem_table : (table m cap count).Mem v ↔ _)]
    exact hr.mem v

/-! ### The search -/

theorem seekCell_found {p} (hp : ∃ n, cap = 2 ^ n) (h : ℕ) {d : ℕ} (hm : m ((h + d) % cap) = v + 1)
    (hv : p v = true) : ∀ (n q : ℕ), q ≤ d → d < q + n →
      (∀ q', q ≤ q' → q' < d → ∃ v', m ((h + q') % cap) = v' + 1 ∧ p v' = false) →
      seekCell p m (cap - 1) n ((h + q) % cap) = some ((h + d) % cap, true)
  | 0, q, h1, h2, _ => absurd h2 (by omega)
  | n + 1, q, h1, h2, hne => by
    rw [seekCell]
    rcases Nat.eq_or_lt_of_le h1 with rfl | hlt
    · rw [hm]
      dsimp only
      rw [if_pos hv]
    · obtain ⟨v', hv', hpv⟩ := hne q le_rfl hlt
      rw [hv']
      dsimp only
      rw [if_neg (by simp [hpv]), and_next hp, Nat.add_assoc]
      exact seekCell_found hp h hm hv n (q + 1) hlt (by omega) fun q' h3 h4 => hne q' (by omega) h4

theorem seekCell_none {p} (hp : ∃ n, cap = 2 ^ n) (h : ℕ) {d : ℕ} (hm : m ((h + d) % cap) = 0) :
    ∀ (n q : ℕ), q ≤ d → d < q + n →
      (∀ q', q ≤ q' → q' < d → ∃ v', m ((h + q') % cap) = v' + 1 ∧ p v' = false) →
      seekCell p m (cap - 1) n ((h + q) % cap) = none
  | 0, q, h1, h2, _ => absurd h2 (by omega)
  | n + 1, q, h1, h2, hne => by
    rw [seekCell]
    rcases Nat.eq_or_lt_of_le h1 with rfl | hlt
    · rw [hm]
    · obtain ⟨v', hv', hpv⟩ := hne q le_rfl hlt
      rw [hv']
      dsimp only
      rw [if_neg (by simp [hpv]), and_next hp, Nat.add_assoc]
      exact seekCell_none hp h hm n (q + 1) hlt (by omega) fun q' h3 h4 => hne q' (by omega) h4

namespace Probed

variable {p : ℕ → Bool} {k : κ}

theorem seek_some (h : Probed hash key m cap count)
    (hp : ∀ v, Entry m cap v → (p v = true ↔ key v = k)) (hv : Entry m cap v) (hk : key v = k) :
    ∃ i, seekCell p m (cap - 1) cap (hash k &&& (cap - 1)) = some (i, true) ∧ m i = v + 1 := by
  obtain ⟨i, hi, hm⟩ := hv
  obtain ⟨d, hd, rfl, hpath⟩ := h.wf.chain i hi v (slotOf_eq_used.2 hm)
  rw [table_cap] at hd hi hm hpath
  refine ⟨_, ?_, hm⟩
  rw [hk] at hm hpath ⊢
  have hfound := seekCell_found h.pow (hash k) hm ((hp v ⟨_, hi, hk ▸ hm⟩).2 hk) cap 0
    (Nat.zero_le _) (by omega) fun q _ hq => ?_
  · rwa [Nat.add_zero, ← and_mask h.pow] at hfound
  · obtain ⟨v', hv'⟩ := used_of_ne (fun _ => slotOf_ne_tomb _) (hpath q hq)
    have hm' := slotOf_eq_used.1 hv'
    refine ⟨v', hm', ?_⟩
    have hq' : (hash k + q) % cap < cap := Nat.mod_lt _ h.pos
    rw [Bool.eq_false_iff]
    intro hpv
    have hsame := (hp v' ⟨_, hq', hm'⟩).1 hpv
    have hat := h.distinct _ hq' _ hi v' v hv' (slotOf_eq_used.2 (hk ▸ hm)) (hsame.trans hk.symm)
    rw [hk] at hat
    exact absurd (mod_inj hat (by omega) hd) (by omega)

theorem seek_none (h : Probed hash key m cap count) (hp : ∀ v, Entry m cap v → p v = false) :
    seekCell p m (cap - 1) cap (hash k &&& (cap - 1)) = none := by
  obtain ⟨n, hn, hstop, hused⟩ := h.wf.cluster rfl (hash k)
  have hnone := seekCell_none (p := p) h.pow (hash k) (slotOf_eq_empty.1 hstop) cap 0
    (Nat.zero_le _) (by change n < cap at hn; omega) fun q _ hq => ?_
  · rwa [Nat.add_zero, ← and_mask h.pow] at hnone
  · obtain ⟨v', hv'⟩ := hused q hq
    have hm' := slotOf_eq_used.1 hv'
    exact ⟨v', hm', hp v' ⟨_, Nat.mod_lt _ h.pos, hm'⟩⟩

end Probed

/-! ### Deletion -/

variable [DecidableEq κ]

/-- The loop over the rest of the cluster ends, and keeps the entries. -/
theorem recluster_eq {n : ℕ} : ∀ {fuel j : ℕ} {m : ℕ → ℕ}, Walk hash key (table m cap count) j n →
    n ≤ fuel → ∃ m', recluster hash key (cap - 1) fuel m (j % cap) = some m'
      ∧ Probed hash key m' cap count ∧ ∀ v, Entry m' cap v ↔ Entry m cap v := by
  induction n with
  | zero =>
    intro fuel j m h _
    have hstop : m (j % cap) = 0 := slotOf_eq_empty.1 h.stop
    refine ⟨m, ?_, ⟨h.wf_of_end, h.distinct⟩, fun _ => Iff.rfl⟩
    cases fuel with
    | zero => rw [recluster, if_pos hstop]
    | succ fuel => rw [recluster, hstop]
  | succ n ih =>
    intro fuel j m h hfuel
    obtain ⟨fuel, rfl⟩ : ∃ k, fuel = k + 1 := ⟨fuel - 1, by omega⟩
    obtain ⟨v, hr⟩ := h.used 0 (by omega)
    have hm : m (j % cap) = v + 1 := slotOf_eq_used.1 hr
    have hpow : ∃ k, cap = 2 ^ k := h.wf.pow
    obtain ⟨d, hl⟩ := h.landing hr
    have hslots : ((table m cap count).emptied (j % cap)).slots
        = fun i => slotOf (update m (j % cap) 0 i) := by
      rw [slotOf_update]
      exact congrArg slots (emptied_eq hr)
    have hput : put hash key (update m (j % cap) 0) (cap - 1) v
        = some (update (update m (j % cap) 0)
          ((hash (key v) + d) % cap) (v + 1)) := by
      refine put_eq hpow hl.lt ?_ fun p hp h0 => ?_
      · have hfree := hl.free
        rw [table_cap, hslots] at hfree
        exact slotOf_eq_empty.1 hfree
      · obtain ⟨r', hr', -⟩ := hl.path p hp
        rw [table_cap, hslots] at hr'
        rw [slotOf_eq_used.1 hr'] at h0
        cases h0
    have hwrite : ((table m cap count).emptied (j % cap)).write hash key v
        = table (update (update m (j % cap) 0)
          ((hash (key v) + d) % cap) (v + 1)) cap count := by
      rw [table_update _ cap count, table_update m cap count]
      exact h.write_eq hr hl
    have hstep : Walk hash key (table (update (update m (j % cap) 0)
        ((hash (key v) + d) % cap) (v + 1)) cap count) (j + 1) n := hwrite ▸ h.step hr
    obtain ⟨m', hm', hprobed, hentry⟩ := ih hstep (by omega : n ≤ fuel)
    refine ⟨m', ?_, hprobed, fun v' => (hentry v').trans ?_⟩
    · rw [recluster, hm]
      dsimp only
      rw [hput, bind_some, and_next hpow]
      exact hm'
    · have hmem := h.mem_step hr v'
      rwa [table_cap, hwrite, mem_table, mem_table] at hmem

/-- An entry is deleted and its cluster closed up: only that entry is gone. -/
theorem Probed.del (h : Probed hash key m cap count) (hm : m i = v + 1) :
    ∃ m', recluster hash key (cap - 1) cap (update m i 0) ((i + 1) &&& (cap - 1)) = some m'
      ∧ Probed hash key m' cap (count - 1)
      ∧ ∀ v', Entry m' cap v' ↔ Entry m cap v' ∧ v' ≠ v := by
  have hi := h.lt_cap hm
  have hs : (table m cap count).slots i = .used v := slotOf_eq_used.2 hm
  obtain ⟨n, hw⟩ := h.wf.walk rfl h.distinct hi
  have hemptied : (table m cap count).emptied i = table (update m i 0) cap (count - 1) := by
    rw [emptied_eq hs, table_update m cap count]
    rfl
  rw [hemptied] at hw
  obtain ⟨m', hm', hprobed, hentry⟩ := recluster_eq hw (le_of_lt hw.lt)
  refine ⟨m', by rw [and_mask h.pow]; exact hm', hprobed, fun v' => (hentry v').trans ?_⟩
  constructor
  · rintro ⟨x, hx, hmx⟩
    rw [update_apply] at hmx
    split_ifs at hmx with hxi
    refine ⟨⟨x, hx, hmx⟩, ?_⟩
    rintro rfl
    exact hxi (h.distinct x hx i hi _ _ (slotOf_eq_used.2 hmx) hs rfl)
  · rintro ⟨⟨x, hx, hmx⟩, hne⟩
    refine ⟨x, hx, ?_⟩
    rw [update_of_ne, hmx]
    rintro rfl
    rw [hm] at hmx
    exact hne (Nat.succ.inj hmx).symm

end ProbeCells
