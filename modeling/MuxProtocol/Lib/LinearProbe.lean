import Mathlib.Data.Nat.Count
import Mathlib.Logic.Function.Basic
import Mathlib.Tactic.Common

/-!
# Linear probing with tombstones

A table of `2 ^ n` slots, each empty, dead or holding a record, searched from a key's home slot
on. A search stops at the first empty slot, so a record can be found as long as no slot between
its home and its place is empty: deleting leaves a tombstone behind, and inserting takes the first
slot of the chain that holds no record.

What the table holds is a set of records (`Table.Mem`). `Wf` is kept by placing, inserting,
removing and updating records, and under it a search finds a record of the key whenever there is
one (`find_isSome`); where the keys are distinct it finds exactly that one (`lookup_eq_some`).
-/

namespace LinearProbe

open Function List Option

/-- One slot of the table. -/
inductive Slot (ρ : Type*) where
  | empty
  | tomb
  | used (r : ρ)

namespace Slot

variable {ρ : Type*}

/-- The slot holds a record that satisfies `q`. -/
def holds (q : ρ → Bool) : Slot ρ → Bool
  | .used r => q r
  | _ => false

def isTomb : Slot ρ → Bool
  | .tomb => true
  | _ => false

end Slot

/-- The slots below `cap`, with the number of records and of tombstones among them. -/
structure Table (ρ : Type*) where
  slots : ℕ → Slot ρ
  cap : ℕ
  count : ℕ
  tombs : ℕ

section Tally

variable {ρ : Type*}

/-- The number of slots below `n` that satisfy `P`. -/
def tally (P : Slot ρ → Bool) (slots : ℕ → Slot ρ) (n : ℕ) : ℕ :=
  Nat.count (fun i => P (slots i) = true) n

theorem tally_succ (P : Slot ρ → Bool) (slots : ℕ → Slot ρ) (n : ℕ) :
    tally P slots (n + 1) = tally P slots n + (P (slots n)).toNat := by
  unfold tally
  rw [Nat.count_succ]
  cases P (slots n) <;> simp

theorem tally_congr {P Q : Slot ρ → Bool} {f g : ℕ → Slot ρ} :
    ∀ {n : ℕ}, (∀ i < n, P (f i) = Q (g i)) → tally P f n = tally Q g n
  | 0, _ => by simp [tally]
  | n + 1, h => by
    rw [tally_succ, tally_succ, tally_congr fun i hi => h i (by omega), h n (by omega)]

/-- Writing one slot moves the tally by what the slot counted before and counts now. -/
theorem tally_update (P : Slot ρ → Bool) (slots : ℕ → Slot ρ) (i : ℕ) (s : Slot ρ) :
    ∀ {n : ℕ}, i < n →
      tally P (update slots i s) n + (P (slots i)).toNat
        = tally P slots n + (P s).toNat
  | 0, h => absurd h (by omega)
  | n + 1, h => by
    rw [tally_succ, tally_succ]
    by_cases hin : i = n
    · subst hin
      have : tally P (update slots i s) i = tally P slots i :=
        tally_congr fun j hj => by rw [update_of_ne (by omega)]
      rw [this, update_self]
      omega
    · have := tally_update P slots i s (n := n) (by omega)
      rw [update_of_ne (Ne.symm hin)]
      omega

theorem tally_eq_zero {P : Slot ρ → Bool} {slots : ℕ → Slot ρ} :
    ∀ {n : ℕ}, (∀ i < n, P (slots i) = false) → tally P slots n = 0
  | 0, _ => by simp [tally]
  | n + 1, h => by
    rw [tally_succ, tally_eq_zero fun i hi => h i (by omega), h n (by omega)]
    rfl

theorem tally_pos {P : Slot ρ → Bool} {slots : ℕ → Slot ρ} {i : ℕ} :
    ∀ {n : ℕ}, i < n → P (slots i) = true → 0 < tally P slots n
  | 0, h, _ => absurd h (by omega)
  | n + 1, h, hi => by
    rw [tally_succ]
    by_cases hin : i = n
    · subst hin
      simp [hi]
    · have := tally_pos (n := n) (by omega) hi
      omega

/-- A slot that is neither a record nor a tombstone is empty, so where the two counts leave room
there is an empty slot. -/
theorem exists_empty {slots : ℕ → Slot ρ} :
    ∀ {n : ℕ}, tally (Slot.holds fun _ => true) slots n + tally Slot.isTomb slots n < n →
      ∃ i < n, slots i = .empty
  | 0, h => absurd h (by omega)
  | n + 1, h => by
    rw [tally_succ, tally_succ] at h
    rcases hs : slots n with _ | _ | r
    · exact ⟨n, by omega, hs⟩
    all_goals
      rw [hs] at h
      simp only [Slot.holds, Slot.isTomb, Bool.toNat_true, Bool.toNat_false] at h
      have hlt : tally (Slot.holds fun _ => true) slots n + tally Slot.isTomb slots n < n := by
        omega
      obtain ⟨i, hi, he⟩ := exists_empty hlt
      exact ⟨i, by omega, he⟩

end Tally

section Probe

variable {κ ρ : Type*} [DecidableEq κ] (hash : κ → ℕ) (key : ρ → κ)

/-- Look for the record of `k` along the chain from slot `i`, at most `n` slots far. -/
def probe (slots : ℕ → Slot ρ) (mask : ℕ) (k : κ) : ℕ → ℕ → Option ℕ
  | 0, _ => none
  | n + 1, i =>
    match slots i with
    | .empty => none
    | .tomb => probe slots mask k n ((i + 1) &&& mask)
    | .used r => if key r = k then some i else probe slots mask k n ((i + 1) &&& mask)

/-- The slot of the record of `k`. -/
def Table.find (t : Table ρ) (k : κ) : Option ℕ :=
  if t.cap = 0 then none
  else probe key t.slots (t.cap - 1) k t.cap (hash k &&& (t.cap - 1))

/-- Write `r` to the first slot of the chain from `j` on that holds no record. -/
def place (slots : ℕ → Slot ρ) (mask : ℕ) (r : ρ) : ℕ → ℕ → ℕ → Slot ρ
  | 0, j => update slots j (.used r)
  | n + 1, j =>
    match slots j with
    | .used _ => place slots mask r n ((j + 1) &&& mask)
    | _ => update slots j (.used r)

/-- The slot an insertion writes, and whether it is a tombstone: the first tombstone met on the
way to the first empty slot of the chain, else that empty slot. -/
def vacancy (slots : ℕ → Slot ρ) (mask : ℕ) : ℕ → ℕ → Option ℕ → Option (ℕ × Bool)
  | 0, _, _ => none
  | n + 1, i, first =>
    match slots i with
    | .empty => some (match first with | some j => (j, true) | none => (i, false))
    | .tomb => vacancy slots mask n ((i + 1) &&& mask) (some (first.getD i))
    | .used _ => vacancy slots mask n ((i + 1) &&& mask) first

/-- The records of the first `n` slots, placed in order into an empty table of `mask + 1`
slots. -/
def rehash (slots : ℕ → Slot ρ) (mask : ℕ) (n : ℕ) : ℕ → Slot ρ :=
  (range n).foldl (fun nt i =>
    match slots i with
    | .used r => place nt mask r (mask + 1) (hash (key r) &&& mask)
    | _ => nt) fun _ => .empty

/-- The table with its records moved to `cap` slots. -/
def Table.rehashed (t : Table ρ) (cap : ℕ) : Table ρ where
  slots := rehash hash key t.slots (cap - 1) t.cap
  cap := cap
  count := t.count
  tombs := 0

/-- Write a record that is not in the table. The slot is `none` only in a table with no empty
slot. -/
def Table.insert (t : Table ρ) (r : ρ) : Table ρ × Option ℕ :=
  match vacancy t.slots (t.cap - 1) t.cap (hash (key r) &&& (t.cap - 1)) none with
  | none => (t, none)
  | some (j, reused) =>
    ({ t with
        slots := update t.slots j (.used r)
        count := t.count + 1
        tombs := if reused then t.tombs - 1 else t.tombs }, some j)

/-- Leave a tombstone where a record was. -/
def Table.remove (t : Table ρ) (i : ℕ) : Table ρ :=
  match t.slots i with
  | .used _ =>
    { t with
      slots := update t.slots i .tomb
      count := t.count - 1
      tombs := t.tombs + 1 }
  | _ => t

/-- Update the record of slot `i`. -/
def Table.modify (t : Table ρ) (i : ℕ) (f : ρ → ρ) : Table ρ :=
  match t.slots i with
  | .used r => { t with slots := update t.slots i (.used (f r)) }
  | _ => t

/-- The table holds `r`. -/
def Table.Mem (t : Table ρ) (r : ρ) : Prop := ∃ i < t.cap, t.slots i = .used r

/-- The number of records that satisfy `q`. -/
def Table.countIf (t : Table ρ) (q : ρ → Bool) : ℕ := tally (Slot.holds q) t.slots t.cap

/-- A record reached from its home over no empty slot. -/
def Chained (slots : ℕ → Slot ρ) (cap : ℕ) : Prop :=
  ∀ i < cap, ∀ r, slots i = .used r →
    ∃ d < cap, (hash (key r) + d) % cap = i
      ∧ ∀ p < d, slots ((hash (key r) + p) % cap) ≠ .empty

/-- The invariant of the table: a power of two of slots and nothing past them, exact counts, an
empty slot left, and every record reached from its home. -/
structure Table.Wf (t : Table ρ) : Prop where
  pow : ∃ n, t.cap = 2 ^ n
  beyond : ∀ i, t.cap ≤ i → t.slots i = .empty
  count_eq : t.count = t.countIf fun _ => true
  tombs_eq : t.tombs = tally Slot.isTomb t.slots t.cap
  room : t.count + t.tombs < t.cap
  chain : Chained hash key t.slots t.cap

/-- No two slots hold records of one key. -/
def Table.Distinct (t : Table ρ) : Prop :=
  ∀ i < t.cap, ∀ j < t.cap, ∀ r r', t.slots i = .used r → t.slots j = .used r' →
    key r = key r' → i = j

end Probe

section Chain

variable {κ ρ : Type*} {hash : κ → ℕ} {key : ρ → κ} {slots : ℕ → Slot ρ} {cap : ℕ}

/-- Writing a slot with anything but `empty` keeps the chains, if what is written is itself
reached. -/
theorem Chained.update (hc : Chained hash key slots cap) {i : ℕ} {s} (hs : s ≠ .empty)
    (hr : ∀ r, s = .used r → ∃ d < cap, (hash (key r) + d) % cap = i
      ∧ ∀ p < d, slots ((hash (key r) + p) % cap) ≠ .empty) :
    Chained hash key (Function.update slots i s) cap := by
  have hkeep : ∀ j, slots j ≠ .empty → Function.update slots i s j ≠ .empty := by
    intro j hj
    rw [update_apply]
    split_ifs
    · exact hs
    · exact hj
  intro j hj r hjr
  rw [update_apply] at hjr
  split_ifs at hjr with hij
  · subst hij
    obtain ⟨d, hd, hdi, hne⟩ := hr r hjr
    exact ⟨d, hd, hdi, fun p hp => hkeep _ (hne p hp)⟩
  · obtain ⟨d, hd, hdi, hne⟩ := hc j hj r hjr
    exact ⟨d, hd, hdi, fun p hp => hkeep _ (hne p hp)⟩

variable [DecidableEq κ]

theorem and_mask (hp : ∃ n, cap = 2 ^ n) (x : ℕ) : x &&& (cap - 1) = x % cap := by
  obtain ⟨n, rfl⟩ := hp
  exact Nat.and_two_pow_sub_one_eq_mod x n

theorem and_next (hp : ∃ n, cap = 2 ^ n) (x : ℕ) :
    (x % cap + 1) &&& (cap - 1) = (x + 1) % cap := by
  rw [and_mask hp, Nat.mod_add_mod]

theorem pos_of_pow (hp : ∃ n, cap = 2 ^ n) : 0 < cap := by
  obtain ⟨n, rfl⟩ := hp
  exact Nat.two_pow_pos n

theorem exists_offset {i : ℕ} (hi : i < cap) (h : ℕ) : ∃ d < cap, (h + d) % cap = i := by
  have hm := Nat.mod_lt h (by omega : 0 < cap)
  refine ⟨(i + (cap - h % cap)) % cap, Nat.mod_lt _ (by omega), ?_⟩
  rw [Nat.add_mod_mod, ← Nat.mod_add_mod, show h % cap + (i + (cap - h % cap)) = i + cap by omega,
    Nat.add_mod_right, Nat.mod_eq_of_lt hi]

theorem probe_some {k : κ} (hp : ∃ n, cap = 2 ^ n) (h : ℕ) :
    ∀ (n p : ℕ) {i : ℕ}, probe key slots (cap - 1) k n ((h + p) % cap) = some i →
      i < cap ∧ ∃ r, slots i = .used r ∧ key r = k
  | 0, _, _, hi => by simp [probe] at hi
  | n + 1, p, i, hi => by
    have hlt := Nat.mod_lt (h + p) (pos_of_pow hp)
    have hnext : probe key slots (cap - 1) k n (((h + p) % cap + 1) &&& (cap - 1)) = some i →
        i < cap ∧ ∃ r, slots i = .used r ∧ key r = k := by
      rw [and_next hp, Nat.add_assoc]
      exact probe_some hp h n (p + 1)
    simp only [probe] at hi
    split at hi
    · simp at hi
    · exact hnext hi
    · rename_i r hs
      split_ifs at hi with hk
      · cases hi
        exact ⟨hlt, r, hs, hk⟩
      · exact hnext hi

/-- A search meets a record of its key before it meets an empty slot. -/
theorem probe_isSome {k : κ} {r : ρ} (hp : ∃ n, cap = 2 ^ n) (h : ℕ) {q : ℕ}
    (hq : slots ((h + q) % cap) = .used r) (hk : key r = k) :
    ∀ (n p : ℕ), p ≤ q → q < p + n →
      (∀ p', p ≤ p' → p' < q → slots ((h + p') % cap) ≠ .empty) →
      (probe key slots (cap - 1) k n ((h + p) % cap)).isSome
  | 0, p, h1, h2, _ => absurd h2 (by omega)
  | n + 1, p, h1, h2, hne => by
    have hnext : p < q → (probe key slots (cap - 1) k n
        (((h + p) % cap + 1) &&& (cap - 1))).isSome := by
      intro hpq
      rw [and_next hp, Nat.add_assoc]
      exact probe_isSome hp h hq hk n (p + 1) hpq (by omega)
        fun p' h3 h4 => hne p' (by omega) h4
    simp only [probe]
    rcases Nat.eq_or_lt_of_le h1 with rfl | hpq
    · rw [hq]
      simp [hk]
    · split
      · rename_i hs
        exact absurd hs (hne p le_rfl hpq)
      · exact hnext hpq
      · split_ifs
        · rfl
        · exact hnext hpq

theorem vacancy_tomb (hp : ∃ n, cap = 2 ^ n) (h : ℕ) {q : ℕ}
    (hq : slots ((h + q) % cap) = .empty) (j : ℕ) :
    ∀ (n p : ℕ), p ≤ q → q < p + n →
      vacancy slots (cap - 1) n ((h + p) % cap) (some j) = some (j, true)
  | 0, p, h1, h2 => absurd h2 (by omega)
  | n + 1, p, h1, h2 => by
    simp only [vacancy]
    rcases Nat.eq_or_lt_of_le h1 with rfl | hpq
    · rw [hq]
    · have hnext := vacancy_tomb hp h hq j n (p + 1) hpq (by omega)
      rw [← Nat.add_assoc, ← and_next hp] at hnext
      split
      · rfl
      · exact hnext
      · exact hnext

/-- An insertion takes the first slot of the chain that holds no record. -/
theorem vacancy_eq (hp : ∃ n, cap = 2 ^ n) (h : ℕ) {q : ℕ}
    (hq : slots ((h + q) % cap) = .empty) :
    ∀ (n p : ℕ), p ≤ q → q < p + n → ∃ d b, p ≤ d ∧ d ≤ q
      ∧ vacancy slots (cap - 1) n ((h + p) % cap) none = some ((h + d) % cap, b)
      ∧ slots ((h + d) % cap) = (if b then .tomb else .empty)
      ∧ ∀ p', p ≤ p' → p' < d → slots ((h + p') % cap) ≠ .empty
  | 0, p, h1, h2 => absurd h2 (by omega)
  | n + 1, p, h1, h2 => by
    simp only [vacancy]
    rcases hs : slots ((h + p) % cap) with _ | _ | r
    · exact ⟨p, false, le_rfl, h1, rfl, by simpa using hs, fun p' _ _ => by omega⟩
    · have hpq : p < q := by
        rcases Nat.eq_or_lt_of_le h1 with rfl | hpq
        · rw [hs] at hq
          cases hq
        · exact hpq
      refine ⟨p, true, le_rfl, h1, ?_, by simpa using hs, fun p' _ _ => by omega⟩
      have := vacancy_tomb hp h hq ((h + p) % cap) n (p + 1) hpq (by omega)
      rw [← Nat.add_assoc, ← and_next hp] at this
      simpa using this
    · have hpq : p < q := by
        rcases Nat.eq_or_lt_of_le h1 with rfl | hpq
        · rw [hs] at hq
          cases hq
        · exact hpq
      obtain ⟨d, b, hd1, hd2, hv, hsd, hne⟩ := vacancy_eq hp h hq n (p + 1) hpq (by omega)
      rw [← Nat.add_assoc, ← and_next hp] at hv
      refine ⟨d, b, by omega, hd2, hv, hsd, fun p' h3 h4 => ?_⟩
      rcases Nat.eq_or_lt_of_le h3 with rfl | h3
      · rw [hs]
        simp
      · exact hne p' h3 h4

theorem place_eq (r : ρ) (hp : ∃ n, cap = 2 ^ n) (h : ℕ) {q : ℕ}
    (hq : slots ((h + q) % cap) = .empty) :
    ∀ (n p : ℕ), p ≤ q → q < p + n → ∃ d, p ≤ d ∧ d ≤ q
      ∧ place slots (cap - 1) r n ((h + p) % cap)
          = update slots ((h + d) % cap) (.used r)
      ∧ (∀ r', slots ((h + d) % cap) ≠ .used r')
      ∧ ∀ p', p ≤ p' → p' < d → slots ((h + p') % cap) ≠ .empty
  | 0, p, h1, h2 => absurd h2 (by omega)
  | n + 1, p, h1, h2 => by
    simp only [place]
    rcases hs : slots ((h + p) % cap) with _ | _ | r'
    · exact ⟨p, le_rfl, h1, rfl, by simp [hs], fun p' _ _ => by omega⟩
    · exact ⟨p, le_rfl, h1, rfl, by simp [hs], fun p' _ _ => by omega⟩
    · have hpq : p < q := by
        rcases Nat.eq_or_lt_of_le h1 with rfl | hpq
        · rw [hs] at hq
          cases hq
        · exact hpq
      obtain ⟨d, hd1, hd2, hv, hsd, hne⟩ := place_eq r hp h hq n (p + 1) hpq (by omega)
      rw [← Nat.add_assoc, ← and_next hp] at hv
      refine ⟨d, by omega, hd2, hv, hsd, fun p' h3 h4 => ?_⟩
      rcases Nat.eq_or_lt_of_le h3 with rfl | h3
      · rw [hs]
        simp
      · exact hne p' h3 h4

end Chain

section Find

variable {κ ρ : Type*} {hash : κ → ℕ} {key : ρ → κ} {t : Table ρ}

theorem Table.Wf.lt_cap (h : t.Wf hash key) {i : ℕ} {r : ρ} (hs : t.slots i = .used r) :
    i < t.cap := by
  by_contra hi
  rw [h.beyond i (by omega)] at hs
  cases hs

theorem Table.Wf.exists_empty_on (h : t.Wf hash key) (x : ℕ) :
    ∃ q < t.cap, t.slots ((x + q) % t.cap) = .empty := by
  have hroom := h.room
  rw [h.count_eq, h.tombs_eq] at hroom
  obtain ⟨i, hi, he⟩ := exists_empty hroom
  obtain ⟨q, hq, rfl⟩ := exists_offset hi x
  exact ⟨q, hq, he⟩

variable [DecidableEq κ]

theorem Table.find_eq (h : t.Wf hash key) (k : κ) :
    t.find hash key k
      = probe key t.slots (t.cap - 1) k t.cap ((hash k + 0) % t.cap) := by
  have := pos_of_pow h.pow
  rw [Table.find, if_neg (by omega), and_mask h.pow, Nat.add_zero]

theorem Table.find_some (h : t.Wf hash key) {k : κ} {i : ℕ} (hf : t.find hash key k = some i) :
    i < t.cap ∧ ∃ r, t.slots i = .used r ∧ key r = k := by
  rw [Table.find_eq h] at hf
  exact probe_some h.pow _ _ _ hf

theorem Table.find_isSome (h : t.Wf hash key) {r : ρ} (hr : t.Mem r) :
    (t.find hash key (key r)).isSome := by
  obtain ⟨i, hi, hs⟩ := hr
  obtain ⟨d, hd, rfl, hne⟩ := h.chain i hi r hs
  rw [Table.find_eq h]
  exact probe_isSome h.pow _ hs rfl _ _ (Nat.zero_le _) (by omega) fun p' _ h4 => hne p' h4

theorem Table.find_eq_some (h : t.Wf hash key) (hd : t.Distinct key) {k : κ} {i : ℕ} :
    t.find hash key k = some i ↔ i < t.cap ∧ ∃ r, t.slots i = .used r ∧ key r = k := by
  refine ⟨Table.find_some h, ?_⟩
  rintro ⟨hi, r, hs, rfl⟩
  obtain ⟨j, hj⟩ := isSome_iff_exists.1 (Table.find_isSome h ⟨i, hi, hs⟩)
  obtain ⟨hj', r', hs', hk⟩ := Table.find_some h hj
  rw [hj, hd j hj' i hi r' r hs' hs hk]

/-- The record of slot `i`. -/
def Table.get (t : Table ρ) (i : ℕ) : Option ρ :=
  match t.slots i with
  | .used r => some r
  | _ => none

theorem Table.get_eq_some {i : ℕ} {r : ρ} : t.get i = some r ↔ t.slots i = .used r := by
  unfold Table.get
  split <;> simp_all

/-- The record of a key. -/
def Table.lookup (hash : κ → ℕ) (key : ρ → κ) (t : Table ρ) (k : κ) : Option ρ :=
  (t.find hash key k).bind t.get

theorem Table.lookup_of_find {k : κ} {i : ℕ} {r : ρ} (hf : t.find hash key k = some i)
    (hr : t.slots i = .used r) : t.lookup hash key k = some r := by
  rw [Table.lookup, hf, bind_some, Table.get_eq_some.2 hr]

theorem Table.mem_of_lookup (h : t.Wf hash key) {k : κ} {r : ρ}
    (hl : t.lookup hash key k = some r) : t.Mem r ∧ key r = k := by
  rw [Table.lookup, bind_eq_some_iff] at hl
  obtain ⟨i, hf, hg⟩ := hl
  obtain ⟨hi, r', hs, hk⟩ := Table.find_some h hf
  rw [Table.get_eq_some, hs, Slot.used.injEq] at hg
  subst hg
  exact ⟨⟨i, hi, hs⟩, hk⟩

theorem Table.lookup_eq_some (h : t.Wf hash key) (hd : t.Distinct key) {k : κ} {r : ρ} :
    t.lookup hash key k = some r ↔ t.Mem r ∧ key r = k := by
  refine ⟨Table.mem_of_lookup h, ?_⟩
  rintro ⟨⟨i, hi, hs⟩, rfl⟩
  exact Table.lookup_of_find ((Table.find_eq_some h hd).2 ⟨hi, r, hs, rfl⟩) hs

theorem Table.lookup_eq_none (h : t.Wf hash key) {k : κ} :
    t.lookup hash key k = none ↔ ∀ r, t.Mem r → key r ≠ k := by
  constructor
  · rintro hl r hr rfl
    obtain ⟨i, hi⟩ := isSome_iff_exists.1 (Table.find_isSome h hr)
    obtain ⟨-, r', hs, -⟩ := Table.find_some h hi
    rw [Table.lookup_of_find hi hs] at hl
    cases hl
  · intro hne
    rcases hl : t.lookup hash key k with _ | r
    · rfl
    · obtain ⟨hm, hk⟩ := Table.mem_of_lookup h hl
      exact absurd hk (hne r hm)

theorem Table.lookup_congr {t' : Table ρ} (h : t.Wf hash key) (hd : t.Distinct key)
    (h' : t'.Wf hash key) (hd' : t'.Distinct key) {k : κ}
    (hm : ∀ r, key r = k → (t'.Mem r ↔ t.Mem r)) :
    t'.lookup hash key k = t.lookup hash key k := by
  refine ext fun r => ?_
  rw [Table.lookup_eq_some h hd, Table.lookup_eq_some h' hd']
  constructor
  · rintro ⟨h1, h2⟩
    exact ⟨(hm r h2).1 h1, h2⟩
  · rintro ⟨h1, h2⟩
    exact ⟨(hm r h2).2 h1, h2⟩

end Find

section Update

variable {κ ρ : Type*} {hash : κ → ℕ} {key : ρ → κ} {t : Table ρ}

theorem Table.insert_spec (h : t.Wf hash key) (r : ρ) :
    ∃ d < t.cap, ∃ b : Bool, t.insert hash key r
        = ({ slots := update t.slots ((hash (key r) + d) % t.cap) (.used r)
             cap := t.cap
             count := t.count + 1
             tombs := if b then t.tombs - 1 else t.tombs }, some ((hash (key r) + d) % t.cap))
      ∧ t.slots ((hash (key r) + d) % t.cap) = (if b then .tomb else .empty)
      ∧ ∀ p < d, t.slots ((hash (key r) + p) % t.cap) ≠ .empty := by
  obtain ⟨q, hq, he⟩ := h.exists_empty_on (hash (key r))
  obtain ⟨d, b, -, hdq, hv, hs, hne⟩ :=
    vacancy_eq h.pow (hash (key r)) he t.cap 0 (Nat.zero_le _) (by omega)
  refine ⟨d, by omega, b, ?_, hs, fun p hp => hne p (Nat.zero_le _) hp⟩
  rw [Nat.add_zero] at hv
  rw [Table.insert, and_mask h.pow, hv]

/-- Writing a record to a slot that held none adds it to what the table holds. -/
theorem mem_update_used {slots : ℕ → Slot ρ} {cap i : ℕ} (hi : i < cap)
    (hn : ∀ r', slots i ≠ .used r') (r r' : ρ) :
    (∃ j < cap, update slots i (.used r) j = .used r')
      ↔ r' = r ∨ ∃ j < cap, slots j = .used r' := by
  constructor
  · rintro ⟨j, hj, hs⟩
    rw [update_apply] at hs
    split_ifs at hs with hij
    · cases hs
      exact .inl rfl
    · exact .inr ⟨j, hj, hs⟩
  · rintro (rfl | ⟨j, hj, hs⟩)
    · exact ⟨i, hi, update_self ..⟩
    · refine ⟨j, hj, ?_⟩
      rw [update_of_ne]
      · exact hs
      · rintro rfl
        exact hn _ hs

theorem Table.mem_insert (h : t.Wf hash key) (r r' : ρ) :
    (t.insert hash key r).1.Mem r' ↔ r' = r ∨ t.Mem r' := by
  obtain ⟨d, hd, b, hi, hs, -⟩ := Table.insert_spec h r
  rw [hi]
  have hj := Nat.mod_lt (hash (key r) + d) (by omega : 0 < t.cap)
  refine mem_update_used hj (fun r'' h' => ?_) r r'
  rw [hs] at h'
  cases b <;> cases h'

theorem Table.countIf_insert (h : t.Wf hash key) (r : ρ) (q : ρ → Bool) :
    (t.insert hash key r).1.countIf q = t.countIf q + (q r).toNat := by
  obtain ⟨d, hd, b, hi, hs, -⟩ := Table.insert_spec h r
  have := tally_update (Slot.holds q) t.slots _ (.used r)
    (Nat.mod_lt (hash (key r) + d) (by omega : 0 < t.cap))
  rw [hi]
  rw [hs] at this
  cases b <;> simpa [Table.countIf, Slot.holds] using this

theorem Table.Wf.insert (h : t.Wf hash key) (hroom : t.count + t.tombs + 1 < t.cap) (r : ρ) :
    (t.insert hash key r).1.Wf hash key := by
  have hcount := Table.countIf_insert h r fun _ => true
  obtain ⟨d, hd, b, hi, hs, hne⟩ := Table.insert_spec h r
  have hj := Nat.mod_lt (hash (key r) + d) (by omega : 0 < t.cap)
  have ht := tally_update Slot.isTomb t.slots _ (.used r) hj
  rw [hi] at hcount ⊢
  rw [hs, ← h.tombs_eq] at ht
  refine ⟨h.pow, fun i hi' => ?_, ?_, ?_, ?_, ?_⟩
  · simp only at hi' ⊢
    rw [update_of_ne (by omega)]
    exact h.beyond i hi'
  · rw [hcount, ← h.count_eq]
    rfl
  · cases b <;> simp [Slot.isTomb] at ht ⊢ <;> omega
  · cases b <;> simp <;> omega
  · refine h.chain.update (by simp) fun r' hr' => ?_
    cases hr'
    exact ⟨d, hd, rfl, hne⟩

theorem Table.Distinct.insert (h : t.Wf hash key) (hd : t.Distinct key) {r : ρ}
    (hne : ∀ r', t.Mem r' → key r' ≠ key r) : (t.insert hash key r).1.Distinct key := by
  obtain ⟨d, hdc, b, hi, -, -⟩ := Table.insert_spec h r
  rw [hi]
  intro i hi' j hj' r₁ r₂ h₁ h₂ hk
  simp only [update_apply] at h₁ h₂ hi' hj'
  split_ifs at h₁ h₂ with e₁ e₂ e₂
  · exact e₁.trans e₂.symm
  · cases h₁
    exact absurd hk.symm (hne r₂ ⟨j, hj', h₂⟩)
  · cases h₂
    exact absurd hk (hne r₁ ⟨i, hi', h₁⟩)
  · exact hd i hi' j hj' r₁ r₂ h₁ h₂ hk

theorem Table.remove_eq {i : ℕ} {r : ρ} (hs : t.slots i = .used r) :
    t.remove i = { slots := update t.slots i .tomb, cap := t.cap
                   count := t.count - 1, tombs := t.tombs + 1 } := by
  simp only [Table.remove, hs]

theorem Table.countIf_remove (h : t.Wf hash key) {i : ℕ} {r : ρ} (hs : t.slots i = .used r)
    (q : ρ → Bool) : (t.remove i).countIf q + (q r).toNat = t.countIf q := by
  have := tally_update (Slot.holds q) t.slots i .tomb (h.lt_cap hs)
  rw [Table.remove_eq hs]
  rw [hs] at this
  simpa [Table.countIf, Slot.holds] using this

theorem Table.Wf.remove (h : t.Wf hash key) (i : ℕ) : (t.remove i).Wf hash key := by
  rcases hs : t.slots i with _ | _ | r
  · rwa [show t.remove i = t by simp only [Table.remove, hs]]
  · rwa [show t.remove i = t by simp only [Table.remove, hs]]
  have hcount := Table.countIf_remove h hs fun _ => true
  have ht := tally_update Slot.isTomb t.slots i .tomb (h.lt_cap hs)
  have hlt := h.lt_cap hs
  have hpos := h.count_eq
  have hroom := h.room
  rw [Table.remove_eq hs] at hcount ⊢
  rw [hs, ← h.tombs_eq] at ht
  simp only [Bool.toNat_true] at hcount
  simp only [Slot.isTomb, Bool.toNat_true, Bool.toNat_false] at ht
  refine ⟨h.pow, fun j hj => ?_, ?_, ?_, ?_, h.chain.update (by simp) (by simp)⟩
  · simp only at hj ⊢
    rw [update_of_ne (by omega)]
    exact h.beyond j hj
  · simp only
    omega
  · simp only
    omega
  · simp only
    omega

/-- Only the record of the slot is gone. -/
theorem Table.mem_remove (h : t.Wf hash key) (hd : t.Distinct key) {i : ℕ} {r : ρ}
    (hs : t.slots i = .used r) (r' : ρ) :
    (t.remove i).Mem r' ↔ t.Mem r' ∧ key r' ≠ key r := by
  rw [Table.remove_eq hs]
  constructor
  · rintro ⟨j, hj, hjs⟩
    simp only [update_apply] at hj hjs
    split_ifs at hjs with hij
    refine ⟨⟨j, hj, hjs⟩, fun hk => hij ?_⟩
    exact hd j hj i (h.lt_cap hs) r' r hjs hs hk
  · rintro ⟨⟨j, hj, hjs⟩, hk⟩
    refine ⟨j, hj, ?_⟩
    simp only
    rw [update_of_ne]
    · exact hjs
    · rintro rfl
      rw [hs] at hjs
      cases hjs
      exact hk rfl

theorem Table.Distinct.remove (hd : t.Distinct key) (i : ℕ) : (t.remove i).Distinct key := by
  rcases hs : t.slots i with _ | _ | r
  · rwa [show t.remove i = t by simp only [Table.remove, hs]]
  · rwa [show t.remove i = t by simp only [Table.remove, hs]]
  rw [Table.remove_eq hs]
  intro j hj j' hj' r₁ r₂ h₁ h₂ hk
  simp only [update_apply] at h₁ h₂ hj hj'
  split_ifs at h₁ h₂
  exact hd j hj j' hj' r₁ r₂ h₁ h₂ hk

theorem Table.modify_eq {i : ℕ} {r : ρ} (hs : t.slots i = .used r) (f) :
    t.modify i f = { t with slots := update t.slots i (.used (f r)) } := by
  simp only [Table.modify, hs]

theorem Table.countIf_modify (h : t.Wf hash key) {i : ℕ} {r : ρ} (hs : t.slots i = .used r)
    (f : ρ → ρ) (q : ρ → Bool) :
    (t.modify i f).countIf q + (q r).toNat = t.countIf q + (q (f r)).toNat := by
  have := tally_update (Slot.holds q) t.slots i (.used (f r)) (h.lt_cap hs)
  rw [Table.modify_eq hs]
  rw [hs] at this
  simpa [Table.countIf, Slot.holds] using this

theorem Table.Wf.modify (h : t.Wf hash key) (i : ℕ) {f : ρ → ρ} (hf : ∀ r, key (f r) = key r) :
    (t.modify i f).Wf hash key := by
  rcases hs : t.slots i with _ | _ | r
  · rwa [show t.modify i f = t by simp only [Table.modify, hs]]
  · rwa [show t.modify i f = t by simp only [Table.modify, hs]]
  have hcount := Table.countIf_modify h hs f fun _ => true
  have ht := tally_update Slot.isTomb t.slots i (.used (f r)) (h.lt_cap hs)
  have hlt := h.lt_cap hs
  rw [Table.modify_eq hs] at hcount ⊢
  rw [hs] at ht
  refine ⟨h.pow, fun j hj => ?_, ?_, ?_, h.room, h.chain.update (by simp) fun r' hr' => ?_⟩
  · simp only at hj ⊢
    rw [update_of_ne (by omega)]
    exact h.beyond j hj
  · exact h.count_eq.trans (by omega)
  · exact h.tombs_eq.trans (by simpa [Slot.isTomb] using ht.symm)
  · cases hr'
    rw [hf]
    exact h.chain i hlt r hs

theorem Table.mem_modify (h : t.Wf hash key) (hd : t.Distinct key) {i : ℕ} {r : ρ}
    (hs : t.slots i = .used r) (f) (r' : ρ) :
    (t.modify i f).Mem r' ↔ r' = f r ∨ (t.Mem r' ∧ key r' ≠ key r) := by
  rw [Table.modify_eq hs]
  constructor
  · rintro ⟨j, hj, hjs⟩
    simp only [update_apply] at hj hjs
    split_ifs at hjs with hij
    · cases hjs
      exact .inl rfl
    · exact .inr ⟨⟨j, hj, hjs⟩, fun hk => hij (hd j hj i (h.lt_cap hs) r' r hjs hs hk)⟩
  · rintro (rfl | ⟨⟨j, hj, hjs⟩, hk⟩)
    · exact ⟨i, h.lt_cap hs, update_self ..⟩
    · refine ⟨j, hj, ?_⟩
      simp only
      rw [update_of_ne]
      · exact hjs
      · rintro rfl
        rw [hs] at hjs
        cases hjs
        exact hk rfl

theorem Table.Distinct.modify (hd : t.Distinct key) (i : ℕ) {f} (hf : ∀ r, key (f r) = key r) :
    (t.modify i f).Distinct key := by
  rcases hs : t.slots i with _ | _ | r
  · rwa [show t.modify i f = t by simp only [Table.modify, hs]]
  · rwa [show t.modify i f = t by simp only [Table.modify, hs]]
  have hkey : ∀ j r', update t.slots i (.used (f r)) j = .used r' →
      ∃ r'', t.slots j = .used r'' ∧ key r'' = key r' := by
    intro j r' hj
    rw [update_apply] at hj
    split_ifs at hj with hij
    · cases hj
      exact ⟨r, hij ▸ hs, (hf r).symm⟩
    · exact ⟨r', hj, rfl⟩
  rw [Table.modify_eq hs]
  intro j hj j' hj' r₁ r₂ h₁ h₂ hk
  obtain ⟨s₁, hs₁, hk₁⟩ := hkey j r₁ h₁
  obtain ⟨s₂, hs₂, hk₂⟩ := hkey j' r₂ h₂
  exact hd j hj j' hj' s₁ s₂ hs₁ hs₂ (by rw [hk₁, hk₂, hk])

end Update

section Access

variable {κ ρ : Type*} {hash : κ → ℕ} {key : ρ → κ} {t : Table ρ}

theorem Table.mem_of_get (h : t.Wf hash key) {i : ℕ} {r : ρ} (hg : t.get i = some r) :
    t.Mem r := by
  rw [Table.get_eq_some] at hg
  exact ⟨i, h.lt_cap hg, hg⟩

theorem Table.get_of_mem {r : ρ} (hm : t.Mem r) : ∃ i, t.get i = some r := by
  obtain ⟨i, -, hs⟩ := hm
  exact ⟨i, Table.get_eq_some.2 hs⟩

/-- A table with distinct keys, each of them a key of `t'`, holds no more records than `t'`. -/
theorem Table.count_le {t' : Table ρ} (h : t.Wf hash key) (hd : t.Distinct key)
    (h' : t'.Wf hash key) (hsub : ∀ r, t.Mem r → ∃ r', t'.Mem r' ∧ key r' = key r) :
    t.count ≤ t'.count := by
  have hholds : ∀ s : Slot ρ, s.holds (fun _ => true) = true → ∃ r, s = .used r := by
    intro s hs
    cases s with
    | used r => exact ⟨r, rfl⟩
    | _ => cases hs
  have hplace : ∀ i, ∃ j, ∀ r, t.slots i = .used r →
      j < t'.cap ∧ ∃ r', t'.slots j = .used r' ∧ key r' = key r := by
    intro i
    rcases hs : t.slots i with _ | _ | r
    · exact ⟨0, fun _ hr => (nomatch hr)⟩
    · exact ⟨0, fun _ hr => (nomatch hr)⟩
    · obtain ⟨r', ⟨j, hj, hjs⟩, hk⟩ := hsub r ⟨i, h.lt_cap hs, hs⟩
      refine ⟨j, fun r₁ hr => ?_⟩
      cases hr
      exact ⟨hj, r', hjs, hk⟩
  choose g hg using hplace
  rw [h.count_eq, h'.count_eq, Table.countIf, Table.countIf, tally, tally,
    Nat.count_eq_card_filter_range, Nat.count_eq_card_filter_range]
  refine Finset.card_le_card_of_injOn g (fun i hi => ?_) fun i hi j hj hij => ?_
  · obtain ⟨-, hi⟩ := Finset.mem_filter.1 hi
    obtain ⟨r, hr⟩ := hholds _ hi
    obtain ⟨hlt, r', hr', -⟩ := hg i r hr
    exact Finset.mem_coe.2 (Finset.mem_filter.2 ⟨Finset.mem_range.2 hlt, by rw [hr']; rfl⟩)
  · obtain ⟨hic, hi⟩ := Finset.mem_filter.1 (Finset.mem_coe.1 hi)
    obtain ⟨hjc, hj⟩ := Finset.mem_filter.1 (Finset.mem_coe.1 hj)
    obtain ⟨r, hr⟩ := hholds _ hi
    obtain ⟨q, hq⟩ := hholds _ hj
    obtain ⟨-, r', hr', hkr⟩ := hg i r hr
    obtain ⟨-, q', hq', hkq⟩ := hg j q hq
    rw [hij, hq'] at hr'
    cases hr'
    exact hd i (Finset.mem_range.1 hic) j (Finset.mem_range.1 hjc) r q hr hq (hkr.symm.trans hkq)

theorem Table.get_modify_self {i : ℕ} {r : ρ} (hg : t.get i = some r) (f) :
    (t.modify i f).get i = some (f r) := by
  rw [Table.get_eq_some] at hg ⊢
  rw [Table.modify_eq hg]
  simp

theorem Table.modify_modify (i : ℕ) (f g) : (t.modify i f).modify i g = t.modify i (g ∘ f) := by
  rcases hs : t.slots i with _ | _ | r
  · simp only [Table.modify, hs]
  · simp only [Table.modify, hs]
  · rw [Table.modify_eq hs, Table.modify_eq hs, Table.modify_eq (r := f r) (by simp)]
    simp

theorem Table.modify_id_of_get {i : ℕ} {r : ρ} (hg : t.get i = some r) {f} (hf : f r = r) :
    t.modify i f = t := by
  rw [Table.get_eq_some] at hg
  rw [Table.modify_eq hg, hf, ← hg, update_eq_self]

theorem Table.get_modify_of_ne {i j : ℕ} (h : j ≠ i) (f) : (t.modify i f).get j = t.get j := by
  unfold Table.modify
  split
  · simp [Table.get, h]
  · rfl

/-- With or without two records of one key, a record after a change is the changed one or was
there. -/
theorem Table.get_modify {i j : ℕ} {f} {r : ρ} (hg : (t.modify i f).get j = some r) :
    t.get j = some r ∨ ∃ r₀, t.get i = some r₀ ∧ r = f r₀ := by
  rcases hs : t.slots i with _ | _ | r₀
  · exact .inl (by simpa only [Table.modify, hs] using hg)
  · exact .inl (by simpa only [Table.modify, hs] using hg)
  · rw [Table.modify_eq hs, Table.get_eq_some] at hg
    by_cases hj : j = i
    · subst hj
      simp only [update_self, Slot.used.injEq] at hg
      exact .inr ⟨r₀, Table.get_eq_some.2 hs, hg.symm⟩
    · simp only [update_of_ne hj] at hg
      exact .inl (Table.get_eq_some.2 hg)

theorem Table.get_remove {i j : ℕ} {r : ρ} (hg : (t.remove i).get j = some r) :
    t.get j = some r := by
  rcases hs : t.slots i with _ | _ | r₀
  · simpa only [Table.remove, hs] using hg
  · simpa only [Table.remove, hs] using hg
  · rw [Table.remove_eq hs, Table.get_eq_some] at hg
    by_cases hj : j = i
    · subst hj
      simp at hg
    · simp only [update_of_ne hj] at hg
      exact Table.get_eq_some.2 hg

variable [DecidableEq κ]

theorem probe_update {slots} {i : ℕ} {r r' : ρ} (hs : slots i = .used r) (hk : key r' = key r)
    (mask : ℕ) (k : κ) : ∀ n j,
    probe key (update slots i (.used r')) mask k n j = probe key slots mask k n j
  | 0, _ => rfl
  | n + 1, j => by
    have ih := probe_update hs hk mask k n
    by_cases hj : j = i
    · subst hj
      simp only [probe, update_self, hs, hk, ih]
    · simp only [probe, update_of_ne hj, ih]

theorem Table.find_modify (i : ℕ) {f} (hf : ∀ r, key (f r) = key r) (k : κ) :
    (t.modify i f).find hash key k = t.find hash key k := by
  rcases hs : t.slots i with _ | _ | r
  · simp only [Table.modify, hs]
  · simp only [Table.modify, hs]
  · rw [Table.modify_eq hs]
    simp only [Table.find, probe_update hs (hf r)]

theorem Table.lookup_modify (h : t.Wf hash key) (hd : t.Distinct key) {i : ℕ} {r : ρ}
    (hg : t.get i = some r) {f} (hf : ∀ r, key (f r) = key r) (k : κ) :
    (t.modify i f).lookup hash key k
      = if k = key r then some (f r) else t.lookup hash key k := by
  rw [Table.get_eq_some] at hg
  have h' := h.modify i hf
  have hd' := hd.modify i hf
  split_ifs with hk
  · rw [Table.lookup_eq_some h' hd', Table.mem_modify h hd hg]
    exact ⟨.inl rfl, (hf r).trans hk.symm⟩
  · refine Table.lookup_congr h hd h' hd' fun r' hr' => ?_
    subst hr'
    rw [Table.mem_modify h hd hg]
    refine ⟨fun hm => ?_, fun hm => .inr ⟨hm, hk⟩⟩
    rcases hm with rfl | hm
    · exact absurd (hf r) hk
    · exact hm.1

/-- A removal, as the searches see it. -/
theorem Table.lookup_remove (h : t.Wf hash key) (hd : t.Distinct key) {i : ℕ} {r : ρ}
    (hg : t.get i = some r) (k : κ) :
    (t.remove i).lookup hash key k = if k = key r then none else t.lookup hash key k := by
  rw [Table.get_eq_some] at hg
  have h' := h.remove i
  have hd' := hd.remove i
  split_ifs with hk
  · rw [Table.lookup_eq_none h']
    intro r' hm
    rw [hk]
    exact ((Table.mem_remove h hd hg r').1 hm).2
  · refine Table.lookup_congr h hd h' hd' fun r' hr' => ?_
    subst hr'
    rw [Table.mem_remove h hd hg]
    exact ⟨fun hm => hm.1, fun hm => ⟨hm, hk⟩⟩

theorem Table.lookup_of_mem_iff {t' : Table ρ} (h : t.Wf hash key) (hd : t.Distinct key)
    (h' : t'.Wf hash key) (hd' : t'.Distinct key) {r : ρ}
    (hm : ∀ r', t'.Mem r' ↔ r' = r ∨ t.Mem r') (k : κ) :
    t'.lookup hash key k = if k = key r then some r else t.lookup hash key k := by
  split_ifs with hk
  · rw [Table.lookup_eq_some h' hd', hm]
    exact ⟨.inl rfl, hk.symm⟩
  · refine Table.lookup_congr h hd h' hd' fun r' hr' => ?_
    subst hr'
    rw [hm]
    refine ⟨fun hm' => ?_, .inr⟩
    rcases hm' with rfl | hm'
    · exact absurd rfl hk
    · exact hm'

end Access

section Rehash

variable {κ ρ : Type*} {hash : κ → ℕ} {key : ρ → κ} {slots : ℕ → Slot ρ} {cap : ℕ}

theorem rehash_zero : rehash hash key slots (cap - 1) 0 = fun _ => .empty := rfl

theorem rehash_succ (n : ℕ) :
    rehash hash key slots (cap - 1) (n + 1) = match slots n with
      | .used r => place (rehash hash key slots (cap - 1) n) (cap - 1) r (cap - 1 + 1)
          (hash (key r) &&& (cap - 1))
      | _ => rehash hash key slots (cap - 1) n := by
  simp only [rehash, range_succ, foldl_append, foldl_cons, foldl_nil]

/-- What rehashing the first `n` slots builds, as long as they fit: their records and no others,
each counted once and reached from its home, and no tombstones. -/
structure Rehashed (hash : κ → ℕ) (key : ρ → κ) (slots : ℕ → Slot ρ) (cap n : ℕ)
    (nt : ℕ → Slot ρ) : Prop where
  beyond : ∀ i, cap ≤ i → nt i = .empty
  tally_eq : ∀ q, tally (Slot.holds q) nt cap = tally (Slot.holds q) slots n
  no_tomb : ∀ i, nt i ≠ .tomb
  chain : Chained hash key nt cap
  mem : ∀ r, (∃ j < cap, nt j = .used r) ↔ ∃ i < n, slots i = .used r
  distinct : (∀ i < n, ∀ j < n, ∀ r r', slots i = .used r → slots j = .used r' →
    key r = key r' → i = j) → ∀ i < cap, ∀ j < cap, ∀ r r', nt i = .used r → nt j = .used r' →
    key r = key r' → i = j

/-- The loop of the rehash, after `n` of the old slots. -/
theorem rehash_spec (hp : ∃ m, cap = 2 ^ m) :
    ∀ n, tally (Slot.holds fun _ => true) slots n < cap →
      Rehashed hash key slots cap n (rehash hash key slots (cap - 1) n)
  | 0, _ => by
    rw [rehash_zero]
    refine ⟨fun _ _ => rfl, fun q => ?_, by simp, fun i _ r h => by simp at h, by simp,
      fun _ i _ j _ r r' h => by simp at h⟩
    rw [tally_eq_zero fun i _ => rfl]
    simp [tally]
  | n + 1, hlt => by
    have hcap := pos_of_pow hp
    rw [tally_succ] at hlt
    have ih := rehash_spec hp n (by omega)
    rw [rehash_succ]
    rcases hs : slots n with _ | _ | r
    -- an empty slot and a tombstone add nothing
    case empty | tomb =>
      refine ⟨ih.beyond, fun q => ?_, ih.no_tomb, ih.chain, fun r => ?_, fun hd => ?_⟩
      · rw [ih.tally_eq, tally_succ, hs]
        rfl
      · rw [ih.mem]
        constructor
        · rintro ⟨i, hi, h⟩
          exact ⟨i, by omega, h⟩
        · rintro ⟨i, hi, h⟩
          have : i ≠ n := by
            rintro rfl
            rw [hs] at h
            cases h
          exact ⟨i, by omega, h⟩
      · exact ih.distinct fun i hi j hj => hd i (by omega) j (by omega)
    -- a record goes to the first free slot of its chain
    case used =>
      set nt := rehash hash key slots (cap - 1) n
      have hfree : tally (Slot.holds fun _ => true) nt cap + tally Slot.isTomb nt cap < cap := by
        rw [ih.tally_eq, tally_eq_zero (P := Slot.isTomb)]
        · omega
        · intro i _
          have := ih.no_tomb i
          rcases hi : nt i with _ | _ | _ <;> simp_all [Slot.isTomb]
      obtain ⟨i, hi, he⟩ := exists_empty hfree
      obtain ⟨q, hq, rfl⟩ := exists_offset hi (hash (key r))
      obtain ⟨d, -, hdq, hpl, hn, hne⟩ :=
        place_eq r hp (hash (key r)) he cap 0 (Nat.zero_le _) (by omega)
      have hj := Nat.mod_lt (hash (key r) + d) hcap
      rw [Nat.add_zero, ← and_mask hp] at hpl
      simp only [show cap - 1 + 1 = cap by omega, hpl]
      refine ⟨fun i hi => ?_, fun q => ?_, fun i => ?_, ?_, fun r' => ?_, fun hd => ?_⟩
      · rw [update_of_ne (by omega)]
        exact ih.beyond i hi
      · have := tally_update (Slot.holds q) nt _ (.used r) hj
        rw [tally_succ, hs, ← ih.tally_eq]
        rcases hnj : nt ((hash (key r) + d) % cap) with _ | _ | r''
        · rw [hnj] at this
          simpa [Slot.holds] using this
        · rw [hnj] at this
          simpa [Slot.holds] using this
        · exact absurd hnj (hn r'')
      · rw [update_apply]
        split_ifs
        · simp
        · exact ih.no_tomb i
      · refine ih.chain.update (by simp) fun r' hr' => ?_
        cases hr'
        exact ⟨d, by omega, rfl, fun p hp => hne p (Nat.zero_le _) hp⟩
      · rw [mem_update_used hj hn, ih.mem]
        constructor
        · rintro (rfl | ⟨i, hi, h⟩)
          · exact ⟨n, by omega, hs⟩
          · exact ⟨i, by omega, h⟩
        · rintro ⟨i, hi, h⟩
          rcases Nat.lt_succ_iff_lt_or_eq.1 hi with hi | rfl
          · exact .inr ⟨i, hi, h⟩
          · rw [hs] at h
            cases h
            exact .inl rfl
      · -- a record of the same key already placed would be another slot of the old table
        have hold : ∀ j < cap, ∀ r', nt j = .used r' → key r' ≠ key r := by
          intro j hj' r' hr' hk
          obtain ⟨i, hi, hi'⟩ := (ih.mem r').1 ⟨j, hj', hr'⟩
          have := hd i (by omega) n (by omega) r' r hi' hs hk
          omega
        intro i hi j hj' r₁ r₂ h₁ h₂ hk
        rw [update_apply] at h₁ h₂
        split_ifs at h₁ h₂ with e₁ e₂ e₂
        · exact e₁.trans e₂.symm
        · cases h₁
          exact absurd hk.symm (hold j hj' r₂ h₂)
        · cases h₂
          exact absurd hk (hold i hi r₁ h₁)
        · exact ih.distinct (fun i hi j hj => hd i (by omega) j (by omega)) i hi j hj' r₁ r₂ h₁ h₂
            hk

theorem Table.Wf.rehashed {t : Table ρ} (hc : t.count = t.countIf fun _ => true)
    (hp : ∃ m, cap = 2 ^ m) (hlt : t.count < cap) :
    (t.rehashed hash key cap).Wf hash key := by
  rw [hc] at hlt
  have hr : Rehashed hash key t.slots cap t.cap _ := rehash_spec hp t.cap hlt
  refine ⟨hp, hr.beyond, hc.trans (hr.tally_eq _).symm, ?_, ?_, hr.chain⟩
  · refine (tally_eq_zero fun i _ => ?_).symm
    have := hr.no_tomb i
    unfold Table.rehashed
    rcases hi : rehash hash key t.slots (cap - 1) t.cap i with _ | _ | _ <;>
      simp_all [Slot.isTomb]
  · simpa [Table.rehashed, hc] using hlt

end Rehash

section Home

variable {κ ρ : Type*} {hash : κ → ℕ} {key : ρ → κ} {t : Table ρ} {r r' : ρ} {j : ℕ}

/-- The table holds `r`, in its home slot, and nothing else. -/
structure Table.Single (hash : κ → ℕ) (key : ρ → κ) (t : Table ρ) (r : ρ) : Prop where
  wf : t.Wf hash key
  home : t.slots (hash (key r) % t.cap) = .used r
  single : ∀ i r', t.slots i = .used r' → i = hash (key r) % t.cap
  count_eq : t.count = 1

/-- The table holds `r`, in its home slot, and `r'`, in slot `j`. -/
structure Table.Double (hash : κ → ℕ) (key : ρ → κ) (t : Table ρ) (r : ρ) (j : ℕ) (r' : ρ) :
    Prop where
  wf : t.Wf hash key
  home : t.slots (hash (key r) % t.cap) = .used r
  other : t.slots j = .used r'
  other_ne : j ≠ hash (key r) % t.cap
  double : ∀ i r'', t.slots i = .used r'' → i = hash (key r) % t.cap ∨ i = j
  count_eq : t.count = 2

theorem Table.Wf.single (h : t.Wf hash key) (hc : t.count = 1)
    (hs : t.slots (hash (key r) % t.cap) = .used r) : t.Single hash key r := by
  refine ⟨h, hs, fun i r' hu => ?_, hc⟩
  by_contra hne
  have hcount := Table.countIf_remove h hs fun _ => true
  have hpos : 0 < (t.remove (hash (key r) % t.cap)).countIf fun _ => true := by
    rw [Table.remove_eq hs]
    refine tally_pos (h.lt_cap hu) ?_
    dsimp only
    rw [update_of_ne hne, hu]
    rfl
  rw [← h.count_eq, hc] at hcount
  simp only [Bool.toNat_true] at hcount
  omega

theorem Table.Single.insert (h : t.Single hash key r) (hroom : t.count + t.tombs + 1 < t.cap)
    (r' : ρ) : ∃ t' j, t.insert hash key r' = (t', some j) ∧ t'.Double hash key r j r' := by
  have hwf := h.wf.insert hroom r'
  obtain ⟨d, -, b, hi, hs, -⟩ := Table.insert_spec h.wf r'
  rw [hi] at hwf
  have hne : (hash (key r') + d) % t.cap ≠ hash (key r) % t.cap := by
    intro heq
    rw [heq, h.home] at hs
    cases b <;> cases hs
  refine ⟨_, _, hi, hwf, ?_, update_self .., hne, fun i r'' hu => ?_,
    congrArg (· + 1) h.count_eq⟩
  · exact (update_of_ne hne.symm ..).trans h.home
  · dsimp only at hu
    by_cases hij : i = (hash (key r') + d) % t.cap
    · exact .inr hij
    · rw [update_of_ne hij] at hu
      exact .inl (h.single i r'' hu)

theorem Table.Single.rehashed (h : t.Single hash key r) {cap : ℕ} (hp : ∃ m, cap = 2 ^ m)
    (hlt : 1 < cap) : (t.rehashed hash key cap).Single hash key r := by
  have hwf : (t.rehashed hash key cap).Wf hash key := Table.Wf.rehashed h.wf.count_eq hp
    (by rw [h.count_eq]; exact hlt)
  have hr : Rehashed hash key t.slots cap t.cap (t.rehashed hash key cap).slots :=
    rehash_spec hp t.cap (by rw [← Table.countIf, ← h.wf.count_eq, h.count_eq]; exact hlt)
  have hmem : ∀ i r', (t.rehashed hash key cap).slots i = .used r' → r' = r := by
    intro i r' hu
    obtain ⟨k, -, hk⟩ := (hr.mem r').1 ⟨i, hwf.lt_cap hu, hu⟩
    have := h.home
    rw [← h.single k r' hk, hk] at this
    cases this
    rfl
  have hdist :=
    hr.distinct fun i _ k _ r₁ r₂ h₁ h₂ _ => (h.single i _ h₁).trans (h.single k _ h₂).symm
  obtain ⟨i, hi, hu⟩ := (hr.mem r).2 ⟨_, h.wf.lt_cap h.home, h.home⟩
  -- no slot of its chain is empty, and there is no other record and no tombstone
  have hhome : (t.rehashed hash key cap).slots (hash (key r) % cap) = .used r := by
    obtain ⟨d, -, hd, hne⟩ := hr.chain i hi r hu
    rcases Nat.eq_zero_or_pos d with rfl | hpos
    · rwa [← hd] at hu
    · have h0 := hne 0 hpos
      rw [Nat.add_zero] at h0
      rcases hs : (t.rehashed hash key cap).slots (hash (key r) % cap) with _ | _ | r'
      · exact absurd hs h0
      · exact absurd hs (hr.no_tomb _)
      · rw [hmem _ _ hs]
  refine ⟨hwf, hhome, fun k r' hk => ?_, h.count_eq⟩
  exact hdist k (hwf.lt_cap hk) _ (hwf.lt_cap hhome) r' r hk hhome (by rw [hmem k r' hk])

theorem Table.Double.remove_other (h : t.Double hash key r j r') :
    (t.remove j).Single hash key r := by
  have hwf := h.wf.remove j
  rw [Table.remove_eq h.other] at hwf ⊢
  refine ⟨hwf, (update_of_ne h.other_ne.symm ..).trans h.home, fun i r'' hu => ?_,
    by rw [h.count_eq]⟩
  dsimp only at hu
  by_cases hij : i = j
  · rw [hij, update_self] at hu
    cases hu
  · rw [update_of_ne hij] at hu
    exact (h.double i r'' hu).resolve_right hij

theorem Table.Double.modify_home (h : t.Double hash key r j r') {f} (hf : ∀ r, key (f r) = key r) :
    (t.modify (hash (key r) % t.cap) f).Double hash key (f r) j r' := by
  have hwf := h.wf.modify (hash (key r) % t.cap) hf
  rw [Table.modify_eq h.home] at hwf ⊢
  refine ⟨hwf, ?_, (update_of_ne h.other_ne ..).trans h.other, ?_, fun i r'' hu => ?_,
    h.count_eq⟩
  · rw [hf]
    exact update_self ..
  · rw [hf]
    exact h.other_ne
  · dsimp only at hu
    rw [hf]
    by_cases hij : i = hash (key r) % t.cap
    · exact .inl hij
    · rw [update_of_ne hij] at hu
      exact h.double i r'' hu

variable [DecidableEq κ]

theorem Table.find_home (h : t.Wf hash key) (hs : t.slots (hash (key r) % t.cap) = .used r) :
    t.find hash key (key r) = some (hash (key r) % t.cap) := by
  obtain ⟨n, hn⟩ : ∃ n, t.cap = n + 1 := Nat.exists_eq_succ_of_ne_zero (pos_of_pow h.pow).ne'
  rw [Table.find_eq h, hn, probe, ← hn, Nat.add_zero, hs]
  exact if_pos rfl

theorem Table.Double.find_other (h : t.Double hash key r j r') (hne : key r' ≠ key r) :
    t.find hash key (key r') = some j := by
  obtain ⟨i, hi⟩ := isSome_iff_exists.1
    (Table.find_isSome h.wf ⟨j, h.wf.lt_cap h.other, h.other⟩)
  obtain ⟨-, r'', hs, hk⟩ := Table.find_some h.wf hi
  rcases h.double i r'' hs with rfl | rfl
  · rw [h.home] at hs
    cases hs
    exact absurd hk.symm hne
  · exact hi

theorem Table.Double.find_remove_home (h : t.Double hash key r j r') (hk : key r' = key r) :
    (t.remove (hash (key r) % t.cap)).find hash key (key r) = some j := by
  have hwf := h.wf.remove (hash (key r) % t.cap)
  rw [Table.remove_eq h.home] at hwf ⊢
  have hother : update t.slots (hash (key r) % t.cap) Slot.tomb j = .used r' :=
    (update_of_ne h.other_ne ..).trans h.other
  obtain ⟨i, hi⟩ := isSome_iff_exists.1
    (Table.find_isSome hwf (r := r') ⟨j, hwf.lt_cap hother, hother⟩)
  obtain ⟨-, r'', hs, -⟩ := Table.find_some hwf hi
  dsimp only at hs
  by_cases hij : i = hash (key r) % t.cap
  · rw [hij, update_self] at hs
    cases hs
  · rw [update_of_ne hij] at hs
    rw [hk] at hi
    rw [hi, (h.double i r'' hs).resolve_left hij]

end Home

end LinearProbe
