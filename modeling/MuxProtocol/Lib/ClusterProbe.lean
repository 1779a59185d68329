import Mathlib.Data.Nat.ModEq
import Mathlib.Logic.Function.Iterate
import MuxProtocol.Lib.LinearProbe

/-!
# Linear probing without tombstones

A record is deleted by emptying its slot and writing the records of the slots behind it, up to the
first empty one, again. While this goes on, the table without the records still to be written is a
well-formed one (`Walk`): a record written again finds a slot no later than its own, so that it
neither meets those behind it nor takes the empty slot at the end.
-/

namespace LinearProbe

open Function Slot Table

section Defs

variable {κ ρ : Type*} [DecidableEq κ] (hash : κ → ℕ) (key : ρ → κ)

/-- From slot `i` on, the first slot with a record of `k` or with none, at most `n` slots far. -/
def seek (slots : ℕ → Slot ρ) (mask : ℕ) (k : κ) : ℕ → ℕ → ℕ
  | 0, i => i
  | n + 1, i =>
    match slots i with
    | .used r => if key r = k then i else seek slots mask k n ((i + 1) &&& mask)
    | _ => i

/-- Where the search for `k` ends. -/
def Table.seek (t : Table ρ) (k : κ) : ℕ :=
  LinearProbe.seek key t.slots (t.cap - 1) k t.cap (hash k &&& (t.cap - 1))

/-- Write the record over that of its key, or to the first slot with none. -/
def Table.write (t : Table ρ) (r : ρ) : Table ρ :=
  let i := t.seek hash key (key r)
  match t.slots i with
  | .used r' =>
    if key r' = key r then { t with slots := Function.update t.slots i (.used r) } else t
  | _ => { t with slots := Function.update t.slots i (.used r), count := t.count + 1 }

def Table.read (t : Table ρ) (k : κ) : Option ρ := (t.get (t.seek hash key k)).filter (key · = k)

/-- Without the record of slot `i`. -/
def Table.emptied (t : Table ρ) (i : ℕ) : Table ρ :=
  match t.slots i with
  | .used _ => { t with slots := Function.update t.slots i .empty, count := t.count - 1 }
  | _ => t

variable {key}

/-- A round of the loop that writes the records of a cluster again, unless it is at its end. -/
def reinsertStep (put : Table ρ → ρ → Table ρ) (mask : ℕ) (x : Table ρ × ℕ) : Table ρ × ℕ :=
  match x.1.slots x.2 with
  | .used r => (put (x.1.emptied x.2) r, (x.2 + 1) &&& mask)
  | _ => x

/-- The loop from slot `j` on. -/
def reinsert (put : Table ρ → ρ → Table ρ) (t : Table ρ) (j : ℕ) : Table ρ :=
  ((reinsertStep put (t.cap - 1))^[t.cap] (t, j)).1

end Defs

section Seek

variable {κ ρ : Type*} {hash : κ → ℕ} {key : ρ → κ} {slots : ℕ → Slot ρ} {cap : ℕ} {t : Table ρ}

theorem mod_inj {j u u' : ℕ} (h : (j + u) % cap = (j + u') % cap) (hu : u < cap) (hu' : u' < cap) :
    u = u' :=
  (Nat.ModEq.add_left_cancel' j h).eq_of_lt_of_lt hu hu'

theorem mod_add {a b : ℕ} (h : a % cap = b % cap) (s : ℕ) : (a + s) % cap = (b + s) % cap :=
  Nat.ModEq.add_right s h

theorem Table.Wf.no_tomb (h : t.Wf hash key) (ht : t.tombs = 0) (i : ℕ) : t.slots i ≠ .tomb := by
  intro hi
  by_cases hlt : i < t.cap
  · have hpos : 0 < tally isTomb t.slots t.cap := tally_pos hlt (by rw [hi]; rfl)
    rw [← h.tombs_eq] at hpos
    omega
  · rw [h.beyond i (by omega)] at hi
    cases hi

theorem used_of_ne (h : ∀ i, slots i ≠ .tomb) {i : ℕ} (hi : slots i ≠ .empty) :
    ∃ r, slots i = .used r := by
  rcases hs : slots i with _ | _ | r
  · exact absurd hs hi
  · exact absurd hs (h i)
  · exact ⟨r, rfl⟩

variable [DecidableEq κ] {k : κ}

theorem seek_eq (hp : ∃ n, cap = 2 ^ n) (h : ℕ) {d : ℕ}
    (hs : ∀ r, slots ((h + d) % cap) = .used r → key r = k) :
    ∀ (n p : ℕ), p ≤ d → d < p + n →
      (∀ p', p ≤ p' → p' < d → ∃ r, slots ((h + p') % cap) = .used r ∧ key r ≠ k) →
      seek key slots (cap - 1) k n ((h + p) % cap) = (h + d) % cap
  | 0, p, h1, h2, _ => absurd h2 (by omega)
  | n + 1, p, h1, h2, hne => by
    rw [seek]
    rcases Nat.eq_or_lt_of_le h1 with rfl | hlt
    · split
      · rename_i r hr
        rw [if_pos (hs r hr)]
      · rfl
    · obtain ⟨r, hr, hk⟩ := hne p le_rfl hlt
      rw [hr]
      dsimp only
      rw [if_neg hk, and_next hp, Nat.add_assoc]
      exact seek_eq hp h hs n (p + 1) hlt (by omega) fun p' h3 h4 => hne p' (by omega) h4

theorem Table.seek_eq (hp : ∃ n, t.cap = 2 ^ n) {d : ℕ} (hd : d < t.cap)
    (hs : ∀ r, t.slots ((hash k + d) % t.cap) = .used r → key r = k)
    (hne : ∀ p < d, ∃ r, t.slots ((hash k + p) % t.cap) = .used r ∧ key r ≠ k) :
    t.seek hash key k = (hash k + d) % t.cap := by
  rw [seek, and_mask hp, ← Nat.add_zero (hash k)]
  exact LinearProbe.seek_eq hp (hash k) hs t.cap 0 (Nat.zero_le _) (by omega)
    fun p _ hp => hne p hp

theorem Table.seek_used (h : t.Wf hash key) (ht : t.tombs = 0) (hd : t.Distinct key) {i : ℕ} {r : ρ}
    (hs : t.slots i = .used r) : t.seek hash key (key r) = i := by
  have hi := h.lt_cap hs
  obtain ⟨d, hdc, rfl, hne⟩ := h.chain i hi r hs
  refine seek_eq h.pow hdc (fun r' hr' => ?_) fun p hp => ?_
  · rw [hs] at hr'
    cases hr'
    rfl
  · obtain ⟨r', hr'⟩ := used_of_ne (h.no_tomb ht) (hne p hp)
    refine ⟨r', hr', fun hk => ?_⟩
    have := hd _ (h.lt_cap hr') _ hi r' r hr' hs hk
    exact absurd (mod_inj this (by omega) hdc) (by omega)

/-- The search for a key that is absent ends where its record would be inserted. -/
theorem Table.seek_absent (h : t.Wf hash key) (ht : t.tombs = 0) {r : ρ}
    (hne : ∀ r', t.Mem r' → key r' ≠ key r) :
    t.slots (t.seek hash key (key r)) = .empty
      ∧ t.insert hash key r = ({ t with
          slots := update t.slots (t.seek hash key (key r)) (.used r)
          count := t.count + 1 }, some (t.seek hash key (key r))) := by
  obtain ⟨d, hd, b, hi, hs, hpath⟩ := insert_spec h r
  have hb : b = false := by
    cases b
    · rfl
    · exact absurd hs (h.no_tomb ht _)
  rw [hb] at hs hi
  have hseek : t.seek hash key (key r) = (hash (key r) + d) % t.cap := by
    refine seek_eq h.pow hd (fun r' hr' => ?_) fun p hp => ?_
    · rw [hs] at hr'
      cases hr'
    · obtain ⟨r', hr'⟩ := used_of_ne (h.no_tomb ht) (hpath p hp)
      exact ⟨r', hr', hne r' ⟨_, h.lt_cap hr', hr'⟩⟩
  rw [hseek]
  exact ⟨hs, hi⟩

theorem Table.read_eq (h : t.Wf hash key) (ht : t.tombs = 0) (hd : t.Distinct key) {r : ρ} :
    t.read hash key k = some r ↔ t.Mem r ∧ key r = k := by
  constructor
  · intro hr
    obtain ⟨hg, hk⟩ := Option.filter_eq_some_iff.1 hr
    have hs := get_eq_some.1 hg
    exact ⟨⟨_, h.lt_cap hs, hs⟩, by simpa using hk⟩
  · rintro ⟨⟨i, -, hs⟩, rfl⟩
    rw [read, seek_used h ht hd hs, get_eq_some.2 hs]
    simp

end Seek

section Write

variable {κ ρ : Type*} {hash : κ → ℕ} {key : ρ → κ} {t : Table ρ}

/-- Writing a record counts it unless its key is there. -/
structure Written (hash : κ → ℕ) (key : ρ → κ) (t t' : Table ρ) (r : ρ) : Prop where
  wf : t'.Wf hash key
  tombs : t'.tombs = 0
  distinct : t'.Distinct key
  cap : t'.cap = t.cap
  count : t'.count ≤ t.count + 1
  mem : ∀ r', t'.Mem r' ↔ r' = r ∨ t.Mem r' ∧ key r' ≠ key r

variable [DecidableEq κ]

/-- A write puts the record where its search ends, and leaves the others. -/
theorem Table.write_spec (h : t.Wf hash key) (ht : t.tombs = 0) (hd : t.Distinct key)
    (hroom : t.count + 1 < t.cap) (r : ρ) : Written hash key t (t.write hash key r) r := by
  by_cases hr : ∃ r', t.Mem r' ∧ key r' = key r
  · obtain ⟨r', ⟨i, hi, hs⟩, hk⟩ := hr
    have hseek : t.seek hash key (key r) = i := hk ▸ seek_used h ht hd hs
    -- the record of the key is changed to this one
    let f : ρ → ρ := fun r' => if key r' = key r then r else r'
    have hf : ∀ r', key (f r') = key r' := by
      intro r'
      by_cases hk : key r' = key r
      · simp only [f, if_pos hk, hk]
      · simp only [f, if_neg hk]
    have hw : t.write hash key r = t.modify i f := by
      rw [modify_eq hs, write, hseek]
      simp only [hs, if_pos hk, f]
    have hcap : (t.modify i f).cap = t.cap ∧ (t.modify i f).count = t.count
        ∧ (t.modify i f).tombs = t.tombs := by
      rw [modify_eq hs]
      exact ⟨rfl, rfl, rfl⟩
    rw [hw]
    refine ⟨h.modify i hf, hcap.2.2.trans ht, hd.modify i hf, hcap.1, by omega, fun r'' => ?_⟩
    rw [mem_modify h hd hs, hk]
    simp only [f, if_pos hk]
  · have hne : ∀ r', t.Mem r' → key r' ≠ key r := fun r' hm hk => hr ⟨r', hm, hk⟩
    obtain ⟨hs, hi⟩ := seek_absent h ht hne
    have hw : t.write hash key r = (t.insert hash key r).1 := by
      rw [hi, write, hs]
    have hins : (t.insert hash key r).1.cap = t.cap ∧ (t.insert hash key r).1.count = t.count + 1
        ∧ (t.insert hash key r).1.tombs = t.tombs := by
      rw [hi]
      exact ⟨rfl, rfl, rfl⟩
    rw [hw]
    refine ⟨h.insert (by omega) r, hins.2.2.trans ht, hd.insert h hne, hins.1, by omega,
      fun r' => ?_⟩
    rw [mem_insert h]
    constructor
    · rintro (rfl | hm)
      · exact .inl rfl
      · exact .inr ⟨hm, hne r' hm⟩
    · rintro (rfl | ⟨hm, -⟩)
      · exact .inl rfl
      · exact .inr hm

end Write

section Walk

variable {κ ρ : Type*} {hash : κ → ℕ} {key : ρ → κ} {t t' : Table ρ} {j n : ℕ} {r : ρ}

theorem Table.emptied_eq {i : ℕ} (h : t.slots i = .used r) : t.emptied i
    = { t with slots := update t.slots i .empty, count := t.count - 1 } := by
  rw [emptied, h]

/-- Without the records of the slots from `j` up to `j + n`. -/
def Table.cleared (t : Table ρ) (j n : ℕ) : Table ρ :=
  { t with
    slots := fun x => if ∃ u < n, (j + u) % t.cap = x then .empty else t.slots x
    count := t.count - n }

/-- The records of the slots from `j` up to `j + n`, where an empty slot is, are still to be
written again. None of them has one of those behind it, or the empty slot, on the way from its
home. -/
structure Walk (hash : κ → ℕ) (key : ρ → κ) (t : Table ρ) (j n : ℕ) : Prop where
  used : ∀ u < n, ∃ r, t.slots ((j + u) % t.cap) = .used r
  stop : t.slots ((j + n) % t.cap) = .empty
  lt : n < t.cap
  le : n ≤ t.count
  room : t.count < t.cap
  tombs : t.tombs = 0
  distinct : t.Distinct key
  route : ∀ u < n, ∀ r, t.slots ((j + u) % t.cap) = .used r →
    ∃ d < t.cap, (hash (key r) + d) % t.cap = (j + u) % t.cap
      ∧ ∀ p < d, ∀ u', u ≤ u' → u' ≤ n → (hash (key r) + p) % t.cap ≠ (j + u') % t.cap
  wf : (t.cleared j n).Wf hash key

namespace Walk

theorem cleared_of_ne {x : ℕ} (hx : ∀ u < n, (j + u) % t.cap ≠ x) :
    (t.cleared j n).slots x = t.slots x :=
  if_neg fun ⟨u, hu, he⟩ => hx u hu he

theorem cleared_ne_empty {x : ℕ} (hx : (t.cleared j n).slots x ≠ .empty) :
    (∀ u < n, (j + u) % t.cap ≠ x) ∧ (t.cleared j n).slots x = t.slots x := by
  have hu : ∀ u < n, (j + u) % t.cap ≠ x := fun u hu he => hx (if_pos ⟨u, hu, he⟩)
  exact ⟨hu, cleared_of_ne hu⟩

theorem wf_of_end (h : Walk hash key t j 0) : t.Wf hash key := by
  have heq : t.cleared j 0 = t := by simp [cleared]
  exact heq ▸ h.wf

/-- The slot where the record at `j` is written again. It is the first empty one on the way of the
record, be it without or with the records behind `j`, as it is none of theirs. -/
structure Landing (hash : κ → ℕ) (key : ρ → κ) (t : Table ρ) (j n : ℕ) (r : ρ) (d : ℕ) : Prop where
  lt : d < t.cap
  insert : ((t.cleared j (n + 1)).insert hash key r).1 = { t.cleared j (n + 1) with
    slots := update (t.cleared j (n + 1)).slots ((hash (key r) + d) % t.cap) (.used r)
    count := t.count - (n + 1) + 1 }
  ne : ∀ u ≤ n, (hash (key r) + d) % t.cap ≠ (j + (u + 1)) % t.cap
  free : (t.emptied (j % t.cap)).slots ((hash (key r) + d) % t.cap) = .empty
  path : ∀ p < d, ∃ r', (t.emptied (j % t.cap)).slots ((hash (key r) + p) % t.cap) = .used r'
    ∧ key r' ≠ key r

theorem landing (h : Walk hash key t j (n + 1)) (hr : t.slots (j % t.cap) = .used r) :
    ∃ d, Landing hash key t j n r d := by
  have hpos : 0 < t.cap := by have := h.lt; omega
  obtain ⟨d₀, hd₀, hj, havoid⟩ := h.route 0 (by omega) r (by simpa using hr)
  obtain ⟨d, hd, b, hi, hs, hpath⟩ := insert_spec h.wf r
  have hb : b = false := by
    cases b
    · rfl
    · exact absurd hs (h.wf.no_tomb h.tombs _)
  rw [hb] at hs hi
  change d < t.cap at hd
  change ∀ p < d, (t.cleared j (n + 1)).slots ((hash (key r) + p) % t.cap) ≠ .empty at hpath
  change (t.cleared j (n + 1)).slots ((hash (key r) + d) % t.cap) = .empty at hs
  -- slot `j` is empty without the records still to be written
  have hle : d ≤ d₀ := by
    by_contra hlt
    exact hpath d₀ (by omega) (if_pos ⟨0, by omega, hj.symm⟩)
  have hne : ∀ u ≤ n, (hash (key r) + d) % t.cap ≠ (j + (u + 1)) % t.cap := by
    intro u hu heq
    rcases Nat.lt_or_eq_of_le hle with hlt | rfl
    · exact havoid d hlt (u + 1) (by omega) (by omega) heq
    · have := mod_inj (hj.symm.trans heq) (by omega) (by have := h.lt; omega)
      omega
  have hkeep : ∀ {x : ℕ}, x ≠ j % t.cap → (∀ u < n, (j + (u + 1)) % t.cap ≠ x) →
      (t.emptied (j % t.cap)).slots x = (t.cleared j (n + 1)).slots x := by
    intro x hx hxu
    have hall : ∀ u < n + 1, (j + u) % t.cap ≠ x := by
      intro u hu
      rcases u with _ | u
      · exact hx.symm
      · exact hxu u (by omega)
    rw [cleared_of_ne hall, emptied_eq hr]
    exact update_of_ne hx ..
  refine ⟨d, hd, congrArg Prod.fst hi, hne, ?_, fun p hp => ?_⟩
  · by_cases hx : (hash (key r) + d) % t.cap = j % t.cap
    · rw [hx, emptied_eq hr]
      exact update_self ..
    · rw [hkeep hx fun u hu => (hne u (by omega)).symm]
      exact hs
  · obtain ⟨hclear, heq⟩ := cleared_ne_empty (hpath p hp)
    have hx : (hash (key r) + p) % t.cap ≠ j % t.cap := (hclear 0 (by omega)).symm
    obtain ⟨r', hr'⟩ := used_of_ne (h.wf.no_tomb h.tombs) (hpath p hp)
    refine ⟨r', (hkeep hx fun u hu => hclear (u + 1) (by omega)).trans hr', fun hk => hx ?_⟩
    exact h.distinct _ (Nat.mod_lt _ hpos) _ (Nat.mod_lt _ hpos) r' r (heq.symm.trans hr') hr hk

theorem used_of_moved {slots : ℕ → Slot ρ} {i s x : ℕ} {r' : ρ}
    (h : update (update slots i .empty) s (.used r) x = .used r') :
    x = s ∧ r' = r ∨ x ≠ i ∧ slots x = .used r' := by
  rw [update_apply] at h
  split_ifs at h with h1
  · cases h
    exact .inl ⟨h1, rfl⟩
  · rw [update_apply] at h
    split_ifs at h with h2
    exact .inr ⟨h2, h⟩

variable [DecidableEq κ]

theorem write_eq {d : ℕ} (h : Walk hash key t j (n + 1)) (hr : t.slots (j % t.cap) = .used r)
    (hl : Landing hash key t j n r d) : (t.emptied (j % t.cap)).write hash key r = { t with
      slots := update (update t.slots (j % t.cap) .empty)
        ((hash (key r) + d) % t.cap) (.used r) } := by
  have hcap : (t.emptied (j % t.cap)).cap = t.cap := by rw [emptied_eq hr]
  have hseek : (t.emptied (j % t.cap)).seek hash key (key r) = (hash (key r) + d) % t.cap := by
    have hfree := hl.free
    have hpath := hl.path
    have hlt := hl.lt
    have hpow : ∃ n, t.cap = 2 ^ n := h.wf.pow
    generalize t.emptied (j % t.cap) = t₁ at hcap hfree hpath ⊢
    rw [← hcap] at hfree hpath hlt hpow ⊢
    exact Table.seek_eq hpow hlt (fun r' hr' => by rw [hfree] at hr'; cases hr') hpath
  have hle := h.le
  rw [write, hseek, hl.free, emptied_eq hr]
  dsimp only
  congr 1
  omega

theorem behind (h : Walk hash key t j (n + 1)) (hr : t.slots (j % t.cap) = .used r) {u : ℕ}
    (hu : u ≤ n) : ((t.emptied (j % t.cap)).write hash key r).slots ((j + (u + 1)) % t.cap)
      = t.slots ((j + (u + 1)) % t.cap) := by
  obtain ⟨d, hl⟩ := h.landing hr
  have hlt := h.lt
  have hgap : (j + (u + 1)) % t.cap ≠ j % t.cap := by
    intro heq
    have : u + 1 = 0 := mod_inj heq (by omega) (by omega)
    omega
  rw [h.write_eq hr hl]
  dsimp only
  rw [update_of_ne (hl.ne u hu).symm, update_of_ne hgap]

/-- A round of the walk: the next record is taken out and written again. -/
theorem step (h : Walk hash key t j (n + 1)) (hr : t.slots (j % t.cap) = .used r) :
    Walk hash key ((t.emptied (j % t.cap)).write hash key r) (j + 1) n := by
  obtain ⟨d, hl⟩ := h.landing hr
  have hle := h.le
  have hlt := h.lt
  have hpos : 0 < t.cap := by omega
  have hback : ∀ u, j + 1 + u = j + (u + 1) := by omega
  have hsame : ∀ u ≤ n, ((t.emptied (j % t.cap)).write hash key r).slots ((j + 1 + u) % t.cap)
      = t.slots ((j + (u + 1)) % t.cap) := by
    intro u hu
    rw [hback]
    exact h.behind hr hu
  rw [h.write_eq hr hl] at hsame ⊢
  dsimp only at hsame
  have hother : ∀ {i : ℕ} {r' : ρ}, i < t.cap → i ≠ j % t.cap → t.slots i = .used r' →
      key r' ≠ key r := by
    intro i r' hi hij hir hk
    exact hij (h.distinct i hi _ (Nat.mod_lt _ hpos) r' r hir hr hk)
  refine ⟨fun u hu => ?_, ?_, by simp only; omega, by simp only; omega, h.room, h.tombs, ?_,
    fun u hu r' hr' => ?_, ?_⟩
  · dsimp only
    rw [hsame u (by omega)]
    exact h.used (u + 1) (by omega)
  · exact (hsame n le_rfl).trans h.stop
  · intro i hi i' hi' r₁ r₂ h₁ h₂ hk
    rcases used_of_moved h₁ with ⟨e₁, g₁⟩ | ⟨e₁, g₁⟩
    · rcases used_of_moved h₂ with ⟨e₂, -⟩ | ⟨e₂, g₂⟩
      · exact e₁.trans e₂.symm
      · exact absurd (g₁ ▸ hk.symm) (hother hi' e₂ g₂)
    · rcases used_of_moved h₂ with ⟨-, g₂⟩ | ⟨-, g₂⟩
      · exact absurd (g₂ ▸ hk) (hother hi e₁ g₁)
      · exact h.distinct i hi i' hi' r₁ r₂ g₁ g₂ hk
  · dsimp only at hr' ⊢
    rw [hsame u (by omega)] at hr'
    obtain ⟨d', hd', heq, havoid⟩ := h.route (u + 1) (by omega) r' hr'
    refine ⟨d', hd', by rw [heq, hback], fun p hp u' h1 h2 => ?_⟩
    rw [hback]
    exact havoid p hp (u' + 1) (by omega) (by omega)
  · -- written again, the record is inserted into the table without those still to be written
    have hins := h.wf.insert (by simp only [cleared]; have := h.tombs; have := h.room; omega) r
    rw [hl.insert] at hins
    have hslots : (fun x => if ∃ u < n, (j + 1 + u) % t.cap = x then .empty
        else update (update t.slots (j % t.cap) .empty)
          ((hash (key r) + d) % t.cap) (.used r) x)
        = update (t.cleared j (n + 1)).slots ((hash (key r) + d) % t.cap) (.used r) := by
      funext x
      by_cases hx : x = (hash (key r) + d) % t.cap
      · subst hx
        have hno : ¬∃ u < n, (j + 1 + u) % t.cap = (hash (key r) + d) % t.cap := by
          rintro ⟨u, hu, heq⟩
          rw [hback] at heq
          exact hl.ne u (by omega) heq.symm
        rw [if_neg hno, update_self, update_self]
      · rw [update_of_ne hx, update_of_ne hx]
        by_cases hu : ∃ u < n, (j + 1 + u) % t.cap = x
        · obtain ⟨u, hu, heq⟩ := hu
          rw [if_pos ⟨u, hu, heq⟩]
          exact (if_pos ⟨u + 1, by omega, by rw [← hback]; exact heq⟩).symm
        · rw [if_neg hu]
          by_cases hxj : x = j % t.cap
          · subst hxj
            rw [update_self]
            exact (if_pos ⟨0, by omega, rfl⟩).symm
          · rw [update_of_ne hxj]
            refine (cleared_of_ne fun u hu' heq => ?_).symm
            rcases u with _ | u
            · exact hxj heq.symm
            · exact hu ⟨u, by omega, by rw [hback]; exact heq⟩
    have hcount : t.count - n = t.count - (n + 1) + 1 := by omega
    unfold cleared at hins ⊢
    dsimp only at hins ⊢
    rw [hslots, hcount]
    exact hins

/-- A round of the walk moves a record, and loses none. -/
theorem mem_step (h : Walk hash key t j (n + 1)) (hr : t.slots (j % t.cap) = .used r) (r' : ρ) :
    ((t.emptied (j % t.cap)).write hash key r).Mem r' ↔ t.Mem r' := by
  obtain ⟨d, hl⟩ := h.landing hr
  have hpos : 0 < t.cap := by have := h.lt; omega
  rw [h.write_eq hr hl]
  constructor
  · rintro ⟨x, hx, hs⟩
    rcases used_of_moved hs with ⟨-, rfl⟩ | ⟨-, hs⟩
    · exact ⟨_, Nat.mod_lt _ hpos, hr⟩
    · exact ⟨x, hx, hs⟩
  · rintro ⟨x, hx, hs⟩
    by_cases hxj : x = j % t.cap
    · subst hxj
      rw [hr] at hs
      cases hs
      exact ⟨_, Nat.mod_lt _ hpos, update_self ..⟩
    · refine ⟨x, hx, ?_⟩
      have hfree := hl.free
      rw [emptied_eq hr] at hfree
      have hne : x ≠ (hash (key r) + d) % t.cap := by
        rintro rfl
        dsimp only at hfree
        rw [update_of_ne hxj, hs] at hfree
        cases hfree
      dsimp only
      rw [update_of_ne hne, update_of_ne hxj, hs]

theorem size_step (h : Walk hash key t j (n + 1)) (hr : t.slots (j % t.cap) = .used r) :
    ((t.emptied (j % t.cap)).write hash key r).cap = t.cap
      ∧ ((t.emptied (j % t.cap)).write hash key r).count = t.count := by
  obtain ⟨d, hl⟩ := h.landing hr
  rw [h.write_eq hr hl]
  exact ⟨rfl, rfl⟩

/-! ### The loop -/

variable {put : Table ρ → ρ → Table ρ}

/-- After `u` rounds, of the loop that began with `t` at `j`. -/
structure After (hash : κ → ℕ) (key : ρ → κ) (t : Table ρ) (j n u : ℕ) (x : Table ρ × ℕ) :
    Prop where
  walk : Walk hash key x.1 (j + u) (n - u)
  slot : x.2 = (j + u) % t.cap
  cap : x.1.cap = t.cap
  count : x.1.count = t.count
  mem : ∀ r, x.1.Mem r ↔ t.Mem r
  ahead : ∀ v, u ≤ v → v ≤ n → x.1.slots ((j + v) % t.cap) = t.slots ((j + v) % t.cap)

/-- A round of the loop is a round of the walk. -/
theorem After.next {u : ℕ} {x} (hput : ∀ t' r, t'.cap = t.cap → t'.count < t.count →
    put t' r = t'.write hash key r) (h : After hash key t j n u x) (hu : u < n) :
    After hash key t j n (u + 1) (reinsertStep put (t.cap - 1) x) := by
  obtain ⟨t₁, i⟩ := x
  obtain ⟨hw, hslot, hcap, hcount, hmem, hahead⟩ := h
  dsimp only at hw hslot hcap hcount hmem hahead
  subst hslot
  obtain ⟨m, hm⟩ : ∃ m, n - u = m + 1 := ⟨n - u - 1, by omega⟩
  rw [hm] at hw
  obtain ⟨r, hr⟩ := hw.used 0 (by omega)
  rw [Nat.add_zero] at hr
  have hle := hw.le
  have hpow : ∃ n, t.cap = 2 ^ n := hcap ▸ hw.wf.pow
  have hsize := hw.size_step hr
  have hemp : (t₁.emptied ((j + u) % t₁.cap)).cap = t₁.cap
      ∧ (t₁.emptied ((j + u) % t₁.cap)).count = t₁.count - 1 := by
    rw [emptied_eq hr]
    exact ⟨rfl, rfl⟩
  have hx : reinsertStep put (t.cap - 1) (t₁, (j + u) % t.cap)
      = ((t₁.emptied ((j + u) % t₁.cap)).write hash key r, (j + (u + 1)) % t.cap) := by
    rw [reinsertStep]
    dsimp only
    rw [← hcap, hr]
    dsimp only
    rw [hput _ _ (hemp.1.trans hcap) (by omega), hcap, and_next hpow, Nat.add_assoc]
  rw [hx]
  refine ⟨?_, rfl, hsize.1.trans hcap, hsize.2.trans hcount,
    fun r' => (hw.mem_step hr r').trans (hmem r'), fun v h1 h2 => ?_⟩
  · have := hw.step hr
    rwa [show m = n - (u + 1) by omega] at this
  · have hb := hw.behind hr (u := v - (u + 1)) (by omega)
    rw [show j + u + (v - (u + 1) + 1) = j + v by omega] at hb
    have ha := hahead v (by omega) h2
    rw [← hcap] at ha ⊢
    exact hb.trans ha

theorem after (hput : ∀ t' r, t'.cap = t.cap → t'.count < t.count →
    put t' r = t'.write hash key r) (h : Walk hash key t j n) :
    ∀ u ≤ n, After hash key t j n u ((reinsertStep put (t.cap - 1))^[u] (t, j % t.cap))
  | 0, _ => ⟨h, rfl, rfl, rfl, fun _ => Iff.rfl, fun _ _ _ => rfl⟩
  | u + 1, hu => by
    rw [iterate_succ_apply']
    exact (after hput h u (by omega)).next hput hu

theorem reinsert_spec (hput : ∀ t' r, t'.cap = t.cap → t'.count < t.count →
    put t' r = t'.write hash key r) (h : Walk hash key t j n) :
    After hash key t j n n (reinsert put t (j % t.cap), (j + n) % t.cap) := by
  have hlast := h.after hput n le_rfl
  generalize hx : (reinsertStep put (t.cap - 1))^[n] (t, j % t.cap) = x at hlast
  have hstop : x.1.slots x.2 = .empty := by
    have := hlast.walk.stop
    rwa [Nat.sub_self, Nat.add_zero, hlast.cap, ← hlast.slot] at this
  have hfix : reinsertStep put (t.cap - 1) x = x := by
    rw [reinsertStep, hstop]
  have hend : ∀ m, n ≤ m → (reinsertStep put (t.cap - 1))^[m] (t, j % t.cap) = x := by
    intro m hm
    obtain ⟨m, rfl⟩ := Nat.exists_eq_add_of_le' hm
    rw [iterate_add_apply, hx]
    exact iterate_fixed hfix _
  rw [reinsert, hend _ h.lt.le, ← hlast.slot]
  exact hlast

end Walk

/-! ### The start of the loop -/

theorem tally_cleared (hlt : n ≤ t.cap) (hu : ∀ u < n, ∃ r, t.slots ((j + u) % t.cap) = .used r) :
    tally (holds fun _ => true) (t.cleared j n).slots t.cap + n
      = tally (holds fun _ => true) t.slots t.cap := by
  induction n with
  | zero =>
    rw [show (t.cleared j 0).slots = t.slots by simp [cleared], Nat.add_zero]
  | succ n ih =>
    have hslots : (t.cleared j (n + 1)).slots
        = update (t.cleared j n).slots ((j + n) % t.cap) .empty := by
      funext x
      by_cases hx : x = (j + n) % t.cap
      · subst hx
        rw [update_self]
        exact if_pos ⟨n, by omega, rfl⟩
      · rw [update_of_ne hx]
        have hiff : (∃ u < n + 1, (j + u) % t.cap = x) ↔ ∃ u < n, (j + u) % t.cap = x := by
          constructor
          · rintro ⟨u, hu, heq⟩
            rcases Nat.lt_succ_iff_lt_or_eq.1 hu with hu | rfl
            · exact ⟨u, hu, heq⟩
            · exact absurd heq.symm hx
          · rintro ⟨u, hu, heq⟩
            exact ⟨u, by omega, heq⟩
        simp only [cleared, hiff]
    obtain ⟨r, hr⟩ := hu n (by omega)
    have hpos : 0 < t.cap := by omega
    have hkeep : (t.cleared j n).slots ((j + n) % t.cap) = .used r := by
      rw [Walk.cleared_of_ne, hr]
      intro u hu heq
      have := mod_inj heq (by omega) (by omega)
      omega
    have hup := tally_update (holds fun _ => true) (t.cleared j n).slots ((j + n) % t.cap)
      .empty (Nat.mod_lt _ hpos)
    rw [hkeep] at hup
    rw [hslots, ← ih (by omega) fun u hu' => hu u (by omega)]
    simp only [holds, Bool.toNat_true, Bool.toNat_false] at hup
    omega

theorem Table.emptied_spec (h : t.Wf hash key) (ht : t.tombs = 0) {i : ℕ} (hi : i < t.cap) :
    (t.emptied i).slots = update t.slots i .empty ∧ (t.emptied i).cap = t.cap
      ∧ (t.emptied i).tombs = t.tombs ∧ (t.emptied i).count ≤ t.count
      ∧ (t.emptied i).count
        = tally (holds fun _ => true) (update t.slots i .empty) t.cap := by
  have hup := tally_update (holds fun _ => true) t.slots i .empty hi
  have hcount := h.count_eq
  rw [countIf] at hcount
  rcases hs : t.slots i with _ | _ | r
  · rw [emptied, hs]
    dsimp only
    rw [← hs, update_eq_self]
    exact ⟨rfl, rfl, rfl, le_rfl, hcount⟩
  · exact absurd hs (h.no_tomb ht i)
  · rw [emptied_eq hs]
    rw [hs] at hup
    simp only [holds, Bool.toNat_true, Bool.toNat_false] at hup
    exact ⟨rfl, rfl, rfl, Nat.sub_le .., by dsimp only; omega⟩

theorem way_ends {slots : ℕ → Slot ρ} {cap b h d p u : ℕ} (hstop : slots ((b + n) % cap) = .empty)
    (hend : slots ((h + d) % cap) ≠ .empty) (hway : ∀ p < d, slots ((h + p) % cap) ≠ .empty)
    (hpd : p ≤ d) (hun : u ≤ n) (heq : (h + p) % cap = (b + u) % cap) :
    u + (d - p) < n ∧ (h + d) % cap = (b + (u + (d - p))) % cap := by
  have hat : ∀ s, (h + (p + s)) % cap = (b + (u + s)) % cap := by
    intro s
    rw [← Nat.add_assoc, ← Nat.add_assoc]
    exact mod_add heq s
  have hd := hat (d - p)
  rw [show p + (d - p) = d by omega] at hd
  refine ⟨?_, hd⟩
  by_contra hno
  have hn := hat (n - u)
  rw [show u + (n - u) = n by omega] at hn
  rcases Nat.lt_or_ge (p + (n - u)) d with hlt | hge
  · exact hway _ hlt (by rw [hn]; exact hstop)
  · rw [show p + (n - u) = d by omega] at hn
    exact hend (by rw [hn]; exact hstop)

theorem Table.Wf.cluster (h : t.Wf hash key) (ht : t.tombs = 0) (b : ℕ) :
    ∃ n < t.cap, t.slots ((b + n) % t.cap) = .empty
      ∧ ∀ u < n, ∃ r, t.slots ((b + u) % t.cap) = .used r := by
  classical
  obtain ⟨q, hq, he⟩ := h.exists_empty_on b
  have hex : ∃ q, t.slots ((b + q) % t.cap) = .empty := ⟨q, he⟩
  refine ⟨Nat.find hex, ?_, Nat.find_spec hex, fun u hu => ?_⟩
  · exact lt_of_le_of_lt (Nat.find_min' hex he) hq
  · exact used_of_ne (h.no_tomb ht) (Nat.find_min hex hu)

/-- Without a record and the cluster behind it, the others are still reached. -/
theorem Table.Wf.cleared (h : t.Wf hash key) (ht : t.tombs = 0) {t₁ : Table ρ} {i : ℕ}
    (hi : i < t.cap) (hslots : t₁.slots = update t.slots i .empty) (hcap : t₁.cap = t.cap)
    (htombs : t₁.tombs = t.tombs) (hle : t₁.count ≤ t.count)
    (hcount : t₁.count = tally (holds fun _ => true) t₁.slots t₁.cap) (hlt : n < t₁.cap)
    (hstop : t.slots ((i + 1 + n) % t.cap) = .empty)
    (hused : ∀ u < n, ∃ r, t₁.slots ((i + 1 + u) % t₁.cap) = .used r) :
    (t₁.cleared (i + 1) n).Wf hash key := by
  have hpos : 0 < t.cap := by omega
  have hroom := h.room
  have htally := tally_cleared hlt.le hused
  refine ⟨hcap ▸ h.pow, fun x hx => ?_, ?_, ?_, ?_, fun x hx r hr => ?_⟩
  · have hx : t.cap ≤ x := hcap ▸ hx
    simp only [Table.cleared, hslots]
    split_ifs
    · rfl
    · rw [update_of_ne (by omega)]
      exact h.beyond x hx
  · change t₁.count - n = tally (holds fun _ => true) (t₁.cleared (i + 1) n).slots t₁.cap
    omega
  · refine (htombs.trans ht).trans (tally_eq_zero fun x _ => ?_).symm
    have hno := h.no_tomb ht x
    simp only [Table.cleared, hslots, Function.update_apply]
    split_ifs
    · rfl
    · rfl
    · rcases hs : t.slots x with _ | _ | r
      · rfl
      · exact absurd hs hno
      · rfl
  · change t₁.count - n + t₁.tombs < t₁.cap
    omega
  · obtain ⟨hclear, hr'⟩ := Walk.cleared_ne_empty (by rw [hr]; simp)
    have hs := hr'.symm.trans hr
    rw [hslots, update_apply] at hs
    split_ifs at hs with hxi
    obtain ⟨d, hdc, hat, hway⟩ := h.chain x (hcap ▸ hx) r hs
    have hend : t.slots ((hash (key r) + d) % t.cap) ≠ .empty := by
      rw [hat, hs]
      simp
    rw [hcap] at hclear
    -- the way does not lead through the cluster, as `x` is not in it
    have hout : ∀ p < d, ∀ u < n, (i + 1 + u) % t.cap ≠ (hash (key r) + p) % t.cap := by
      intro p hp u hu heq
      obtain ⟨h1, h2⟩ := way_ends hstop hend hway hp.le hu.le heq.symm
      exact hclear _ h1 (h2.symm.trans hat)
    have hnot : ∀ p < d, (hash (key r) + p) % t.cap ≠ i := by
      intro p hp heq
      have hnext : (hash (key r) + (p + 1)) % t.cap = (i + 1 + 0) % t.cap :=
        mod_add (heq.trans (Nat.mod_eq_of_lt hi).symm) 1
      obtain ⟨h1, h2⟩ := way_ends hstop hend hway hp (Nat.zero_le n) hnext
      exact hclear _ h1 (h2.symm.trans hat)
    change ∃ d < t₁.cap, (hash (key r) + d) % t₁.cap = x
      ∧ ∀ p < d, (t₁.cleared (i + 1) n).slots ((hash (key r) + p) % t₁.cap) ≠ .empty
    refine ⟨d, hcap ▸ hdc, hcap ▸ hat, fun p hp => ?_⟩
    rw [hcap, Walk.cleared_of_ne (by rw [hcap]; exact hout p hp), hslots,
      update_of_ne (hnot p hp)]
    exact hway p hp

/-- Behind a slot that was emptied, the rest of the cluster has an end. -/
theorem Table.Wf.walk (h : t.Wf hash key) (ht : t.tombs = 0) (hd : t.Distinct key) {i : ℕ}
    (hi : i < t.cap) : ∃ n, Walk hash key (t.emptied i) (i + 1) n := by
  obtain ⟨hslots, hcap, htombs, hle, hcount⟩ := emptied_spec h ht hi
  obtain ⟨n, hlt, hstop, hcluster⟩ := h.cluster ht (i + 1)
  have hpos : 0 < t.cap := by omega
  have hroom := h.room
  have hold : ∀ {x : ℕ} {r : ρ}, (t.emptied i).slots x = .used r → t.slots x = .used r := by
    intro x r hx
    rw [hslots, update_apply] at hx
    split_ifs at hx
    exact hx
  have hused : ∀ u < n, ∃ r, (t.emptied i).slots ((i + 1 + u) % (t.emptied i).cap) = .used r := by
    intro u hu
    obtain ⟨r, hr⟩ := hcluster u hu
    refine ⟨r, ?_⟩
    rw [hcap, hslots, update_of_ne, hr]
    intro heq
    rw [Nat.add_assoc] at heq
    have : _ = 0 := mod_inj (heq.trans (Nat.mod_eq_of_lt hi).symm) (by omega) hpos
    omega
  rw [← hslots, ← hcap] at hcount
  have hlt' : n < (t.emptied i).cap := by omega
  have htally := tally_cleared hlt'.le hused
  refine ⟨n, ⟨hused, ?_, hlt', by omega, by omega, htombs.trans ht, ?_, fun u hu r hr => ?_,
    h.cleared ht hi hslots hcap htombs hle hcount hlt' hstop hused⟩⟩
  · rw [hcap, hslots, update_apply]
    split_ifs
    · rfl
    · exact hstop
  · intro x hx y hy r₁ r₂ h₁ h₂ hk
    exact hd x (hcap ▸ hx) y (hcap ▸ hy) r₁ r₂ (hold h₁) (hold h₂) hk
  · have hs := hold hr
    rw [hcap] at hs ⊢
    obtain ⟨d, hdc, hat, hway⟩ := h.chain _ (Nat.mod_lt _ hpos) r hs
    refine ⟨d, hdc, hat, fun p hp u' h1 h2 heq => ?_⟩
    have hend : t.slots ((hash (key r) + d) % t.cap) ≠ .empty := by
      rw [hat, hs]
      simp
    obtain ⟨h3, h4⟩ := way_ends hstop hend hway hp.le h2 heq
    have := mod_inj (hat.symm.trans h4) (by omega) (by omega)
    omega

/-- The loop from slot `j` on looks at each slot of the cluster there once, finds its record in
place, writes it to a table that `fits` it, and ends at the empty slot behind. -/
def CleanWalk (put : Table ρ → ρ → Table ρ) (fits : Table ρ → Prop) (t : Table ρ) (j : ℕ) : Prop :=
  ∃ n < t.cap,
    (∀ u < n, ((reinsertStep put (t.cap - 1))^[u] (t, j)).2 = (j + u) % t.cap
      ∧ ((reinsertStep put (t.cap - 1))^[u] (t, j)).1.cap = t.cap
      ∧ (∃ r, t.slots ((j + u) % t.cap) = .used r
        ∧ ((reinsertStep put (t.cap - 1))^[u] (t, j)).1.slots ((j + u) % t.cap) = .used r)
      ∧ fits (((reinsertStep put (t.cap - 1))^[u] (t, j)).1.emptied ((j + u) % t.cap)))
    ∧ ((reinsertStep put (t.cap - 1))^[n] (t, j)).2 = (j + n) % t.cap
    ∧ t.slots ((j + n) % t.cap) = .empty
    ∧ ((reinsertStep put (t.cap - 1))^[n] (t, j)).1.slots ((j + n) % t.cap) = .empty

variable [DecidableEq κ] {put : Table ρ → ρ → Table ρ} {fits : Table ρ → Prop}

theorem Walk.clean (hput : ∀ t' r, t'.cap = t.cap → t'.count < t.count →
    put t' r = t'.write hash key r) (hfits : ∀ t', t'.cap = t.cap → t'.count < t.count → fits t')
    (h : Walk hash key t j n) : CleanWalk put fits t (j % t.cap) := by
  have hmod : ∀ u, (j % t.cap + u) % t.cap = (j + u) % t.cap := fun u => Nat.mod_add_mod ..
  refine ⟨n, h.lt, fun u hu => ?_, ?_, ?_, ?_⟩
  · obtain ⟨hw, hslot, hcap, hcount, -, hahead⟩ := h.after hput u hu.le
    obtain ⟨r, hr⟩ := h.used u hu
    have hr' := (hahead u le_rfl hu.le).trans hr
    rw [hmod]
    refine ⟨hslot, hcap, ⟨r, hr, hr'⟩, ?_⟩
    have hle := hw.le
    rw [emptied_eq hr']
    exact hfits _ hcap (by dsimp only; omega)
  · rw [hmod]
    exact (h.after hput n le_rfl).slot
  · rw [hmod]
    exact h.stop
  · rw [hmod]
    exact ((h.after hput n le_rfl).ahead n le_rfl le_rfl).trans h.stop

end Walk

end LinearProbe
