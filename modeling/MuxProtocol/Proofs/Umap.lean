import Mathlib.Data.Set.Card
import MuxProtocol.Lib.Run
import MuxProtocol.Proofs.Store
import MuxProtocol.Umap

/-!
# Deletion by reinsertion

The maps of the router and of libpeer stand for finite maps, whatever is put and deleted: beside
the table goes the map.
-/

namespace MuxProtocol

open LinearProbe Machine Option Function Table

variable {ν : Type*} {hash : UInt32 → ℕ} {m m' : Umap ν} {f : UInt32 → Option ν}

/-- The table has the entries of the map, each where a search finds it. -/
structure Holding (hash : UInt32 → ℕ) (m : Umap ν) (f : UInt32 → Option ν) : Prop where
  wf : m.Wf hash Prod.fst
  tombs : m.tombs = 0
  distinct : m.Distinct Prod.fst
  load : m.count * 4 < m.cap * 3
  mem : ∀ k v, m.Mem (k, v) ↔ f k = some v

/-- The map is empty until the first entry gives it slots. -/
def MapOf (hash : UInt32 → ℕ) (m : Umap ν) (f : UInt32 → Option ν) : Prop :=
  m = Umap.new ∧ (∀ k, f k = none) ∨ Holding hash m f

theorem growTo_sixtyFour (want : ℕ) {cap : ℕ} (hp : cap = 0 ∨ ∃ n, cap = 2 ^ n) :
    (∃ n, growTo want want (if cap = 0 then 64 else cap) = 2 ^ n)
      ∧ want ≤ growTo want want (if cap = 0 then 64 else cap) := by
  have hpow : ∃ n, (if cap = 0 then 64 else cap) = 2 ^ n := by
    split_ifs with h
    · exact ⟨6, rfl⟩
    · exact hp.resolve_left h
  exact ⟨growTo_pow hpow, want_le_growTo_self (pos_of_pow hpow)⟩

theorem tableGrow_holding (hc : m.count = m.countIf fun _ => true) (hd : m.Distinct Prod.fst)
    (hp : m.cap = 0 ∨ ∃ n, m.cap = 2 ^ n) (hmem : ∀ k v, m.Mem (k, v) ↔ f k = some v) :
    Holding hash (tableGrow hash m ((m.count + 1) * 2)) f
      ∧ (tableGrow hash m ((m.count + 1) * 2)).Fits := by
  obtain ⟨hpow, hle⟩ := growTo_sixtyFour ((m.count + 1) * 2) hp
  unfold tableGrow
  generalize growTo ((m.count + 1) * 2) ((m.count + 1) * 2) (if m.cap = 0 then 64 else m.cap) = cap
    at hpow hle
  have hlt : m.countIf (fun _ => true) < cap := by omega
  have hr : Rehashed hash Prod.fst m.slots cap m.cap _ := rehash_spec hpow m.cap hlt
  have hcount : (m.rehashed hash Prod.fst cap).count = m.count := rfl
  have hcap : (m.rehashed hash Prod.fst cap).cap = cap := rfl
  refine ⟨⟨Table.Wf.rehashed hc hpow (by omega), rfl, hr.distinct hd, by omega, fun k v => ?_⟩, ?_⟩
  · exact (hr.mem (k, v)).trans (hmem k v)
  · unfold Umap.Fits
    omega

namespace Holding

theorem write (h : Holding hash m f) (hfits : m.Fits) (k) (v : ν) :
    Holding hash (m.write hash Prod.fst (k, v)) (update f k (some v)) := by
  unfold Umap.Fits at hfits
  obtain ⟨hwf, htombs, hd, hcap, hcount, hmem⟩ :=
    write_spec h.wf h.tombs h.distinct (by omega) (k, v)
  refine ⟨hwf, htombs, hd, by omega, fun k' v' => ?_⟩
  rw [hmem, h.mem, update_apply, Prod.mk.injEq]
  by_cases hk : k' = k
  · subst hk
    simp [eq_comm]
  · simp [hk]

theorem get (h : Holding hash m f) (k) : tableGet hash m k = f k := by
  have hpos := pos_of_pow h.wf.pow
  rw [tableGet, if_neg (by omega)]
  refine ext fun v => ?_
  rw [map_eq_some_iff, ← h.mem]
  constructor
  · rintro ⟨⟨k', v'⟩, hr, rfl⟩
    obtain ⟨hm, rfl⟩ := (read_eq h.wf h.tombs h.distinct).1 hr
    exact hm
  · intro hm
    exact ⟨(k, v), (read_eq h.wf h.tombs h.distinct).2 ⟨hm, rfl⟩, rfl⟩

/-- The entries behind an emptied slot are written again without a growth. -/
theorem walk (h : Holding hash m f) {i : ℕ} (hi : i < m.cap) :
    ∃ n, Walk hash Prod.fst (m.emptied i) (i + 1) n
      ∧ (∀ (t' : Umap ν) e, t'.cap = (m.emptied i).cap → t'.count < (m.emptied i).count →
        tablePut hash t' e = t'.write hash Prod.fst e)
      ∧ ∀ t' : Umap ν, t'.cap = (m.emptied i).cap → t'.count < (m.emptied i).count → t'.Fits := by
  obtain ⟨n, hw⟩ := h.wf.walk h.tombs h.distinct hi
  obtain ⟨-, hcap, -, hle, -⟩ := emptied_spec h.wf h.tombs hi
  have hload := h.load
  have hfits : ∀ t' : Umap ν, t'.cap = (m.emptied i).cap → t'.count < (m.emptied i).count →
      t'.Fits := by
    intro t' h1 h2
    unfold Umap.Fits
    omega
  exact ⟨n, hw, fun t' e h1 h2 => by rw [tablePut, if_pos (hfits t' h1 h2)], hfits⟩

theorem reinsert (h : Holding hash m f) {i : ℕ} (hi : i < m.cap) {f'}
    (hmem : ∀ k v, (m.emptied i).Mem (k, v) ↔ f' k = some v) :
    Holding hash (reinsert (tablePut hash) (m.emptied i) ((i + 1) &&& (m.cap - 1))) f' := by
  obtain ⟨n, hw, hput, -⟩ := h.walk hi
  obtain ⟨-, hcap, -, hle, -⟩ := emptied_spec h.wf h.tombs hi
  obtain ⟨hw', -, hcap', hcount', hmem', -⟩ := hw.reinsert_spec hput
  have hload := h.load
  have hj : (i + 1) &&& (m.cap - 1) = (i + 1) % (m.emptied i).cap := by
    rw [hcap, and_mask h.wf.pow]
  rw [hj]
  rw [Nat.sub_self] at hw'
  dsimp only at hw' hcap' hcount' hmem'
  exact ⟨hw'.wf_of_end, hw'.tombs, hw'.distinct, by omega,
    fun k v => (hmem' (k, v)).trans (hmem k v)⟩

theorem seek_none (h : Holding hash m f) {k} (hk : f k = none) :
    m.seek hash Prod.fst k < m.cap ∧ m.slots (m.seek hash Prod.fst k) = .empty := by
  obtain ⟨n, hn, hstop, hused⟩ := h.wf.cluster h.tombs (hash k)
  have hseek : m.seek hash Prod.fst k = (hash k + n) % m.cap := by
    refine seek_eq h.wf.pow hn (fun e he => ?_) fun p hp => ?_
    · rw [hstop] at he
      cases he
    · obtain ⟨⟨k', v⟩, he⟩ := hused p hp
      refine ⟨(k', v), he, ?_⟩
      rintro rfl
      have := (h.mem k' v).1 ⟨_, h.wf.lt_cap he, he⟩
      simp [hk] at this
  rw [hseek]
  exact ⟨Nat.mod_lt _ (by omega), hstop⟩

theorem seek_some (h : Holding hash m f) {k} {v : ν} (hk : f k = some v) :
    m.seek hash Prod.fst k < m.cap ∧ m.slots (m.seek hash Prod.fst k) = .used (k, v) := by
  obtain ⟨i, hi, hs⟩ := (h.mem k v).2 hk
  have hseek : m.seek hash Prod.fst k = i := seek_used h.wf h.tombs h.distinct hs
  rw [hseek]
  exact ⟨hi, hs⟩

theorem mem_emptied (h : Holding hash m f) {k} {v : ν} (hk : f k = some v) (k') (v' : ν) :
    (m.emptied (m.seek hash Prod.fst k)).Mem (k', v')
      ↔ update f k none k' = some v' := by
  obtain ⟨hi, hs⟩ := h.seek_some hk
  rw [emptied_eq hs, update_apply]
  by_cases hkk : k' = k
  · subst hkk
    refine iff_of_false ?_ (by simp)
    rintro ⟨j, hj, hjs⟩
    dsimp only at hj hjs
    rw [update_apply] at hjs
    split_ifs at hjs with hji
    exact hji (h.distinct j hj _ hi _ _ hjs hs rfl)
  · rw [if_neg hkk, ← h.mem]
    refine exists_congr fun j => and_congr_right fun _ => ?_
    dsimp only
    by_cases hji : j = m.seek hash Prod.fst k
    · subst hji
      rw [update_self, hs]
      simp [Ne.symm hkk]
    · rw [update_of_ne hji]

/-- The slot of the key is emptied, and the entries behind it written again. -/
theorem del_some (h : Holding hash m f) {k} {v : ν} (hk : f k = some v) :
    Holding hash (LinearProbe.reinsert (tablePut hash) (m.emptied (m.seek hash Prod.fst k))
      ((m.seek hash Prod.fst k + 1) &&& (m.cap - 1))) (update f k none) :=
  h.reinsert (h.seek_some hk).1 (h.mem_emptied hk)

theorem update_none {k} (hk : f k = none) : update f k none = f := by
  rw [← hk, update_eq_self]

theorem del_none (h : Holding hash m f) {k} (hk : f k = none) :
    Holding hash (LinearProbe.reinsert (tablePut hash) m
      ((m.seek hash Prod.fst k + 1) &&& (m.cap - 1))) (update f k none) := by
  obtain ⟨hi, hs⟩ := h.seek_none hk
  have hself : m.emptied (m.seek hash Prod.fst k) = m := by rw [emptied, hs]
  have hkeep : Holding hash _ f := h.reinsert hi (by rw [hself]; exact h.mem)
  rwa [hself, ← update_none hk] at hkeep

theorem count_eq (h : Holding hash m f) : m.count = {k | f k ≠ none}.ncard := by
  have hslots : m.count = {i | i < m.cap ∧ ∃ e, m.slots i = .used e}.ncard := by
    rw [h.wf.count_eq, countIf, tally, Nat.count_eq_card_filter_range, ← Set.ncard_coe_finset]
    congr 1
    ext i
    simp only [Finset.coe_filter, Finset.mem_range, Set.mem_ofPred_eq, and_congr_right_iff]
    intro _
    rcases m.slots i with _ | _ | e <;> simp [Slot.holds]
  let key : ℕ → UInt32 := fun i => ((m.get i).map Prod.fst).getD 0
  have hkey : ∀ {i e}, m.slots i = .used e → key i = e.1 := by
    intro i e he
    simp only [key, get_eq_some.2 he, map_some, getD_some]
  have himage : key '' {i | i < m.cap ∧ ∃ e, m.slots i = .used e} = {k | f k ≠ none} := by
    ext k
    simp only [Set.mem_image, Set.mem_ofPred_eq]
    constructor
    · rintro ⟨i, ⟨hi, e, he⟩, rfl⟩
      rw [hkey he, (h.mem e.1 e.2).1 ⟨i, hi, he⟩]
      simp
    · intro hk
      obtain ⟨v, hv⟩ := ne_none_iff_exists'.1 hk
      obtain ⟨i, hi, hs⟩ := (h.mem k v).2 hv
      exact ⟨i, ⟨hi, _, hs⟩, hkey hs⟩
  rw [hslots, ← himage, Set.InjOn.ncard_image]
  rintro i ⟨hi, e, he⟩ j ⟨hj, e', he'⟩ heq
  rw [hkey he, hkey he'] at heq
  exact h.distinct i hi j hj e e' he he' heq

end Holding

/-! ### Any puts and deletions -/

inductive MapOp (ν : Type*) where
  | put (k : UInt32) (v : ν)
  | del (k : UInt32)

/-- The map after a put or a deletion. -/
def MapOp.on (f : UInt32 → Option ν) : MapOp ν → UInt32 → Option ν
  | .put k v => Function.update f k (some v)
  | .del k => Function.update f k none

/-- The router's table, and the map it stands for. -/
def umapStep (x : Umap ν × (UInt32 → Option ν)) (a : MapOp ν) : Umap ν × (UInt32 → Option ν) :=
  (match a with
    | .put k v => umapPut x.1 k v
    | .del k => umapDel x.1 k, a.on x.2)

/-- The registry, and the map it stands for. -/
def regStep (x : Umap ν × (UInt32 → Option ν)) (a : MapOp ν) : Umap ν × (UInt32 → Option ν) :=
  (match a with
    | .put sid st => regPut x.1 sid st
    | .del sid => regDel x.1 sid, a.on x.2)

/-- The table answers as the map does, its count is exact, it is less than three quarters full, and
the loop of a deletion runs over the cluster once, without growing the table. -/
structure Faithful (hash : UInt32 → ℕ) (m : Umap ν) (f : UInt32 → Option ν) : Prop where
  get : ∀ k, tableGet hash m k = f k
  count : m.count = {k | f k ≠ none}.ncard
  load : m.count * 4 < m.cap * 3 ∨ m = Umap.new
  walk : ∀ i e, m.slots i = .used e →
    CleanWalk (tablePut hash) Umap.Fits (m.emptied i) ((i + 1) &&& (m.cap - 1))

namespace MapOf

theorem faithful (h : MapOf hash m f) : Faithful hash m f := by
  rcases h with ⟨rfl, hf⟩ | h
  · refine ⟨fun k => (hf k).symm, ?_, .inr rfl, nofun⟩
    have : {k | f k ≠ none} = ∅ := by
      ext k
      simp [hf k]
    rw [this, Set.ncard_empty]
    rfl
  · refine ⟨h.get, h.count_eq, .inl h.load, fun i e he => ?_⟩
    have hi := h.wf.lt_cap he
    obtain ⟨n, hw, hput, hfits⟩ := h.walk hi
    obtain ⟨-, hcap, -⟩ := emptied_spec h.wf h.tombs hi
    have hj : (i + 1) &&& (m.cap - 1) = (i + 1) % (m.emptied i).cap := by
      rw [hcap, and_mask h.wf.pow]
    rw [hj]
    exact hw.clean hput hfits

theorem put (h : MapOf hash m f) (k) (v : ν) :
    MapOf hash (tablePut hash m (k, v)) (update f k (some v)) := by
  refine .inr ?_
  unfold tablePut
  have hgrow : ¬m.Fits → Holding hash (tableGrow hash m ((m.count + 1) * 2)) f
      ∧ (tableGrow hash m ((m.count + 1) * 2)).Fits := by
    intro _
    rcases h with ⟨rfl, hf⟩ | h
    · refine tableGrow_holding rfl (fun i hi => absurd hi (Nat.not_lt_zero i)) (.inl rfl)
        fun k v => ?_
      refine iff_of_false ?_ (by simp [hf k])
      rintro ⟨i, hi, -⟩
      exact absurd hi (Nat.not_lt_zero i)
    · exact tableGrow_holding h.wf.count_eq h.distinct (.inr h.wf.pow) h.mem
  split
  · rename_i hfits
    rcases h with ⟨rfl, -⟩ | h
    · exact absurd (Nat.zero_le 4) hfits
    · exact h.write hfits k v
  · rename_i hfits
    obtain ⟨h1, h2⟩ := hgrow hfits
    exact h1.write h2 k v

theorem umapDel (h : MapOf umix m f) (k) : MapOf umix (umapDel m k) (update f k none) := by
  unfold MuxProtocol.umapDel
  rcases h with ⟨rfl, hf⟩ | h
  · rw [if_pos (by rfl), Holding.update_none (hf k)]
    exact .inl ⟨rfl, hf⟩
  · have hpos := pos_of_pow h.wf.pow
    rw [if_neg (by omega)]
    refine .inr ?_
    dsimp only
    rcases hk : f k with _ | v
    · rw [(h.seek_none hk).2, Holding.update_none hk]
      exact h
    · rw [(h.seek_some hk).2]
      dsimp only
      rw [if_pos rfl]
      exact h.del_some hk

theorem regDel (h : MapOf regMix m f) (sid) :
    MapOf regMix (regDel m sid) (update f sid none) := by
  unfold MuxProtocol.regDel
  rcases h with ⟨rfl, hf⟩ | h
  · rw [Holding.update_none (hf sid)]
    exact .inl ⟨rfl, hf⟩
  · refine .inr ?_
    dsimp only
    rcases hk : f sid with _ | v
    · rw [(h.seek_none hk).2]
      exact h.del_none hk
    · rw [(h.seek_some hk).2]
      dsimp only
      rw [if_pos rfl]
      exact h.del_some hk

end MapOf

/-- For both tables, whatever is put and deleted. -/
theorem cluster_reinsertion {x : Umap ν × (UInt32 → Option ν)} :
    (Reach (ofFun umapStep) (fun _ _ => True) (Umap.new, fun _ => none) x → Faithful umix x.1 x.2)
      ∧ (Reach (ofFun regStep) (fun _ _ => True) (Umap.new, fun _ => none) x →
        Faithful regMix x.1 x.2) := by
  constructor
  · intro hr
    refine MapOf.faithful (hr.inv (I := fun x => MapOf umix x.1 x.2) (.inl ⟨rfl, fun _ => rfl⟩) ?_)
    rintro x a _ h - rfl
    cases a with
    | put k v => exact h.put k v
    | del k => exact h.umapDel k
  · intro hr
    refine MapOf.faithful (hr.inv
      (I := fun x => MapOf regMix x.1 x.2) (.inl ⟨rfl, fun _ => rfl⟩) ?_)
    rintro x a _ h - rfl
    cases a with
    | put sid st => exact h.put sid st
    | del sid => exact h.regDel sid

/-- Two keys of one home slot, of which the first is deleted. -/
def collideRun : List (MapOp ℕ) := [.put 1 10, .put 129 20, .del 1]

theorem cluster_reinsertion_collide :
    ∃ x y, x = collideRun.foldl umapStep (Umap.new, fun _ => none)
      ∧ y = collideRun.foldl regStep (Umap.new, fun _ => none)
      ∧ umix 1 % 64 = umix 129 % 64 ∧ umapGet x.1 129 = some 20 ∧ regGet y.1 1 = none
      ∧ Faithful umix x.1 x.2 ∧ Faithful regMix y.1 y.2 :=
  ⟨_, _, rfl, rfl, by decide +kernel, by decide +kernel, by decide +kernel,
    cluster_reinsertion.1 (.foldl collideRun (by simp [collideRun, Allowed])),
    cluster_reinsertion.2 (.foldl collideRun (by simp [collideRun, Allowed]))⟩

end MuxProtocol
