import Mathlib.Data.List.Basic
import Mathlib.Data.Nat.ModEq
import Mathlib.Data.Option.Basic
import Mathlib.Tactic.Common

/-!
# A growable ring is a queue

`count` entries from `head` on, wrapping at `cap`. Pushing onto a full ring first copies the
entries to the front of a larger one. The invariant is part of the ring, so every ring has a list
of entries (`RingQueue.toList`); pushing appends to it and popping takes its head, wherever the head
stands and however often the ring has grown.
-/

/-- The entries `head, head + 1, ...` of an array of `cap` cells, `count` of them. -/
structure RingQueue (α : Type*) where
  cells : ℕ → Option α
  cap : ℕ
  head : ℕ
  count : ℕ
  count_le : count ≤ cap
  head_lt : 0 < cap → head < cap
  filled : ∀ i < count, (cells ((head + i) % cap)).isSome

namespace RingQueue

open List Option Function

variable {α : Type*}

/-- The ring before the first push, with nothing allocated. -/
def empty : RingQueue α where
  cells _ := none
  cap := 0
  head := 0
  count := 0
  count_le := le_rfl
  head_lt := by omega
  filled := by omega

/-- The entries in order. -/
def toList (r : RingQueue α) : List α :=
  (List.range r.count).filterMap fun i => r.cells ((r.head + i) % r.cap)

/-- The entries copied to the front of an array of `ncap` cells. -/
def grow (r : RingQueue α) (ncap : ℕ) (h : r.count ≤ ncap) : RingQueue α where
  cells i := if i < r.count then r.cells ((r.head + i) % r.cap) else none
  cap := ncap
  head := 0
  count := r.count
  count_le := h
  head_lt := id
  filled i hi := by
    rw [Nat.zero_add, Nat.mod_eq_of_lt (by omega), if_pos hi]
    exact r.filled i hi

theorem add_mod_inj {a i j n : ℕ} (hi : i < n) (hj : j < n) (h : (a + i) % n = (a + j) % n) :
    i = j := by
  have := Nat.ModEq.add_left_cancel' a h
  rwa [Nat.ModEq, Nat.mod_eq_of_lt hi, Nat.mod_eq_of_lt hj] at this

/-- Write one entry past the last, where there is a free cell. -/
def snoc (r : RingQueue α) (e : α) (h : r.count < r.cap) : RingQueue α where
  cells := Function.update r.cells ((r.head + r.count) % r.cap) (some e)
  cap := r.cap
  head := r.head
  count := r.count + 1
  count_le := h
  head_lt := r.head_lt
  filled i hi := by
    rw [Function.update_apply]
    split_ifs with he
    · rfl
    · refine r.filled i ?_
      have : i ≠ r.count := by
        rintro rfl
        exact he rfl
      omega

/-- Append an entry, doubling a full ring first. -/
def push (r : RingQueue α) (e : α) : RingQueue α :=
  if h : r.count = r.cap then
    (r.grow (if r.cap = 0 then 64 else r.cap * 2) (by split_ifs <;> omega)).snoc e
      (by simp only [grow]; split_ifs <;> omega)
  else r.snoc e (by have := r.count_le; omega)

/-- Take the first entry. -/
def pop (r : RingQueue α) : Option (α × RingQueue α) :=
  if h : r.count = 0 then none
  else
    match r.cells r.head with
    | none => none
    | some e => some (e,
        { cells := r.cells
          cap := r.cap
          head := (r.head + 1) % r.cap
          count := r.count - 1
          count_le := by have := r.count_le; omega
          head_lt := fun h' => Nat.mod_lt _ h'
          filled := fun i hi => by
            rw [Nat.mod_add_mod, Nat.add_assoc, Nat.add_comm 1]
            exact r.filled (i + 1) (by omega) })

@[simp] theorem toList_empty : (empty : RingQueue α).toList = [] := rfl

theorem toList_eq_map (r : RingQueue α) :
    r.toList.map some = (range r.count).map fun i => r.cells ((r.head + i) % r.cap) := by
  unfold toList
  have : ∀ l : List ℕ, (∀ i ∈ l, i < r.count) →
      (l.filterMap fun i => r.cells ((r.head + i) % r.cap)).map some
        = l.map fun i => r.cells ((r.head + i) % r.cap) := by
    intro l hl
    induction l with
    | nil => rfl
    | cons i l ih =>
      obtain ⟨e, he⟩ := isSome_iff_exists.1 (r.filled i (hl i (by simp)))
      rw [filterMap_cons]
      simp only [he, map_cons, ih fun j hj => hl j (by simp [hj])]
  exact this _ fun i hi => mem_range.1 hi

@[simp] theorem length_toList (r : RingQueue α) : r.toList.length = r.count := by
  have := congrArg length r.toList_eq_map
  simpa using this

theorem toList_ext {r r' : RingQueue α} (hc : r.count = r'.count)
    (h : ∀ i < r.count, r.cells ((r.head + i) % r.cap) = r'.cells ((r'.head + i) % r'.cap)) :
    r.toList = r'.toList := by
  refine map_injective_iff.2 (some_injective α) ?_
  rw [r.toList_eq_map, r'.toList_eq_map, ← hc]
  exact map_congr_left fun i hi => h i (mem_range.1 hi)

theorem toList_grow (r : RingQueue α) (ncap : ℕ) (h : r.count ≤ ncap) :
    (r.grow ncap h).toList = r.toList := by
  refine toList_ext rfl fun i hi => ?_
  have hi' : i < r.count := hi
  simp only [grow, Nat.zero_add, Nat.mod_eq_of_lt (show i < ncap by omega), if_pos hi']

theorem toList_snoc (r : RingQueue α) (e : α) (h : r.count < r.cap) :
    (r.snoc e h).toList = r.toList ++ [e] := by
  refine map_injective_iff.2 (some_injective α) ?_
  rw [toList_eq_map, map_append, r.toList_eq_map]
  simp only [snoc, range_succ, map_append, map_cons, map_nil, update_self]
  congr 1
  refine map_congr_left fun i hi => ?_
  have hi' := mem_range.1 hi
  rw [update_of_ne]
  intro he
  have := add_mod_inj (by omega) h he
  omega

@[simp] theorem toList_push (r : RingQueue α) (e : α) : (r.push e).toList = r.toList ++ [e] := by
  unfold push
  split
  · rw [toList_snoc, toList_grow]
  · rw [toList_snoc]

@[simp] theorem count_push (r : RingQueue α) (e : α) : (r.push e).count = r.count + 1 := by
  rw [← length_toList, toList_push, length_append, length_toList]
  rfl

theorem pop_some {r r' : RingQueue α} {e : α} (h : r.pop = some (e, r')) :
    r.toList = e :: r'.toList := by
  unfold pop at h
  split_ifs at h with h0
  split at h
  · cases h
  · rename_i e' he
    simp only [some.injEq, Prod.mk.injEq] at h
    obtain ⟨rfl, rfl⟩ := h
    obtain ⟨k, hk⟩ : ∃ k, r.count = k + 1 := ⟨r.count - 1, by omega⟩
    have hcap : 0 < r.cap := by have := r.count_le; omega
    refine map_injective_iff.2 (some_injective α) ?_
    rw [map_cons, toList_eq_map, toList_eq_map]
    simp only [hk, Nat.add_sub_cancel, List.range_succ_eq_map, List.map_cons, List.map_map,
      Nat.add_zero, Nat.mod_eq_of_lt (r.head_lt hcap), he]
    congr 1
    refine List.map_congr_left fun i _ => ?_
    simp only [comp_apply, Nat.succ_eq_add_one, Nat.mod_add_mod]
    rw [Nat.add_assoc, Nat.add_comm 1]

theorem pop_none {r : RingQueue α} (h : r.pop = none) : r.toList = [] := by
  unfold pop at h
  split_ifs at h with h0
  · rw [← length_eq_zero_iff, length_toList, h0]
  · exfalso
    have hcap : 0 < r.cap := by have := r.count_le; omega
    have hf := r.filled 0 (by omega)
    rw [Nat.add_zero, Nat.mod_eq_of_lt (r.head_lt hcap)] at hf
    obtain ⟨e, he⟩ := isSome_iff_exists.1 hf
    split at h
    · rename_i hn
      rw [he] at hn
      cases hn
    · cases h

/-- Append a list of entries. -/
def pushAll (r : RingQueue α) (l : List α) : RingQueue α := l.foldl push r

@[simp] theorem toList_pushAll (r : RingQueue α) (l) : (r.pushAll l).toList = r.toList ++ l := by
  induction l generalizing r with
  | nil => simp [pushAll]
  | cons e l ih =>
    rw [show r.pushAll (e :: l) = (r.push e).pushAll l from rfl, ih, toList_push,
      append_assoc, singleton_append]

theorem pushAll_append (r : RingQueue α) (l l') :
    r.pushAll (l ++ l') = (r.pushAll l).pushAll l' := foldl_append

end RingQueue
