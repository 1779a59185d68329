import Mathlib.Data.List.Basic
import Mathlib.Data.Nat.ModEq
import Mathlib.Tactic.Common

/-!
# A queue in a block of memory

The entries from `head` up to `len` of a block of `cap` cells. Entries are taken by moving `head`
and added behind `len`, where there is room; to make room the entries may be moved to the front, or
the block be made larger. An append and a consumption that have the laws of `HeadBuffer.Queue` give
a queue over every sequence of them (`HeadBuffer.Queue.run_spec`), however they make their room.
-/

/-- A block of memory, in use from `head` up to `len`. What the other cells hold is left open. -/
structure HeadBuffer (α : Type*) where
  data : ℕ → α
  cap : ℕ
  head : ℕ
  len : ℕ

/-- A use of a queue. -/
inductive QueueOp (α : Type*) where
  | append (p : List α)
  | consume (n : ℕ)

namespace QueueOp

variable {α : Type*}

/-- All entries appended, in order. -/
def appended : List (QueueOp α) → List α
  | [] => []
  | .append p :: ops => p ++ appended ops
  | .consume _ :: ops => appended ops

/-- How many entries are consumed. -/
def consumed : List (QueueOp α) → ℕ
  | [] => 0
  | .append _ :: ops => consumed ops
  | .consume n :: ops => n + consumed ops

/-- No more is consumed than there is, with `avail` entries there at first. -/
def Within : ℕ → List (QueueOp α) → Prop
  | _, [] => True
  | avail, .append p :: ops => Within (avail + p.length) ops
  | avail, .consume n :: ops => n ≤ avail ∧ Within (avail - n) ops

instance Within.decidable : ∀ (avail : ℕ) (ops : List (QueueOp α)), Decidable (Within avail ops)
  | _, [] => inferInstanceAs (Decidable True)
  | avail, .append p :: ops => Within.decidable (avail + p.length) ops
  | avail, .consume n :: ops => @instDecidableAnd _ _ _ (Within.decidable (avail - n) ops)

/-- One use after the other. -/
def run {β : Type*} (append : β → List α → β) (consume : β → ℕ → β) : β → List (QueueOp α) → β
  | b, [] => b
  | b, .append p :: ops => run append consume (append b p) ops
  | b, .consume n :: ops => run append consume (consume b n) ops

end QueueOp

namespace HeadBuffer

variable {α : Type*} {b : HeadBuffer α}

/-- The entries in order. -/
def toList (b : HeadBuffer α) : List α :=
  (List.range (b.len - b.head)).map fun i => b.data (b.head + i)

/-- The positions are those of a part of the block. -/
structure Ok (b : HeadBuffer α) : Prop where
  head_le : b.head ≤ b.len
  len_le : b.len ≤ b.cap

/-- The entries moved to the front. -/
def compact (b : HeadBuffer α) : HeadBuffer α where
  data i := if i < b.len - b.head then b.data (b.head + i) else b.data i
  cap := b.cap
  head := 0
  len := b.len - b.head

/-- Nothing is in use. -/
def rewind (b : HeadBuffer α) : HeadBuffer α := { b with head := 0, len := 0 }

/-- The entries of `p` copied behind the others. -/
def write (b : HeadBuffer α) (p : List α) : HeadBuffer α :=
  { b with
    data := fun i => if b.len ≤ i then (p[i - b.len]?).getD (b.data i) else b.data i
    len := b.len + p.length }

/-- The first `n` entries passed over. -/
def skip (b : HeadBuffer α) (n : ℕ) : HeadBuffer α := { b with head := b.head + n }

@[simp] theorem length_toList (b : HeadBuffer α) : b.toList.length = b.len - b.head := by
  simp [toList]

theorem getElem?_toList {i : ℕ} (hi : i < b.len - b.head) :
    b.toList[i]? = some (b.data (b.head + i)) := by
  rw [toList, List.getElem?_map, List.getElem?_range hi, Option.map_some]

theorem getElem?_toList_none {i : ℕ} (hi : b.len - b.head ≤ i) : b.toList[i]? = none :=
  List.getElem?_eq_none (by rwa [length_toList])

theorem toList_eq_nil (h : b.len ≤ b.head) : b.toList = [] := by
  rw [← List.length_eq_zero_iff, length_toList]
  omega

theorem toList_compact (b : HeadBuffer α) : b.compact.toList = b.toList := by
  refine List.map_congr_left fun i hi => ?_
  have hlt : i < b.len - b.head := by simpa [compact] using hi
  simp only [compact, Nat.zero_add, if_pos hlt]

theorem data_write_of_lt (p) {i : ℕ} (hi : i < b.len) : (b.write p).data i = b.data i :=
  if_neg (by omega)

theorem data_write (p : List α) {i : ℕ} (hi : i < p.length) :
    (b.write p).data (b.len + i) = p[i] := by
  simp only [write, if_pos (Nat.le_add_right b.len i), Nat.add_sub_cancel_left,
    List.getElem?_eq_getElem hi, Option.getD_some]

theorem toList_write (h : b.head ≤ b.len) (p) : (b.write p).toList = b.toList ++ p := by
  have hlen : (b.write p).len - (b.write p).head = b.len - b.head + p.length := by
    simp only [write]
    omega
  refine List.ext_getElem? fun i => ?_
  rcases Nat.lt_or_ge i (b.len - b.head) with hi | hi
  · rw [getElem?_toList (by omega), List.getElem?_append_left (by rwa [length_toList]),
      getElem?_toList hi]
    exact congrArg some (data_write_of_lt p (by simp only [write]; omega))
  · rw [List.getElem?_append_right (by rwa [length_toList]), length_toList]
    rcases Nat.lt_or_ge (i - (b.len - b.head)) p.length with hp | hp
    · rw [getElem?_toList (by omega), List.getElem?_eq_getElem hp, ← data_write p hp]
      congr 2
      simp only [write]
      omega
    · rw [getElem?_toList_none (by omega), List.getElem?_eq_none hp]

theorem toList_skip (b : HeadBuffer α) (n : ℕ) : (b.skip n).toList = b.toList.drop n := by
  have hlen : (b.skip n).len - (b.skip n).head = b.len - b.head - n := by
    simp only [skip]
    omega
  refine List.ext_getElem? fun i => ?_
  rw [List.getElem?_drop]
  rcases Nat.lt_or_ge i (b.len - b.head - n) with hi | hi
  · rw [getElem?_toList (by omega), getElem?_toList (by omega)]
    simp only [skip, Nat.add_assoc]
  · rw [getElem?_toList_none (by omega), getElem?_toList_none (by omega)]

namespace Ok

theorem compact (h : b.Ok) : b.compact.Ok :=
  ⟨Nat.zero_le _, le_trans (Nat.sub_le ..) h.len_le⟩

theorem rewind (b : HeadBuffer α) : b.rewind.Ok :=
  ⟨le_rfl, Nat.zero_le _⟩

theorem resize (h : b.Ok) {cap : ℕ} (hc : b.len ≤ cap) : Ok { b with cap } :=
  ⟨h.head_le, hc⟩

theorem write (h : b.Ok) {p : List α} (hroom : b.len + p.length ≤ b.cap) : (b.write p).Ok :=
  ⟨le_trans h.head_le (Nat.le_add_right ..), hroom⟩

theorem skip (h : b.Ok) {n : ℕ} (hn : n ≤ b.len - b.head) : (b.skip n).Ok := by
  have := h.head_le
  exact ⟨by simp only [HeadBuffer.skip]; omega, h.len_le⟩

end Ok

/-- What an append and a consumption do to the entries. -/
structure Queue (append : HeadBuffer α → List α → HeadBuffer α)
    (consume : HeadBuffer α → ℕ → HeadBuffer α) : Prop where
  append_ok : ∀ {b}, b.Ok → ∀ p, (append b p).Ok
  toList_append : ∀ {b}, b.Ok → ∀ p, (append b p).toList = b.toList ++ p
  consume_ok : ∀ {b}, b.Ok → ∀ n ≤ b.len - b.head, (consume b n).Ok
  toList_consume : ∀ {b}, b.Ok → ∀ n ≤ b.len - b.head, (consume b n).toList = b.toList.drop n

/-- What is there after a run is what was there and was appended, without what was consumed. -/
theorem Queue.run_spec {append consume} (hq : Queue append consume) :
    ∀ {b : HeadBuffer α} (ops : List (QueueOp α)), b.Ok → QueueOp.Within (b.len - b.head) ops →
      (QueueOp.run append consume b ops).Ok
        ∧ (QueueOp.run append consume b ops).toList
          = (b.toList ++ QueueOp.appended ops).drop (QueueOp.consumed ops)
  | b, [], hb, _ => ⟨hb, by simp [QueueOp.run, QueueOp.appended, QueueOp.consumed]⟩
  | b, .append p :: ops, hb, hw => by
    have hlist := hq.toList_append hb p
    have havail := congrArg List.length hlist
    rw [length_toList, List.length_append, length_toList] at havail
    obtain ⟨h1, h2⟩ := hq.run_spec ops (hq.append_ok hb p) (havail ▸ hw)
    refine ⟨h1, h2.trans ?_⟩
    rw [hlist, List.append_assoc]
    rfl
  | b, .consume n :: ops, hb, ⟨hn, hw⟩ => by
    have hlist := hq.toList_consume hb n hn
    have havail := congrArg List.length hlist
    rw [length_toList, List.length_drop, length_toList] at havail
    obtain ⟨h1, h2⟩ := hq.run_spec ops (hq.consume_ok hb n hn) (havail ▸ hw)
    refine ⟨h1, h2.trans ?_⟩
    rw [hlist, ← List.drop_append_of_le_length (by rwa [length_toList]), List.drop_drop]
    rfl

end HeadBuffer
