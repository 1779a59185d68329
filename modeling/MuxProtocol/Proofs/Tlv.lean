import MuxProtocol.Proofs.Codec
import MuxProtocol.Protocol
import Mathlib.Data.List.Flatten

/-!
# Type-length-value records

Records put one after the other are read back as they were put, and a buffer that is read to its
end is the records read. The iterator fails on what is no list of records, and on nothing else.
-/

namespace MuxProtocol

open List

/-! ### Writing -/

section Put

variable {buf : Bytes} {off : ℕ}

/-- `b` written into a buffer at `off`. -/
def splice (buf : Bytes) (off : ℕ) (b : Bytes) : Bytes :=
  buf.take off ++ b ++ buf.drop (off + b.length)

@[simp] theorem splice_nil : splice buf off [] = buf := by simp [splice]

theorem length_splice {b : Bytes} (h : off + b.length ≤ buf.length) :
    (splice buf off b).length = buf.length := by
  simp only [splice, length_append, length_take, length_drop]
  omega

theorem take_splice {b : Bytes} (h : off + b.length ≤ buf.length) :
    (splice buf off b).take (off + b.length) = buf.take off ++ b := by
  rw [splice, take_left']
  rw [length_append, length_take]
  omega

theorem drop_splice {b : Bytes} (h : off + b.length ≤ buf.length) :
    (splice buf off b).drop off = b ++ buf.drop (off + b.length) := by
  rw [splice, append_assoc, drop_left']
  rw [length_take]
  omega

theorem splice_splice {a b : Bytes} (h : off + a.length ≤ buf.length) :
    splice (splice buf off a) (off + a.length) b = splice buf off (a ++ b) := by
  have hdrop : (splice buf off a).drop (off + a.length + b.length)
      = buf.drop (off + (a ++ b).length) := by
    rw [Nat.add_assoc, ← drop_drop, drop_splice h, ← drop_drop, drop_left,
      drop_drop, length_append, Nat.add_assoc]
  rw [splice, take_splice h, hdrop, splice, append_assoc (buf.take off)]

theorem length_tlvBytes (tv : UInt16 × Bytes) : (tlvBytes tv).length = 4 + tv.2.length := by
  simp [tlvBytes]
  omega

theorem muxTlvPut_ok {tv : UInt16 × Bytes} (h : off + (tlvBytes tv).length ≤ buf.length) :
    muxTlvPut buf off tv.1 tv.2
      = (splice buf off (tlvBytes tv), .ok (off + (tlvBytes tv).length)) := by
  rw [splice, length_tlvBytes] at *
  unfold muxTlvPut
  rw [if_neg (by omega), if_neg (by omega), Nat.add_assoc]
  rfl

/-- The chain of `muxTlvPut` over some records, with the offset that each returns. -/
def putOffsets : List (UInt16 × Bytes) → Bytes → ℕ → Except MuxErr (Bytes × List ℕ)
  | [], buf, _ => .ok (buf, [])
  | (t, v) :: tlvs, buf, off =>
    match muxTlvPut buf off t v with
    | (_, .error e) => .error e
    | (buf, .ok off) => (putOffsets tlvs buf off).map fun r => (r.1, off :: r.2)

theorem putOffsets_ok : ∀ (tlvs : List (UInt16 × Bytes)) (buf : Bytes) (off : ℕ),
    off + (tlvs.flatMap tlvBytes).length ≤ buf.length →
    ∃ offs, putOffsets tlvs buf off = .ok (splice buf off (tlvs.flatMap tlvBytes), offs)
      ∧ offs.length = tlvs.length ∧ (off :: offs).Pairwise (· < ·)
      ∧ ∀ o ∈ offs, o ≤ off + (tlvs.flatMap tlvBytes).length
  | [], buf, off, _ => ⟨[], by simp [putOffsets]⟩
  | tv :: tlvs, buf, off, h => by
    rw [flatMap_cons, length_append] at h
    have hput : off + (tlvBytes tv).length ≤ buf.length := by omega
    obtain ⟨offs, h1, h2, h3, h4⟩ := putOffsets_ok tlvs (splice buf off (tlvBytes tv))
      (off + (tlvBytes tv).length) (by rw [length_splice hput]; omega)
    have hpos : off < off + (tlvBytes tv).length := by
      rw [length_tlvBytes]
      omega
    refine ⟨(off + (tlvBytes tv).length) :: offs, ?_, by simp [h2], ?_, ?_⟩
    · rw [putOffsets, muxTlvPut_ok hput]
      dsimp only
      rw [h1, splice_splice hput]
      rfl
    · refine .cons (forall_mem_cons.2 ⟨hpos, fun o ho => ?_⟩) h3
      exact hpos.trans (rel_of_pairwise_cons h3 ho)
    · rw [flatMap_cons, length_append, ← Nat.add_assoc]
      exact forall_mem_cons.2 ⟨Nat.le_add_right _ _, h4⟩

theorem putTlvs_eq : ∀ (tlvs : List (UInt16 × Bytes)) (buf : Bytes) (off : ℕ),
    off + (tlvs.flatMap tlvBytes).length ≤ buf.length →
    putTlvs tlvs buf off = .ok (splice buf off (tlvs.flatMap tlvBytes),
      off + (tlvs.flatMap tlvBytes).length)
  | [], buf, off, _ => by simp [putTlvs]
  | tv :: tlvs, buf, off, h => by
    rw [flatMap_cons, length_append] at h
    have hput : off + (tlvBytes tv).length ≤ buf.length := by omega
    have ih := putTlvs_eq tlvs (splice buf off (tlvBytes tv)) (off + (tlvBytes tv).length)
      (by rw [length_splice hput]; omega)
    rw [putTlvs, muxTlvPut_ok hput]
    dsimp only
    rw [ih, splice_splice hput, flatMap_cons, length_append, Nat.add_assoc]

end Put

/-! ### Reading -/

section Next

variable {buf : Bytes} {cursor : ℕ}

/-- The length of each value fits its field. -/
def TlvsSized (tlvs : List (UInt16 × Bytes)) : Prop := ∀ tv ∈ tlvs, tv.2.length < 2 ^ 16

theorem muxTlvNext_tlvBytes (pre rest : Bytes) {t} {v : Bytes} (hv : v.length < 2 ^ 16) :
    muxTlvNext (some (pre ++ (tlvBytes (t, v) ++ rest))) pre.length
      = .ok (some (t, v, pre.length + 4 + v.length)) := by
  unfold muxTlvNext
  dsimp only
  rw [if_neg (by simp [length_tlvBytes]), drop_left]
  have hlen : (beGet16 (.ofNat ((UInt16.ofNat v.length).toNat / 2 ^ 8))
      (.ofNat (UInt16.ofNat v.length).toNat)).toNat = v.length := by
    rw [beGet16_put, UInt16.toNat_ofNat', Nat.mod_eq_of_lt hv]
  simp only [tlvBytes, bePut16, cons_append, nil_append, hlen, length_append]
  rw [if_neg (by omega), take_left, beGet16_put]

theorem muxTlvNext_end : muxTlvNext (some buf) buf.length = .ok none := by simp [muxTlvNext]

/-- What the iterator says at a cursor: it is at the end, or a record is there, or the bytes are not
those of a record. -/
theorem muxTlvNext_cases (buf : Bytes) (cursor : ℕ) :
    (muxTlvNext (some buf) cursor = .ok none ∧ cursor = buf.length)
    ∨ muxTlvNext (some buf) cursor = .error .proto
    ∨ ∃ t v, muxTlvNext (some buf) cursor = .ok (some (t, v, cursor + 4 + v.length))
      ∧ v.length < 2 ^ 16
      ∧ buf.drop cursor = tlvBytes (t, v) ++ buf.drop (cursor + 4 + v.length) := by
  unfold muxTlvNext
  dsimp only
  split_ifs with hend
  · exact .inl ⟨rfl, hend⟩
  split
  · rename_i t₀ t₁ v₀ v₁ rest hdrop
    split_ifs with hshort
    · exact .inr (.inl rfl)
    have hvl : (rest.take (beGet16 v₀ v₁).toNat).length = (beGet16 v₀ v₁).toNat := by
      rw [length_take, Nat.min_eq_left (Nat.not_lt.1 hshort)]
    refine .inr (.inr ⟨_, _, by rw [hvl], hvl ▸ UInt16.toNat_lt _, ?_⟩)
    rw [hvl, Nat.add_assoc, ← drop_drop, hdrop, tlvBytes, hvl, UInt16.ofNat_toNat, bePut16_get,
      bePut16_get, ← drop_drop]
    simp
  · exact .inr (.inl rfl)

/-- The iteration over a buffer: the records, and how it ends. A record takes at least 4 bytes, so
more rounds than there are bytes are enough. -/
def tlvWalk : ℕ → Bytes → ℕ → Option (List (UInt16 × Bytes) × Except MuxErr Unit)
  | 0, _, _ => none
  | n + 1, buf, cursor =>
    match muxTlvNext (some buf) cursor with
    | .error e => some ([], .error e)
    | .ok none => some ([], .ok ())
    | .ok (some (t, v, cursor)) => (tlvWalk n buf cursor).map fun r => ((t, v) :: r.1, r.2)

/-- The iteration from the start of a buffer. -/
def tlvLoop (buf : Bytes) : Option (List (UInt16 × Bytes) × Except MuxErr Unit) :=
  tlvWalk (buf.length + 1) buf 0

theorem tlvWalk_tlvs : ∀ (tlvs : List (UInt16 × Bytes)) (n : ℕ) (pre : Bytes), TlvsSized tlvs →
    tlvs.length < n →
    tlvWalk n (pre ++ tlvs.flatMap tlvBytes) pre.length = some (tlvs, .ok ())
  | [], n + 1, pre, _, _ => by
    rw [tlvWalk, flatMap_nil, append_nil, muxTlvNext_end]
  | (t, v) :: tlvs, n + 1, pre, hv, hn => by
    have ih := tlvWalk_tlvs tlvs n (pre ++ tlvBytes (t, v)) (fun tv htv => hv tv (.tail _ htv))
      (Nat.lt_of_succ_lt_succ hn)
    rw [length_append, length_tlvBytes, append_assoc, ← Nat.add_assoc] at ih
    rw [tlvWalk, flatMap_cons, muxTlvNext_tlvBytes pre _ (hv (t, v) (.head _))]
    dsimp only at ih ⊢
    rw [ih]
    rfl

theorem length_le_flatMap_tlvBytes (tlvs : List (UInt16 × Bytes)) :
    tlvs.length ≤ (tlvs.flatMap tlvBytes).length := by
  induction tlvs with
  | nil => exact Nat.le_refl 0
  | cons tv tlvs ih =>
    rw [flatMap_cons, length_append, length_tlvBytes, length_cons]
    omega

theorem tlvLoop_tlvs {tlvs : List (UInt16 × Bytes)} (hv : TlvsSized tlvs) :
    tlvLoop (tlvs.flatMap tlvBytes) = some (tlvs, .ok ()) :=
  tlvWalk_tlvs tlvs _ [] hv (Nat.lt_succ_of_le (length_le_flatMap_tlvBytes tlvs))

/-- The iteration ends, with the records that the buffer is made of or with an error. -/
theorem tlvWalk_ends : ∀ (n cursor : ℕ), cursor ≤ buf.length → buf.length - cursor < n →
    ∃ tlvs r, tlvWalk n buf cursor = some (tlvs, r)
      ∧ (r = .ok () ∧ TlvsSized tlvs ∧ buf.drop cursor = tlvs.flatMap tlvBytes
        ∨ r = .error .proto)
  | n + 1, cursor, hc, hn => by
    rw [tlvWalk]
    obtain ⟨h, rfl⟩ | h | ⟨t, v, h, hv, hdrop⟩ := muxTlvNext_cases buf cursor
    · exact ⟨[], .ok (), by rw [h], .inl ⟨rfl, by simp [TlvsSized], by simp⟩⟩
    · exact ⟨[], .error .proto, by rw [h], .inr rfl⟩
    · have hlen := congrArg length hdrop
      rw [length_append, length_tlvBytes, length_drop, length_drop] at hlen
      dsimp only at hlen
      obtain ⟨tlvs, r, h1, h2⟩ := tlvWalk_ends n (cursor + 4 + v.length) (by omega) (by omega)
      refine ⟨(t, v) :: tlvs, r, by rw [h]; dsimp only; rw [h1]; rfl, h2.imp_left ?_⟩
      rintro ⟨hr, hs, htail⟩
      exact ⟨hr, forall_mem_cons.2 ⟨hv, hs⟩, by rw [hdrop, htail, flatMap_cons]⟩

/-- The iteration over a whole buffer. It fails exactly on what is no list of records. -/
theorem tlvLoop_ends (buf) : ∃ tlvs r, tlvLoop buf = some (tlvs, r)
      ∧ (r = .ok () ∧ TlvsSized tlvs ∧ tlvs.flatMap tlvBytes = buf
        ∨ r = .error .proto ∧ ¬ ∃ tlvs, TlvsSized tlvs ∧ tlvs.flatMap tlvBytes = buf) := by
  obtain ⟨tlvs, r, h, ⟨hr, hs, hb⟩ | hr⟩ := tlvWalk_ends (buf.length + 1) 0
    (Nat.zero_le buf.length) (by omega)
  · exact ⟨tlvs, r, h, .inl ⟨hr, hs, hb.symm⟩⟩
  · refine ⟨tlvs, r, h, .inr ⟨hr, ?_⟩⟩
    rintro ⟨tlvs', hs, rfl⟩
    have hok := (tlvLoop_tlvs hs).symm.trans h
    rw [hr] at hok
    cases hok

/-- What is put is read back, what is read to its end is what is put, and a put that fails changes
nothing. -/
theorem tlv_codec :
    (∀ (tlvs : List (UInt16 × Bytes)) (buf : Bytes) (off : ℕ), TlvsSized tlvs →
      buf.length < 2 ^ 31 → off + (tlvs.flatMap tlvBytes).length ≤ buf.length →
      ∃ buf' offs, putOffsets tlvs buf off = .ok (buf', offs)
        ∧ offs.length = tlvs.length ∧ (off :: offs).Pairwise (· < ·)
        ∧ (∀ o ∈ offs, o ≤ off + (tlvs.flatMap tlvBytes).length)
        ∧ buf'.take off = buf.take off
        ∧ buf'.drop (off + (tlvs.flatMap tlvBytes).length)
          = buf.drop (off + (tlvs.flatMap tlvBytes).length)
        ∧ tlvLoop ((buf'.drop off).take (tlvs.flatMap tlvBytes).length) = some (tlvs, .ok ())) ∧
    (∀ buf : Bytes, ∃ tlvs r, tlvLoop buf = some (tlvs, r) ∧ (r = .ok () ∨ r = .error .proto)
      ∧ (r = .ok () → ∀ blank : Bytes, blank.length = buf.length →
        ∃ offs, putOffsets tlvs blank 0 = .ok (buf, offs))
      ∧ (r = .error .proto ↔ ¬ ∃ tlvs, TlvsSized tlvs ∧ tlvs.flatMap tlvBytes = buf)) ∧
    (∀ (buf : Bytes) (off : ℕ) (t : UInt16) (val : Bytes) (e : MuxErr),
      (muxTlvPut buf off t val).2 = .error e → (muxTlvPut buf off t val).1 = buf) := by
  refine ⟨fun tlvs buf off hv _ hfit => ?_, fun buf => ?_, fun buf off t val e h => ?_⟩
  · obtain ⟨offs, h1, h2, h3, h4⟩ := putOffsets_ok tlvs buf off hfit
    refine ⟨_, offs, h1, h2, h3, h4, ?_, ?_, ?_⟩
    · rw [splice, List.append_assoc, List.take_append_of_le_length, List.take_take, Nat.min_self]
      rw [List.length_take]
      omega
    · rw [← List.drop_drop, drop_splice hfit, List.drop_left]
    · rw [drop_splice hfit, List.take_left, tlvLoop_tlvs hv]
  · obtain ⟨tlvs, r, h, ⟨rfl, hs, hb⟩ | ⟨rfl, hno⟩⟩ := tlvLoop_ends buf
    · refine ⟨tlvs, .ok (), h, .inl rfl, fun _ blank hlen => ?_, ?_⟩
      · obtain ⟨offs, h1, -⟩ := putOffsets_ok tlvs blank 0 (by rw [hb]; omega)
        refine ⟨offs, h1.trans ?_⟩
        rw [hb, splice, Nat.zero_add, ← hlen]
        simp
      · simpa using ⟨tlvs, hs, hb⟩
    · exact ⟨tlvs, .error .proto, h, .inr rfl, nofun, iff_of_true rfl hno⟩
  · unfold muxTlvPut at h ⊢
    split_ifs at h ⊢ <;> rfl

theorem tlv_codec_peerIdWeight :
    let tlvs : List (UInt16 × Bytes) := [(muxTlvPeerId, []), (muxTlvWeight, [0, 0, 0, 7])]
    (∃ buf' offs, putOffsets tlvs (List.replicate 16 0) 2 = .ok (buf', offs)
        ∧ tlvLoop ((buf'.drop 2).take 12) = some (tlvs, .ok ()))
      ∧ (muxTlvPut [1, 2, 3] 0 muxTlvPeerId []).1 = [1, 2, 3] := by
  intro tlvs
  obtain ⟨buf', offs, h, -, -, -, -, -, hloop⟩ := tlv_codec.1 tlvs (List.replicate 16 0) 2
    (by unfold TlvsSized; decide) (by decide) (by decide)
  exact ⟨⟨buf', offs, h, hloop⟩, tlv_codec.2.2 [1, 2, 3] 0 muxTlvPeerId [] .nospace (by decide)⟩

end Next

end MuxProtocol
