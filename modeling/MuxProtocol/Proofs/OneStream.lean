import MuxProtocol.Stream

/-!
# The invariants of one stream

Proved once, of any session that keeps to `View.Step`. What a session sends and tells its host on a
stream is in order whatever its peer does. The rest assumes that the messages it hears are those of
a session too (`Orderly`).
-/

namespace MuxProtocol

open List

variable {gone own : Prop} {w pw : ℤ} {v v' : View} {ms ms' : List Msg} {m : Msg}

/-! ### Order -/

theorem mem_tellData {p n} : n ∈ tellData p ↔ p ≠ [] ∧ n = .data p := by
  by_cases h : p = [] <;> simp [tellData, h]

namespace Orderly

theorem of_front (h : Orderly own ms) (hp : ms' <+: ms) : Orderly own ms' := by
  refine ⟨fun ho => ?_, fun ho hm => h.no_syn ho (hp.subset hm),
    fun b hb => h.plain b (hp.subset hb), fun p fin hm => h.body p fin (hp.subset hm),
    h.fin.sublist hp.sublist, h.rst.sublist hp.sublist⟩
  rcases h.syn ho with rfl | ⟨t, rfl, ht⟩
  · exact .inl (prefix_nil.1 hp)
  · rcases ms' with _ | ⟨m, t'⟩
    · exact .inl rfl
    · rw [cons_prefix_cons] at hp
      obtain ⟨rfl, hp⟩ := hp
      exact .inr ⟨t', rfl, fun hm => ht (hp.subset hm)⟩

theorem nil (own : Prop) : Orderly own [] :=
  ⟨fun _ => .inl rfl, by simp, by simp, by simp, .nil, .nil⟩

theorem snoc (h : Orderly own ms) (hne : own → ms ≠ []) (hm : m.isSyn = false)
    (hbody : ∀ p fin, m = .data p fin → (p = [] ↔ fin = true))
    (hfin : m.isData = true → ∀ m' ∈ ms, m'.isFin = false) (hrst : .rst ∉ ms) :
    Orderly own (ms ++ [m]) := by
  refine ⟨fun ho => ?_, fun ho hmem => ?_, fun b hb => ?_, fun p fin hp => ?_, ?_, ?_⟩
  · obtain ⟨t, rfl, ht⟩ := (h.syn ho).resolve_left (hne ho)
    refine .inr ⟨t ++ [m], rfl, fun hmem => ?_⟩
    rcases mem_append.1 hmem with hmem | hmem
    · exact ht hmem
    · rw [← mem_singleton.1 hmem] at hm
      cases hm
  · rcases mem_append.1 hmem with hmem | hmem
    · exact h.no_syn ho hmem
    · rw [← mem_singleton.1 hmem] at hm
      cases hm
  · rcases mem_append.1 hb with hb | hb
    · exact h.plain b hb
    · rw [← mem_singleton.1 hb] at hm
      cases hm
  · rcases mem_append.1 hp with hp | hp
    · exact h.body p fin hp
    · exact hbody p fin (mem_singleton.1 hp).symm
  · rw [pairwise_append]
    refine ⟨h.fin, pairwise_singleton _ _, fun m₁ h₁ m₂ h₂ hf => ?_⟩
    rw [mem_singleton.1 h₂]
    by_contra hd
    simp [hfin (by simpa using hd) m₁ h₁] at hf
  · rw [pairwise_append]
    refine ⟨h.rst, pairwise_singleton _ _, fun m₁ h₁ _ _ he => ?_⟩
    exact hrst (he ▸ h₁)

theorem eq_nil (h : Orderly own ms) (ho : own) (hm : .syn ∉ ms) : ms = [] := by
  rcases h.syn ho with h | ⟨t, rfl, -⟩
  · exact h
  · exact absurd (mem_cons_self ..) hm

theorem syn_mem (h : Orderly own ms) (ho : own) (hne : ms ≠ []) : .syn ∈ ms := by
  by_contra hm
  exact hne (h.eq_nil ho hm)

theorem eq_nil_of_syn (h : Orderly own (ms ++ [.syn])) : ms = [] := by
  by_cases ho : own
  · rcases h.syn ho with h | ⟨t, h, ht⟩
    · simp at h
    · rcases ms with _ | ⟨m, ms⟩
      · rfl
      · simp only [cons_append, cons.injEq] at h
        rw [← h.2] at ht
        simp at ht
  · exact absurd (by simp) (h.no_syn ho)

theorem not_isData (h : Orderly own (ms ++ [m])) (hf : ∃ m' ∈ ms, m'.isFin = true) :
    m.isData = false := by
  obtain ⟨m', hm', hfin⟩ := hf
  exact (pairwise_append.1 h.fin).2.2 m' hm' m (mem_singleton_self m) hfin

theorem eq_syn_of_isSyn (h : Orderly own ms) (hm : m ∈ ms) (hs : m.isSyn = true) : m = .syn := by
  cases m with
  | syn => rfl
  | synEnd b => exact absurd hm (h.plain b)
  | _ => cases hs

end Orderly

theorem Msg.bytes_of_not_isData (h : m.isData = false) : m.bytes = [] := by
  cases m <;> simp_all [Msg.isData, Msg.bytes]

/-! ### What a session sends -/

structure Sends (own : Prop) (v : View) : Prop where
  orderly : Orderly own v.out
  unfinished : ∀ e, v.live = some e → e.life ≠ .hclLocal → ∀ m ∈ v.out, m.isFin = false
  unreset : v.live ≠ none → .rst ∉ v.out
  born : v.live ≠ none ∨ v.out ≠ [] → v.Born own

theorem forall_mem_snoc {α : Type*} {P : α → Prop} {l} {a : α} (hl : ∀ x ∈ l, P x) (ha : P a) :
    ∀ x ∈ l ++ [a], P x := by
  intro x hx
  rcases mem_append.1 hx with hx | hx
  · exact hl x hx
  · exact mem_singleton.1 hx ▸ ha

theorem not_mem_snoc {α : Type*} {l} {a b : α} (hl : a ∉ l) (hb : a ≠ b) : a ∉ l ++ [b] := by
  simp [hl, hb]

theorem View.Step.born (h : View.Step gone own w pw v v') (hb : v.Born own) : v'.Born own := by
  refine ⟨fun ho => ?_, fun ho => ?_⟩
  · have hs := hb.1 ho
    cases h <;> simp [hs]
  · obtain ⟨m, hm, hs⟩ := hb.2 ho
    refine ⟨m, ?_, hs⟩
    cases h <;> simp [hm]

/-- What is said on the stream, and which directions are open. -/
theorem View.Step.sends (h : View.Step gone own w pw v v') (hi : Sends own v) :
    Sends own v' := by
  have hborn : v.Born own → v'.Born own := h.born
  have ho := hi.orderly
  have hlive : ∀ {e}, v.live = some e → v.Born own := fun hl => hi.born (.inl (by simp [hl]))
  have hne : ∀ {e}, v.live = some e → own → v.out ≠ [] := fun hl hown hnil => by
    simpa [hnil] using (hlive hl).1 hown
  have hrst : ∀ {e}, v.live = some e → .rst ∉ v.out := fun hl => hi.unreset (by simp [hl])
  have hun := hi.unfinished
  -- before the SYN of the peer nothing is sent
  have hnil : ¬ own → (∀ m ∈ v.inp, m.isSyn = false) → v.out = [] := fun hown hno => by
    by_contra hout
    obtain ⟨m, hm, hs⟩ := (hi.born (.inr hout)).2 hown
    simp [hno m hm] at hs
  cases h with
  | idle => exact hi
  | opened hown hl hs =>
    have hout := ho.eq_nil hown hs
    refine ⟨⟨fun _ => .inr ⟨[], by simp [hout]⟩, fun h => absurd hown h, ?_, ?_, ?_, ?_⟩, ?_, ?_,
      fun _ => ⟨fun _ => by simp, fun h => absurd hown h⟩⟩
    all_goals simp [hout, Msg.isFin]
  | wrote hl hlife hp =>
    refine ⟨ho.snoc (hne hl) rfl (by simp [hp]) (fun _ => hun _ hl hlife) (hrst hl), ?_,
      fun _ => not_mem_snoc (hrst hl) (by simp), fun _ => hborn (hlive hl)⟩
    intro e _ _
    exact forall_mem_snoc (hun _ hl hlife) rfl
  | @half e hl hlife =>
    have hun := hun e hl (by rw [hlife]; decide)
    refine ⟨ho.snoc (hne hl) rfl (by simp) (fun _ => hun) (hrst hl), ?_,
      fun _ => not_mem_snoc (hrst hl) (by simp), fun _ => hborn (hlive hl)⟩
    intro e he hlife'
    cases he
    exact absurd rfl hlife'
  | @full e hl hlife =>
    have hun := hun e hl (by rw [hlife]; decide)
    exact ⟨ho.snoc (hne hl) rfl (by simp) (fun _ => hun) (hrst hl), by simp, by simp,
      fun _ => hborn (hlive hl)⟩
  | reset hl =>
    exact ⟨ho.snoc (hne hl) rfl (by simp) (by simp [Msg.isData]) (hrst hl), by simp, by simp,
      fun _ => hborn (hlive hl)⟩
  | lost hl => exact ⟨ho, by simp, by simp, fun _ => hborn (hlive hl)⟩
  | granted k hl =>
    refine ⟨ho.snoc (hne hl) rfl (by simp) (by simp [Msg.isData]) (hrst hl), ?_,
      fun _ => not_mem_snoc (hrst hl) (by simp), fun _ => hborn (hlive hl)⟩
    intro e he hlife
    cases he
    exact forall_mem_snoc (hun _ hl hlife) rfl
  | woke hl => exact ⟨ho, hun, hi.unreset, fun h => hborn (hi.born h)⟩
  | @refused m rst hown hl hs hno =>
    refine ⟨?_, by simp [hl], by simp [hl],
      fun _ => ⟨fun h => absurd h hown, fun _ => ⟨m, mem_concat_self, hs⟩⟩⟩
    rw [hnil hown hno]
    cases rst
    · exact .nil own
    · exact (Orderly.nil own).snoc (fun h => absurd h hown) rfl (by simp) (by simp) (by simp)
  | accepted hown hl hno | acceptedFin hown hl hno =>
    have hout := hnil hown hno
    exact ⟨ho, by simp [hout], by simp [hout],
      fun _ => ⟨fun h => absurd h hown, fun _ => ⟨_, mem_concat_self, rfl⟩⟩⟩
  | acceptedRst hown hl hno =>
    exact ⟨ho, by simp [hl], by simp [hl],
      fun _ => ⟨fun h => absurd h hown, fun _ => ⟨_, mem_concat_self, rfl⟩⟩⟩
  | stray hl => exact ⟨ho, by simp [hl], by simp [hl], fun h => hborn (hi.born h)⟩
  | resetBy hl => exact ⟨ho, by simp, by simp, fun _ => hborn (hlive hl)⟩
  | aborted p fin rst hl =>
    refine ⟨?_, by simp, by simp, fun _ => hborn (hlive hl)⟩
    cases rst
    · simpa [putRst] using ho
    · exact ho.snoc (hne hl) rfl (by simp) (by simp [Msg.isData]) (hrst hl)
  | data p hl | credited n wake hl =>
    refine ⟨ho, ?_, fun _ => hrst hl, fun _ => hborn (hlive hl)⟩
    intro e he hlife
    cases he
    exact hun _ hl hlife
  | fin p hl hlife =>
    exact ⟨ho, fun e _ _ => hun _ hl hlife, fun _ => hrst hl, fun _ => hborn (hlive hl)⟩
  | finLast p hl => exact ⟨ho, by simp, by simp, fun _ => hborn (hlive hl)⟩
  | deaf m => exact ⟨ho, hun, hi.unreset, fun h => hborn (hi.born h)⟩

/-! ### What a session tells its host -/

section Tells

variable {ns ns' : List Notice} {n : Notice}

namespace Announced

theorem nil (own : Prop) : Announced own [] := ⟨fun _ => .inl rfl, by simp, .nil, .nil⟩

theorem snoc (h : Announced own ns) (hne : ¬ own → ns ≠ []) (hn : n ≠ .opened)
    (hc : .closed ∈ ns → ∀ p, n ≠ .data p) (hr : .reset ∉ ns) :
    Announced own (ns ++ [n]) := by
  refine ⟨fun ho => ?_, fun ho hm => ?_, ?_, ?_⟩
  · obtain ⟨t, rfl, ht⟩ := (h.opened ho).resolve_left (hne ho)
    exact .inr ⟨t ++ [n], rfl, not_mem_snoc ht hn.symm⟩
  · rcases mem_append.1 hm with hm | hm
    · exact h.not_opened ho hm
    · exact hn (mem_singleton.1 hm).symm
  · rw [pairwise_append]
    refine ⟨h.closed, pairwise_singleton _ _, fun n₁ h₁ n₂ h₂ he => ?_⟩
    rw [mem_singleton.1 h₂]
    exact hc (he ▸ h₁)
  · rw [pairwise_append]
    exact ⟨h.reset, pairwise_singleton _ _, fun n₁ h₁ _ _ he => hr (he ▸ h₁)⟩

theorem tellData (h : Announced own ns) (hne : ¬ own → ns ≠ []) {p} (hc : p ≠ [] → .closed ∉ ns)
    (hr : .reset ∉ ns) : Announced own (ns ++ tellData p) := by
  by_cases hp : p = []
  · simpa [MuxProtocol.tellData, hp] using h
  · rw [MuxProtocol.tellData, if_neg hp]
    exact h.snoc hne (by simp) (fun h => absurd h (hc hp)) hr

end Announced

structure Tells (own : Prop) (v : View) : Prop where
  announced : Announced own v.told
  unclosed : ∀ e, v.live = some e → e.life ≠ .hclRemote → .closed ∉ v.told
  unreset : v.live ≠ none → .reset ∉ v.told
  opened : ¬ own → v.live ≠ none → v.told ≠ []
  born : v.told ≠ [] → v.Born own

/-- What the host is told of the stream. -/
theorem View.Step.tells (h : View.Step gone own w pw v v') (hs : Sends own v)
    (hi : Tells own v) : Tells own v' := by
  have hborn : v.Born own → v'.Born own := h.born
  have ha := hi.announced
  have hlive : ∀ {e}, v.live = some e → v.Born own := fun hl => hs.born (.inl (by simp [hl]))
  have hrst : ∀ {e}, v.live = some e → .reset ∉ v.told := fun hl => hi.unreset (by simp [hl])
  have hne : ∀ {e}, v.live = some e → ¬ own → v.told ≠ [] := fun hl ho =>
    hi.opened ho (by simp [hl])
  have hun := hi.unclosed
  -- before the SYN of the peer nothing is told
  have hnil : ¬ own → (∀ m ∈ v.inp, m.isSyn = false) → v.told = [] := fun hown hno => by
    by_contra htold
    obtain ⟨m, hm, hs⟩ := (hi.born htold).2 hown
    simp [hno m hm] at hs
  cases h with
  | idle => exact hi
  | opened hown hl hsyn =>
    have htold : v.told = [] := by
      by_contra h
      exact hsyn ((hi.born h).1 hown)
    exact ⟨ha, by simp [htold], by simp [htold], fun h => absurd hown h, by simp [htold]⟩
  | wrote hl | granted k hl =>
    refine ⟨ha, ?_, fun _ => hrst hl, fun ho _ => hne hl ho, fun _ => hborn (hlive hl)⟩
    intro e he hlife
    cases he
    exact hun _ hl hlife
  | @half e hl hlife =>
    refine ⟨ha, fun _ _ _ => hun e hl (by rw [hlife]; decide), fun _ => hrst hl,
      fun ho _ => hne hl ho, fun _ => hborn (hlive hl)⟩
  | full hl | reset hl | lost hl =>
    exact ⟨ha, by simp, by simp, by simp, fun _ => hborn (hlive hl)⟩
  | woke hl =>
    refine ⟨ha.snoc (hne hl) (by simp) (by simp) (hrst hl), ?_,
      fun _ => not_mem_snoc (hrst hl) (by simp), by simp, fun _ => hborn (hlive hl)⟩
    intro e he hlife
    exact not_mem_snoc (hun e he hlife) (by simp)
  | refused rst hown hl =>
    exact ⟨ha, by simp [hl], by simp [hl], by simp [hl], fun h => hborn (hi.born h)⟩
  | accepted hown hl hno =>
    have htold := hnil hown hno
    refine ⟨⟨fun _ => .inr ⟨[], by simp [htold]⟩, fun h => absurd h hown, ?_, ?_⟩, ?_, ?_, ?_,
      fun _ => ⟨fun h => absurd h hown, fun _ => ⟨_, mem_concat_self, rfl⟩⟩⟩
    all_goals simp [htold]
  | acceptedFin hown hl hno =>
    have htold := hnil hown hno
    refine ⟨⟨fun _ => .inr ⟨[.closed], by simp [htold]⟩, fun h => absurd h hown, ?_, ?_⟩, ?_, ?_,
      ?_,
      fun _ => ⟨fun h => absurd h hown, fun _ => ⟨_, mem_concat_self, rfl⟩⟩⟩
    all_goals simp [htold]
  | acceptedRst hown hl hno =>
    have htold := hnil hown hno
    refine ⟨⟨fun _ => .inr ⟨[.reset], by simp [htold]⟩, fun h => absurd h hown, ?_, ?_⟩, ?_, ?_, ?_,
      fun _ => ⟨fun h => absurd h hown, fun _ => ⟨_, mem_concat_self, rfl⟩⟩⟩
    all_goals simp [htold, hl]
  | stray hl => exact ⟨ha, by simp [hl], by simp [hl], by simp [hl], fun h => hborn (hi.born h)⟩
  | resetBy hl | aborted p fin rst hl =>
    exact ⟨ha.snoc (hne hl) (by simp) (by simp) (hrst hl), by simp, by simp, by simp,
      fun _ => hborn (hlive hl)⟩
  | @data e p hl hlife =>
    have hc : p ≠ [] → .closed ∉ v.told := fun hp => hun e hl (hlife hp)
    refine ⟨ha.tellData (hne hl) hc (hrst hl), ?_, fun _ => ?_, fun ho _ => ?_,
      fun _ => hborn (hlive hl)⟩
    · intro e' he hlife'
      cases he
      simpa [mem_tellData] using hun e hl hlife'
    · simpa [mem_tellData] using hrst hl
    · simp [hne hl ho]
  | @fin e p hl hlife hp =>
    have hd := ha.tellData (hne hl) (fun h => hun e hl (hp h)) (p := p) (hrst hl)
    rw [← append_assoc]
    refine ⟨hd.snoc (fun ho => by simp [hne hl ho]) (by simp) (by simp) ?_, ?_,
      fun _ => ?_, by simp,
      fun _ => hborn (hlive hl)⟩
    · simpa [mem_tellData] using hrst hl
    · intro e' he hlife'
      cases he
      exact absurd rfl hlife'
    · simpa [mem_tellData] using hrst hl
  | @finLast e p hl hlife =>
    have hc := hun e hl (by rw [hlife]; decide)
    have hd := ha.tellData (hne hl) (fun _ => hc) (p := p) (hrst hl)
    rw [← append_assoc]
    refine ⟨hd.snoc (fun ho => by simp [hne hl ho]) (by simp) (by simp) ?_, by simp, by simp,
      by simp, fun _ => hborn (hlive hl)⟩
    simpa [mem_tellData] using hrst hl
  | credited n wake hl =>
    cases wake
    · refine ⟨by simpa using ha, ?_, fun _ => by simpa using hrst hl,
        fun ho _ => by simpa using hne hl ho, fun _ => hborn (hlive hl)⟩
      intro e he hlife
      cases he
      simpa using hun _ hl hlife
    · refine ⟨ha.snoc (hne hl) (by simp) (by simp) (hrst hl), ?_,
        fun _ => not_mem_snoc (hrst hl) (by simp), by simp, fun _ => hborn (hlive hl)⟩
      intro e he hlife
      cases he
      exact not_mem_snoc (hun _ hl hlife) (by simp)
  | deaf m => exact ⟨ha, hun, hi.unreset, hi.opened, fun h => hborn (hi.born h)⟩

theorem count_tellData {p} : (tellData p).count .closed = 0 := by
  by_cases h : p = [] <;> simp [tellData, h]

theorem View.Step.closed_once (h : View.Step gone own w pw v v') (hi : Tells own v)
    (hfin : ¬ v.FinAgain v') (hc : v.told.count .closed ≤ 1) : v'.told.count .closed ≤ 1 := by
  have hnil : ¬ own → (∀ m ∈ v.inp, m.isSyn = false) → v.told = [] := fun hown hno => by
    by_contra htold
    obtain ⟨m, hm, hs⟩ := (hi.born htold).2 hown
    simp [hno m hm] at hs
  cases h with
  | acceptedFin hown _ hno => simp [hnil hown hno]
  | @fin e p hl hlife hp =>
    have hremote : e.life ≠ .hclRemote := fun he => by
      by_cases hnil : p = []
      · exact hfin ⟨e, hl, he, by rw [hnil]⟩
      · exact hp hnil he
    simp [count_tellData, count_eq_zero_of_not_mem (hi.unclosed e hl hremote)]
  | @finLast e p hl hlife =>
    simp [count_tellData, count_eq_zero_of_not_mem (hi.unclosed e hl (by rw [hlife]; decide))]
  | credited n wake => cases wake <;> simpa using hc
  | data p => simpa [count_tellData] using hc
  | _ => simpa using hc

/-- A stream of the peer that is not announced: the session refuses it. -/
structure Refuses (own : Prop) (v : View) : Prop where
  opened : ¬ own → v.live ≠ none → .opened ∈ v.told
  out : ¬ own → .opened ∉ v.told → v.out = [] ∨ v.out = [.rst]

theorem View.Step.refuses (h : View.Step gone own w pw v v') (hs : Sends own v)
    (hi : Refuses own v) : Refuses own v' := by
  have hop : ∀ {e}, v.live = some e → ¬ own → .opened ∈ v.told := fun hl ho =>
    hi.opened ho (by simp [hl])
  have hout := hi.out
  cases h with
  | idle => exact hi
  | opened hown => exact ⟨fun h => absurd hown h, fun h => absurd hown h⟩
  | wrote hl | half hl | full hl | reset hl | lost hl | granted k hl | woke hl | resetBy hl
  | aborted p fin rst hl | data p hl | fin p hl | finLast p hl | credited n wake hl =>
    refine ⟨fun ho _ => ?_, fun ho hno => absurd ?_ hno⟩ <;> simp [hop hl ho]
  | @refused m rst hown hl hsyn hno =>
    have hnil : v.out = [] := by
      by_contra hne
      obtain ⟨m, hm, hs⟩ := (hs.born (.inr hne)).2 hown
      simp [hno m hm] at hs
    refine ⟨by simp [hl], fun _ _ => ?_⟩
    cases rst <;> simp [hnil, putRst]
  | accepted | acceptedFin => exact ⟨by simp, by simp⟩
  | acceptedRst _ hl => exact ⟨by simp, by simp⟩
  | stray hl => exact ⟨by simp [hl], hout⟩
  | deaf => exact ⟨hi.opened, hout⟩

end Tells

/-! ### A stream that is over -/

/-- The stream was opened and its record is gone. -/
structure View.Over (own : Prop) (v : View) : Prop where
  gone : v.live = none
  born : v.Born own

theorem Sends.over_of_rst (hs : Sends own v) (h : .rst ∈ v.out) : v.Over own := by
  refine ⟨?_, hs.born (.inr (ne_nil_of_mem h))⟩
  by_contra hl
  exact hs.unreset hl h

theorem Tells.over_of_reset (hi : Tells own v) (h : .reset ∈ v.told) : v.Over own := by
  refine ⟨?_, hi.born (ne_nil_of_mem h)⟩
  by_contra hl
  exact hi.unreset hl h

theorem Sends.over_of_closed (hs : Sends own v) (hi : Tells own v) {m : Msg} (hm : m ∈ v.out)
    (hfin : m.isFin = true) (hc : .closed ∈ v.told) : v.Over own := by
  refine ⟨?_, hs.born (.inr (ne_nil_of_mem hm))⟩
  rcases hl : v.live with _ | e
  · rfl
  · by_cases hlife : e.life = .hclLocal
    · exact absurd hc (hi.unclosed e hl (by rw [hlife]; decide))
    · simp [hs.unfinished e hl hlife m hm] at hfin

theorem View.Step.over (h : View.Step gone own w pw v v') (ho : v.Over own) :
    v'.Over own ∧ v'.out = v.out ∧ v'.told = v.told := by
  have hborn := h.born ho.born
  have hl := ho.gone
  have hno : ¬ own → ¬ ∀ m ∈ v.inp, m.isSyn = false := fun hown hno => by
    obtain ⟨m, hm, hs⟩ := ho.born.2 hown
    simp [hno m hm] at hs
  cases h with
  | idle => exact ⟨ho, rfl, rfl⟩
  | opened hown _ hs => exact absurd (ho.born.1 hown) hs
  | refused _ hown _ _ h | accepted hown _ h | acceptedFin hown _ h | acceptedRst hown _ h =>
    exact absurd h (hno hown)
  | stray | deaf => exact ⟨⟨hl, hborn⟩, rfl, rfl⟩
  | _ => simp_all

/-! ### The bytes delivered -/

section Rely

variable {dead : Prop}

/-- What is delivered is the front of what is heard; while the stream is live, and once CLOSED is
told, it is all of it. -/
structure Receives (dead : Prop) (v : View) : Prop where
  live : ¬ dead → v.live ≠ none → v.toldBytes = bytesOf v.inp
  front : v.toldBytes <+: bytesOf v.inp
  closed : .closed ∈ v.told → v.FinHeard ∧ v.toldBytes = bytesOf v.inp

theorem flatMap_tellData (p) : (tellData p).flatMap Notice.bytes = p := by
  by_cases h : p = [] <;> simp [tellData, h, Notice.bytes]

theorem View.Rely.eq_nil (hr : v.Rely own) (hs : Sends own v) (hown : own) (hsyn : .syn ∉ v.out) :
    v.out = [] ∧ v.inp = [] :=
  have hout := hs.orderly.eq_nil hown hsyn
  ⟨hout, hr.unborn hown hout⟩

theorem View.FinHeard.bytes_eq {m} (hf : v.FinHeard) (ho : Orderly own (v.inp ++ [m])) :
    bytesOf (v.inp ++ [m]) = bytesOf v.inp := by
  rw [bytesOf_append, bytesOf_singleton, Msg.bytes_of_not_isData (ho.not_isData hf), append_nil]

theorem View.FinHeard.snoc {v : View} (hf : v.FinHeard) (m l out ns) :
    View.FinHeard ⟨l, out, v.inp ++ [m], ns⟩ := by
  obtain ⟨m', hm, hfin⟩ := hf
  exact ⟨m', mem_append_left _ hm, hfin⟩

theorem finHeard_of_data (v : View) (p l out ns) :
    View.FinHeard ⟨l, out, v.inp ++ [.data p true], ns⟩ :=
  ⟨.data p true, mem_concat_self, rfl⟩

namespace Receives

variable {l : Option StreamEnd} {out : List Msg} {ns : List Notice}

theorem told (hi : Receives dead v)
    (hl : ¬ gone → l ≠ none → v.toldBytes = bytesOf v.inp) (hn : ns.flatMap Notice.bytes = [])
    (hc : .closed ∉ ns) : Receives gone ⟨l, out, v.inp, v.told ++ ns⟩ := by
  have hb : View.toldBytes ⟨l, out, v.inp, v.told ++ ns⟩ = v.toldBytes := by
    simp [View.toldBytes, hn]
  refine ⟨fun hg hl' => hb.trans (hl hg hl'), hb ▸ hi.front, fun h => ?_⟩
  rw [hb]
  exact hi.closed ((mem_append.1 h).resolve_right hc)

theorem missed (hi : Receives dead v) (ho : Orderly own (v.inp ++ [m]))
    (hl : ¬ gone → l ≠ none → v.toldBytes = bytesOf (v.inp ++ [m]))
    (hn : ns.flatMap Notice.bytes = []) (hc : .closed ∉ ns) :
    Receives gone ⟨l, out, v.inp ++ [m], v.told ++ ns⟩ := by
  have hb : View.toldBytes ⟨l, out, v.inp ++ [m], v.told ++ ns⟩ = v.toldBytes := by
    simp [View.toldBytes, hn]
  refine ⟨fun hg hl' => hb.trans (hl hg hl'), ?_, fun h => ?_⟩
  · rw [hb]
    exact hi.front.trans (bytesOf_mono (prefix_append _ _))
  · obtain ⟨hf, he⟩ := hi.closed ((mem_append.1 h).resolve_right hc)
    exact ⟨hf.snoc m l out _, hb.trans (he.trans (hf.bytes_eq ho).symm)⟩

theorem delivered {p fin} (hi : Receives dead v) (he : v.toldBytes = bytesOf v.inp)
    (hn : ns.flatMap Notice.bytes = p) (hc : .closed ∈ ns → fin = true) :
    Receives gone ⟨l, out, v.inp ++ [.data p fin], v.told ++ ns⟩ := by
  have hb : View.toldBytes ⟨l, out, v.inp ++ [.data p fin], v.told ++ ns⟩
      = bytesOf (v.inp ++ [.data p fin]) := by
    rw [View.toldBytes, flatMap_append, hn, bytesOf_append, bytesOf_singleton, ← he]
    rfl
  refine ⟨fun _ _ => hb, hb ▸ prefix_refl _, fun h => ⟨?_, hb⟩⟩
  rcases mem_append.1 h with h | h
  · exact (hi.closed h).1.snoc _ l out _
  · rw [hc h]
    exact finHeard_of_data v p l out _

end Receives

/-- What is heard is delivered in order. -/
theorem View.Step.receives (h : View.Step gone own w pw v v') (hs : Sends own v)
    (hr : v.Rely own) (hr' : v'.Rely own) (hdead : dead → gone)
    (hear : v'.inp ≠ v.inp → ¬ dead) (hi : Receives dead v) : Receives gone v' := by
  have ho := hr'.orderly
  have hall : ∀ {e}, ¬ dead → v.live = some e → v.toldBytes = bytesOf v.inp := fun hd hl =>
    hi.live hd (by simp [hl])
  have hall' : ∀ {e}, ¬ gone → v.live = some e → v.toldBytes = bytesOf v.inp := fun hg =>
    hall fun hd => hg (hdead hd)
  have hnil : v.inp = [] → v.toldBytes = [] := fun h => by
    have hf := hi.front
    rw [h] at hf
    exact prefix_nil.1 hf
  have hkeep : ∀ {l out}, (¬ gone → l ≠ none → v.toldBytes = bytesOf v.inp) →
      Receives gone ⟨l, out, v.inp, v.told⟩ := fun h => ⟨h, hi.front, hi.closed⟩
  have hmissed : ∀ {m l out}, Orderly (¬ own) (v.inp ++ [m]) →
      (¬ gone → l ≠ none → v.toldBytes = bytesOf (v.inp ++ [m])) →
      Receives gone ⟨l, out, v.inp ++ [m], v.told⟩ := by
    intro m l out ho h
    have : Receives gone ⟨l, out, v.inp ++ [m], v.told ++ []⟩ := hi.missed ho h rfl (by simp)
    rwa [append_nil] at this
  cases h with
  | idle => exact hkeep fun hg => hi.live fun hd => hg (hdead hd)
  | opened hown _ hsyn =>
    have hinp := (hr.eq_nil hs hown hsyn).2
    exact hkeep fun _ _ => by rw [hnil hinp, hinp, bytesOf_nil]
  | wrote hl | half hl | granted k hl => exact hkeep fun hg _ => hall' hg hl
  | full hl | reset hl | lost hl => exact hkeep (by simp)
  | woke hl => exact hi.told (fun hg _ => hall' hg hl) rfl (by simp)
  | refused rst hown hl => exact hmissed ho (by simp [hl])
  | accepted hown hl hno =>
    have hinp := ho.eq_nil_of_syn
    refine hi.missed ho (fun _ _ => ?_) rfl (by simp)
    rw [hnil hinp, hinp]
    rfl
  | acceptedFin hown hl hno => exact absurd (by simp) (ho.plain false)
  | acceptedRst hown hl hno => exact absurd (by simp) (ho.plain true)
  | stray hl => exact hmissed ho (by simp [hl])
  | resetBy hl | aborted p fin rst hl => exact hi.missed ho (by simp) rfl (by simp)
  | data p hl hlife =>
    exact hi.delivered (hall (hear (by simp)) hl) (flatMap_tellData p) (by simp [mem_tellData])
  | fin p hl hlife hp | finLast p hl hlife =>
    refine hi.delivered (hall (hear (by simp)) hl) ?_ fun _ => rfl
    rw [flatMap_append, flatMap_tellData]
    simp [Notice.bytes]
  | credited n wake hl =>
    refine hi.missed ho (fun hg _ => ?_) ?_ ?_
    · rw [hall' hg hl]
      simp [Msg.bytes]
    · cases wake <;> rfl
    · cases wake <;> simp
  | deaf m hg => exact hmissed ho fun h => absurd hg h

/-! ### Which streams are live -/

/-- Whether a stream is live, and which of its directions are, is in the messages of both sides. -/
structure Tracks (v : View) : Prop where
  born : ∀ e, v.live = some e → v.out ≠ [] ∨ v.inp ≠ []
  unreset : ∀ e, v.live = some e → .rst ∉ v.out ∧ .rst ∉ v.inp
  sent : ∀ e, v.live = some e → (e.life = .hclLocal ↔ v.FinSent)
  heard : ∀ e, v.live = some e → (e.life = .hclRemote ↔ v.FinHeard)
  gone : v.live = none → v.out = [] ∧ v.inp = [] ∨ v.Ended

theorem View.FinSent.mono (h : v.FinSent) (hp : v.out <+: v'.out) : v'.FinSent := by
  obtain ⟨m, hm, hf⟩ := h
  exact ⟨m, hp.subset hm, hf⟩

theorem View.FinHeard.mono (h : v.FinHeard) (hp : v.inp <+: v'.inp) : v'.FinHeard := by
  obtain ⟨m, hm, hf⟩ := h
  exact ⟨m, hp.subset hm, hf⟩

theorem View.Ended.mono (h : v.Ended) (ho : v.out <+: v'.out) (hi : v.inp <+: v'.inp) :
    v'.Ended := by
  rcases h with h | h | ⟨h1, h2⟩
  · exact .inl (ho.subset h)
  · exact .inr (.inl (hi.subset h))
  · exact .inr (.inr ⟨h1.mono ho, h2.mono hi⟩)

theorem exists_isFin_snoc (hm : m.isFin = false) :
    (∃ m' ∈ ms ++ [m], m'.isFin = true) ↔ ∃ m' ∈ ms, m'.isFin = true := by
  simp [hm]

namespace Tracks

theorem of_live {e : StreamEnd} (hl : v.live = some e) (hborn : v.out ≠ [] ∨ v.inp ≠ [])
    (hrst : .rst ∉ v.out ∧ .rst ∉ v.inp) (hs : e.life = .hclLocal ↔ v.FinSent)
    (hh : e.life = .hclRemote ↔ v.FinHeard) : Tracks v := by
  refine ⟨fun _ _ => hborn, fun _ _ => hrst, fun e' he => ?_, fun e' he => ?_,
    fun h => by simp [hl] at h⟩
  · rw [hl] at he
    cases he
    exact hs
  · rw [hl] at he
    cases he
    exact hh

theorem of_over (hl : v.live = none) (h : v.out = [] ∧ v.inp = [] ∨ v.Ended) : Tracks v :=
  ⟨by simp [hl], by simp [hl], by simp [hl], by simp [hl], fun _ => h⟩

theorem live_eq_none (hi : Tracks v) : v.live = none ↔ v.out = [] ∧ v.inp = [] ∨ v.Ended := by
  refine ⟨hi.gone, fun h => ?_⟩
  rcases hl : v.live with _ | e
  · rfl
  · exfalso
    rcases h with ⟨h1, h2⟩ | h | h | ⟨h1, h2⟩
    · exact (hi.born e hl).elim (· h1) (· h2)
    · exact (hi.unreset e hl).1 h
    · exact (hi.unreset e hl).2 h
    · exact absurd ((hi.sent e hl).2 h1) (by rw [(hi.heard e hl).2 h2]; decide)

end Tracks

/-- Each end knows of the other what its messages tell. -/
theorem View.Step.tracks (h : View.Step gone own w pw v v') (hs : Sends own v) (hg : ¬ gone)
    (hr : v.Rely own) (hr' : v'.Rely own) (hi : Tracks v) : Tracks v' := by
  have ho := hr'.orderly
  cases h with
  | idle => exact hi
  | opened hown _ hsyn =>
    obtain ⟨hout, hinp⟩ := hr.eq_nil hs hown hsyn
    refine .of_live rfl (.inl (by simp)) ?_ ?_ ?_ <;>
      simp [hout, hinp, View.FinSent, View.FinHeard, Msg.isFin]
  | @wrote e _ hl | @granted e k hl =>
    refine .of_live rfl (.inl (by simp)) ?_ ?_ (hi.heard e hl)
    · simpa using hi.unreset e hl
    · exact (hi.sent e hl).trans (exists_isFin_snoc rfl).symm
  | @half e hl hlife =>
    refine .of_live rfl (.inl (by simp)) ?_ ?_ ?_
    · simpa using hi.unreset _ hl
    · exact ⟨fun _ => ⟨_, mem_concat_self, rfl⟩, fun _ => rfl⟩
    · have := hi.heard _ hl
      rw [hlife] at this
      exact ⟨fun h => (nomatch h), fun h => (nomatch this.2 h)⟩
  | full hl hlife =>
    refine .of_over rfl (.inr (.inr (.inr ⟨⟨_, mem_concat_self, rfl⟩, ?_⟩)))
    exact (hi.heard _ hl).1 hlife
  | reset hl => exact .of_over rfl (.inr (.inl mem_concat_self))
  | lost hl h => exact absurd h hg
  | woke hl => exact .of_live hl (hi.born _ hl) (hi.unreset _ hl) (hi.sent _ hl) (hi.heard _ hl)
  | refused rst hown hl _ _ hrst =>
    rw [hrst.resolve_right hg]
    exact .of_over hl (.inr (.inl mem_concat_self))
  | accepted hown hl hno =>
    have hinp := ho.eq_nil_of_syn
    have hout : v.out = [] := by
      by_contra hne
      obtain ⟨m, hm, -⟩ := (hs.born (.inr hne)).2 hown
      simp [hinp] at hm
    refine .of_live rfl (.inr (by simp)) ?_ ?_ ?_ <;>
      simp [hout, hinp, View.FinSent, View.FinHeard, Msg.isFin]
  | acceptedFin hown hl hno => exact absurd (by simp) (ho.plain false)
  | acceptedRst hown hl hno => exact absurd (by simp) (ho.plain true)
  | @stray m hl hm =>
    refine .of_over hl ?_
    rcases hi.gone hl with ⟨hout, hinp⟩ | hend
    · exfalso
      by_cases hown : own
      · exact absurd (hr'.unborn hown hout) (by simp)
      · rcases ho.syn hown with h | ⟨t, h, -⟩
        · simp at h
        · rw [show v.inp = [] from hinp] at h
          cases h
          cases hm
    · exact .inr (hend.mono (prefix_refl _) (prefix_append _ _))
  | resetBy hl => exact .of_over rfl (.inr (.inr (.inl mem_concat_self)))
  | aborted p fin rst hl hrst =>
    rw [hrst.resolve_right hg]
    exact .of_over rfl (.inr (.inl mem_concat_self))
  | @data e p hl | @credited e n wake hl =>
    refine .of_live rfl (.inr (by simp)) ?_ (hi.sent e hl) ?_
    · simpa using hi.unreset e hl
    · exact (hi.heard e hl).trans (exists_isFin_snoc rfl).symm
  | fin p hl hlife =>
    refine .of_live rfl (.inr (by simp)) ?_ ?_ ?_
    · simpa using hi.unreset _ hl
    · exact ⟨fun h => (nomatch h), fun h => absurd ((hi.sent _ hl).2 h) hlife⟩
    · exact ⟨fun _ => ⟨_, mem_concat_self, rfl⟩, fun _ => rfl⟩
  | finLast p hl hlife =>
    refine .of_over rfl (.inr (.inr (.inr ⟨?_, ⟨_, mem_concat_self, rfl⟩⟩)))
    exact (hi.sent _ hl).1 hlife
  | deaf m h => exact absurd h hg

/-! ### The windows of a stream -/

/-- The windows of a live stream are accounts of its messages; the messages that a dead session
hears are not in them. -/
structure Windows (dead : Prop) (w pw : ℤ) (v : View) : Prop where
  send : ∀ e, v.live = some e → e.sendWin + (bytesOf v.out).length ≤ pw + grantOf v.inp
  recv : ∀ e, v.live = some e → w + grantOf v.out ≤ e.recvWin + (bytesOf v.inp).length
  send_eq : ¬ dead → ∀ e, v.live = some e →
    e.sendWin + (bytesOf v.out).length = pw + grantOf v.inp
  recv_eq : ¬ dead → ∀ e, v.live = some e →
    w + grantOf v.out = e.recvWin + (bytesOf v.inp).length
  within : ((bytesOf v.out).length : ℤ) ≤ pw + grantOf v.inp

namespace Windows

theorem of_none (hl : v.live = none) (hin : ((bytesOf v.out).length : ℤ) ≤ pw + grantOf v.inp) :
    Windows dead w pw v :=
  ⟨by simp [hl], by simp [hl], by simp [hl], by simp [hl], hin⟩

/-- What a message adds to one side of an account it takes from the other. -/
theorem of_live {e e' : StreamEnd} (hi : Windows dead w pw v) (hdead : dead → gone)
    (hl : v.live = some e) (hl' : v'.live = some e')
    (hs : e'.sendWin + (bytesOf v'.out).length + grantOf v.inp
      = e.sendWin + (bytesOf v.out).length + grantOf v'.inp)
    (hr : e'.recvWin + (bytesOf v'.inp).length + grantOf v.out
      = e.recvWin + (bytesOf v.inp).length + grantOf v'.out)
    (hin : ((bytesOf v'.out).length : ℤ) ≤ pw + grantOf v'.inp) : Windows gone w pw v' := by
  have h1 := hi.send e hl
  have h2 := hi.recv e hl
  have h3 : ¬ gone → _ := fun hg => hi.send_eq (fun hd => hg (hdead hd)) e hl
  have h4 : ¬ gone → _ := fun hg => hi.recv_eq (fun hd => hg (hdead hd)) e hl
  refine ⟨fun e₁ he => ?_, fun e₁ he => ?_, fun hg e₁ he => ?_, fun hg e₁ he => ?_, hin⟩
  all_goals
    rw [hl'] at he
    cases he
  · omega
  · omega
  · have := h3 hg
    omega
  · have := h4 hg
    omega

end Windows

theorem within_mono (hin : ((bytesOf v.out).length : ℤ) ≤ pw + grantOf v.inp)
    (hb : bytesOf v'.out = bytesOf v.out) (hp : v.inp <+: v'.inp) :
    ((bytesOf v'.out).length : ℤ) ≤ pw + grantOf v'.inp := by
  have := grantOf_le hp
  rw [hb]
  omega

theorem bytesOf_putRst (rst) : bytesOf (putRst rst) = [] := by cases rst <;> rfl

/-- The windows follow the messages of both sides. -/
theorem View.Step.windows (h : View.Step gone own w pw v v') (hs : Sends own v)
    (hr : v.Rely own) (hr' : v'.Rely own) (hdead : dead → gone) (hi : Windows dead w pw v) :
    Windows gone w pw v' := by
  have ho := hr'.orderly
  have hin := hi.within
  have hpre : ∀ m, v.inp <+: v.inp ++ [m] := fun m => prefix_append _ _
  cases h with
  | idle =>
    exact ⟨hi.send, hi.recv, fun hg => hi.send_eq fun hd => hg (hdead hd),
      fun hg => hi.recv_eq fun hd => hg (hdead hd), hin⟩
  | opened hown _ hsyn =>
    obtain ⟨hout, hinp⟩ := hr.eq_nil hs hown hsyn
    constructor <;> simp_all [Msg.bytes, Msg.grant]
  | @wrote e p hl _ _ hle =>
    have := hi.send e hl
    refine hi.of_live hdead hl rfl ?_ ?_ ?_
    all_goals
      simp [Msg.bytes, Msg.grant]
      try omega
  | half hl | granted k hl =>
    refine hi.of_live hdead hl rfl ?_ ?_ (within_mono hin (by simp [Msg.bytes]) (prefix_refl _))
    all_goals
      simp [Msg.bytes, Msg.grant]
      try omega
  | full hl | reset hl =>
    exact .of_none rfl (within_mono hin (by simp [Msg.bytes]) (prefix_refl _))
  | lost hl h => exact .of_none rfl hin
  | woke hl => exact hi.of_live hdead hl hl rfl rfl hin
  | refused rst hown hl =>
    exact .of_none hl (within_mono hin (by simp [bytesOf_putRst]) (hpre _))
  | accepted hown hl hno =>
    have hinp := ho.eq_nil_of_syn
    have hout : v.out = [] := by
      by_contra hne
      obtain ⟨m, hm, -⟩ := (hs.born (.inr hne)).2 hown
      simp [hinp] at hm
    constructor <;> simp_all [Msg.bytes, Msg.grant]
  | acceptedFin hown hl hno => exact absurd (by simp) (ho.plain false)
  | acceptedRst hown hl hno => exact absurd (by simp) (ho.plain true)
  | stray hl => exact .of_none hl (within_mono hin rfl (hpre _))
  | resetBy hl => exact .of_none rfl (within_mono hin rfl (hpre _))
  | aborted p fin rst hl => exact .of_none rfl (within_mono hin (by simp [bytesOf_putRst]) (hpre _))
  | data p hl | credited n wake hl | fin p hl =>
    refine hi.of_live hdead hl rfl ?_ ?_ (within_mono hin rfl (hpre _))
    all_goals
      simp [Msg.bytes, Msg.grant]
      try omega
  | finLast p hl => exact .of_none rfl (within_mono hin rfl (hpre _))
  | deaf m hg =>
    have h1 := hi.send
    have h2 := hi.recv
    refine ⟨fun e he => ?_, fun e he => ?_, fun h => absurd hg h, fun h => absurd hg h,
      within_mono hin rfl (hpre _)⟩
    · have := h1 e he
      simp
      omega
    · have := h2 e he
      simp
      omega

/-- The credit given is for bytes heard. -/
def Modest (v : View) : Prop := grantOf v.out ≤ (bytesOf v.inp).length

theorem View.Step.modest (h : View.Step gone own w pw v v') (hw : Windows dead w pw v)
    (hle : ∀ e, v'.live = some e → e.recvWin ≤ w) (hi : Modest v) : Modest v' := by
  unfold Modest at hi ⊢
  cases h with
  | idle | lost | woke => exact hi
  | @granted e k hl =>
    have h1 := hw.recv e hl
    have h2 := hle _ rfl
    simp [Msg.grant] at h2 ⊢
    omega
  | refused rst | aborted p fin rst =>
    cases rst <;> simp [putRst, Msg.grant] <;> omega
  | _ =>
    simp [Msg.grant]
    omega

end Rely

end MuxProtocol
