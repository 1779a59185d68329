import MuxProtocol.Proofs.Calls

/-!
# The stream table is a finite map

The session keeps its streams in an open-addressing table with tombstones, which it rehashes as it
fills. Beside it goes the map the table stands for.
-/

namespace MuxProtocol

open LinearProbe Machine Option Function MuxStream Table

/-- What the session does to its table: it writes the record of an absent id, removes a record it
has found, and writes fields of one. -/
inductive TabOp where
  | insert (st : MuxStream)
  | remove (sid : UInt32)
  | update (sid : UInt32) (g : MuxStream → MuxStream)

/-- The streams a session has, by their ids. -/
abbrev StreamMap := UInt32 → Option MuxStream

/-- The session's table and the map it stands for. -/
def tabStep (p : Session × StreamMap) : TabOp → Session × StreamMap
  | .insert st =>
    ({ p.1 with tab := (stInsert p.1.tab st).1 }, Function.update p.2 st.sid (some st))
  | .remove sid =>
    (match stFind p.1.tab sid with
      | none => p.1
      | some (i, _) => stRemove p.1 i, Function.update p.2 sid none)
  | .update sid g =>
    (match stFind p.1.tab sid with
      | none => p.1
      | some (i, _) => { p.1 with tab := p.1.tab.modify i g },
      Function.update p.2 sid ((p.2 sid).map g))

/-- The ids inserted are absent, those removed present, and no write changes an id. -/
def TabOp.Ok (p : Session × StreamMap) : TabOp → Prop
  | .insert st => p.2 st.sid = none
  | .remove sid => p.2 sid ≠ none
  | .update _ g => ∀ st, (g st).sid = st.sid

/-- The table stands for the map. -/
structure Refines (t : Table MuxStream) (m : StreamMap) : Prop where
  pow : ∃ n, t.cap = 2 ^ n
  count : t.count = tally (Slot.holds fun _ => true) t.slots t.cap
  tombs : t.tombs = tally Slot.isTomb t.slots t.cap
  empty : ∃ i < t.cap, t.slots i = .empty
  distinct : t.Distinct sid
  find : ∀ sid, (stFind t sid).map Prod.snd = m sid
  insert : ∀ st, ∃ i, (stInsert t st).2 = some i

section

variable {t : Table MuxStream} {m : StreamMap} {p p' : Session × StreamMap}

theorem stFind_snd (t : Table MuxStream) (sid) :
    (stFind t sid).map Prod.snd = t.lookup mixSid MuxStream.sid sid := by
  unfold stFind lookup
  rcases t.find mixSid MuxStream.sid sid with _ | i
  · rfl
  · simp only [Option.bind_some, Option.map_map, Function.comp_def, Option.map_id']

/-- The table as the searches see it. -/
structure Mapped (t : Table MuxStream) (m : StreamMap) : Prop where
  wf : TabWf t
  distinct : t.Distinct sid
  lookup : ∀ sid, t.lookup mixSid MuxStream.sid sid = m sid

theorem Mapped.refines (h : Mapped t m) : Refines t m where
  pow := h.wf.pow
  count := h.wf.count_eq
  tombs := h.wf.tombs_eq
  empty := by
    obtain ⟨q, hq, he⟩ := h.wf.exists_empty_on 0
    rw [Nat.zero_add, Nat.mod_eq_of_lt hq] at he
    exact ⟨q, hq, he⟩
  distinct := h.distinct
  find sid := (stFind_snd t sid).trans (h.lookup sid)
  insert st := by
    obtain ⟨t', i, hi, -⟩ := stInsert_inserted h.wf st
    exact ⟨i, by rw [hi]⟩

theorem Mapped.insert {st : MuxStream} (h : Mapped t m) (hn : m st.sid = none) :
    Mapped (stInsert t st).1 (update m st.sid (some st)) := by
  obtain ⟨t', i, hi, hins⟩ := stInsert_inserted h.wf st
  have habsent : ∀ st', t.Mem st' → st'.sid ≠ st.sid := by
    rw [← h.lookup] at hn
    exact (lookup_eq_none h.wf).1 hn
  have hd := hins.distinct h.distinct habsent
  rw [hi]
  refine ⟨hins.wf, hd, fun sid => ?_⟩
  rw [lookup_of_mem_iff h.wf h.distinct hins.wf hd hins.mem, update_apply, h.lookup]

theorem Mapped.remove {sid} {i : ℕ} {st} (h : Mapped t m) (hf : stFind t sid = some (i, st)) :
    Mapped (t.remove i) (update m sid none) := by
  obtain ⟨hg, rfl⟩ := stFind_some h.wf hf
  refine ⟨h.wf.remove i, h.distinct.remove i, fun sid => ?_⟩
  rw [lookup_remove h.wf h.distinct hg, update_apply, h.lookup]

theorem Mapped.update {sid} {i : ℕ} {st : MuxStream} {g} (h : Mapped t m)
    (hf : stFind t sid = some (i, st)) (hg : ∀ st, (g st).sid = st.sid) :
    Mapped (t.modify i g) (update m sid ((m sid).map g)) := by
  have hm : m sid = some st := (h.lookup sid).symm.trans (lookup_of_stFind hf)
  obtain ⟨hget, rfl⟩ := stFind_some h.wf hf
  refine ⟨h.wf.modify i hg, h.distinct.modify i hg, fun sid => ?_⟩
  rw [lookup_modify h.wf h.distinct hget hg, update_apply, h.lookup, hm, map_some]

theorem Mapped.absent {sid} (h : Mapped t m) (hf : stFind t sid = none) : m sid = none := by
  rw [← h.lookup, ← stFind_snd, hf, map_none]

theorem tabStep_mapped {p : Session × StreamMap} {a : TabOp} (h : Mapped p.1.tab p.2)
    (ha : a.Ok p) : Mapped (tabStep p a).1.tab (tabStep p a).2 := by
  cases a with
  | insert st => exact h.insert ha
  | remove sid =>
    rcases hf : stFind p.1.tab sid with _ | ⟨i, st⟩
    · exact absurd (h.absent hf) ha
    · have ht : (stRemove p.1 i).tab = p.1.tab.remove i :=
        congrArg Core.tab (stRemove_toCore p.1 i)
      simp only [tabStep, hf, ht]
      exact h.remove hf
  | update sid g =>
    rcases hf : stFind p.1.tab sid with _ | ⟨i, st⟩
    · have hm := h.absent hf
      simp only [tabStep, hf, hm, map_none]
      rwa [← hm, update_eq_self]
    · simp only [tabStep, hf]
      exact h.update hf ha

end

/-- The stream table of a session refines a finite map, whatever is inserted, removed and
written. -/
theorem stream_table_refines_map {cfg : MuxConfig} {role : MuxRole} {s : Session}
    {p : Session × StreamMap} (h₀ : muxSessionNew cfg role = some s)
    (h : Reach (ofFun tabStep) TabOp.Ok (s, fun _ => none) p) : Refines p.1.tab p.2 := by
  have hstart : Mapped s.tab fun _ => none := by
    obtain ⟨hwf, hnone⟩ := startCore_tab cfg role
    rw [(muxSessionNew_spec h₀).1]
    refine ⟨hwf, fun i _ _ _ r _ hr => ?_, fun sid => ?_⟩
    · cases (hnone i).symm.trans (Table.get_eq_some.2 hr)
    · rw [Table.lookup, Option.bind_eq_none_iff]
      exact fun i _ => hnone i
  refine Mapped.refines ?_
  refine h.inv (I := fun p => Mapped p.1.tab p.2) hstart fun p a p' hi ha hs => ?_
  cases hs
  exact tabStep_mapped hi ha

/-- A stream opened, written to, removed, and its id used again. -/
theorem stream_table_refines_map_reuse : ∃ s p, muxSessionNew {} .acceptor = some s
    ∧ Reach (ofFun tabStep) TabOp.Ok (s, fun _ => none) p ∧ p.2 1 = some (freshStream s.toCore 1)
    ∧ Refines p.1.tab p.2 := by
  have hnew : muxSessionNew {} .acceptor = some (initSession {} .acceptor) := rfl
  let st := freshStream (initSession {} .acceptor).toCore 1
  let l : List TabOp := [.insert st, .update 1 fun st => { st with sendWin := 7 }, .remove 1,
    .insert st]
  have hl : Allowed tabStep TabOp.Ok (initSession {} .acceptor, fun _ => none) l :=
    ⟨rfl, fun _ => rfl, nofun, rfl, trivial⟩
  exact ⟨_, _, hnew, Reach.foldl l hl, rfl, stream_table_refines_map hnew (Reach.foldl l hl)⟩

end MuxProtocol
