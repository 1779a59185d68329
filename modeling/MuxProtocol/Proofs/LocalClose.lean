import MuxProtocol.Proofs.Ledger

/-!
# Our half of a stream

A session closes its side of a stream when the host calls `mux_close` for it, and at no other time:
neither another call nor a frame of the peer does it.
-/

namespace MuxProtocol

open LinearProbe Machine

variable {c c' : Core} {s : Session} {sid : UInt32} {a : Call}

/-- Our side of the stream is open, where the session has it. -/
def Session.Unclosed (s : Session) (sid : UInt32) : Prop :=
  Every s.tab fun st => st.sid = sid → st.life ≠ .hclLocal

theorem Step.unclosed {b} (h : Step c b c') (hb : b ≠ .close sid) (hw : TabWf c.tab)
    (hi : Every c.tab fun st => st.sid = sid → st.life ≠ .hclLocal) :
    Every c'.tab fun st => st.sid = sid → st.life ≠ .hclLocal := by
  have hfresh : ∀ id, (freshStream c id).sid = sid → (freshStream c id).life ≠ .hclLocal :=
    fun _ _ h => by cases h
  cases h with
  | opened _ h | accepted _ _ _ _ _ h => exact hi.insert hw h (hfresh _)
  | openFailed _ h | acceptedRst _ _ _ _ h => exact (hi.insert hw h (hfresh _)).remove
  | acceptedFin _ _ _ _ _ h =>
    exact (hi.insert hw h (hfresh _)).modify fun _ _ _ h => by cases h
  | closedHalf hg => exact hi.modify_at hg fun hid => absurd (hid ▸ rfl) hb
  | block | short | wrote | useOn | creditOn | wake | data | creditedOn | creditedOnOver =>
    exact hi.modify fun _ h => h
  | woken =>
    simp only [Core.push_tab, Core.unblock_tab, Core.edit_tab, Core.hear_tab, Table.modify_modify]
    exact hi.modify fun _ h => h
  | closedFull | reset | resetBy | aborted => exact hi.remove
  | fin =>
    simp only [Core.push_tab, Core.edit_tab, Core.deliver_tab, Core.hear_tab, Table.modify_modify]
    exact hi.modify fun _ _ _ h => by cases h
  | finLast =>
    refine Every.remove ?_
    exact hi.modify fun _ h => h
  | _ => exact hi

theorem Session.Unclosed.call (h : s.Unclosed sid) (hw : s.toCore.Wf) (ha : a ≠ .close sid) :
    (s.call a).Unclosed sid := by
  have hp : Permits (fun _ b => b ≠ .close sid) s a :=
    ⟨by simp, fun _ _ => eachFrame_of_forall (by simp [Hears]) (by simp) _ _ _, by simp, by simp,
      fun id hc _ hid => ha (Act.close.inj hid ▸ hc), by simp, by simp, by simp, by simp⟩
  refine ((Session.call_steps hw hp).inv
    (I := fun c : Core => TabWf c.tab ∧ Every c.tab fun st => st.sid = sid → st.life ≠ .hclLocal)
    ⟨hw.tab, h⟩ fun c b c' hc hb hs => ?_).2
  exact ⟨hs.tabWf hc.1, hs.unclosed hb hc.1 hc.2⟩

end MuxProtocol
