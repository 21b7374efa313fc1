import Retrace.Proofs.Entities
import Retrace.Proofs.Sequencing

/-! Origins. Every execution is that of an invocation, and every invocation was opened by an event
that was taken in: its own beginning, or the call of it if no beginning was seen. What an execution
refers to is found in the model at the end of the trace, so it can be read off that event. -/

namespace Retrace
open Retrace.Frame

namespace Event

/-- The operation that the event opens an invocation of, with its kind. -/
def opens? : Event → Option (OperationKind × OperationRef)
  | before kind _ operation => some (kind, operation)
  | call kind _ _ callee => some (kind, callee)
  | _ => none

end Event

/-- Is the event what the invocation began with, as far as is known? -/
structure Invocation.BegunBy (i : Invocation) (e : Event) : Prop where
  opens : e.opens? = some (i.kind, i.operation)
  time : i.entryTime = e.timestamp

namespace Frame

/-- Was the frame opened by one of the events? -/
def OpenedIn (es : List Event) (f : Frame) : Prop :=
  ∃ e ∈ es, ∀ time assumed, (f.endedAt time assumed).BegunBy e

section Moves

variable {m : Matching} {es : List Event}

theorem openedIn_close {fs below : List Frame} {signature : String} {time : Int}
    {ended : List Invocation} (hfs : ∀ f ∈ fs, f.OpenedIn es)
    (hclose : close signature time fs = (ended, below)) :
    (∀ f ∈ below, f.OpenedIn es) ∧ ∀ i ∈ ended, ∃ e ∈ es, i.BegunBy e := by
  obtain ⟨closed, hsplit, _, hended⟩ := close_split signature time fs
  rw [hclose] at hsplit hended
  simp only at hsplit hended
  subst hsplit hended
  refine ⟨fun f hf => hfs f (List.mem_append_right closed hf), fun i hi => ?_⟩
  obtain ⟨f, hf, rfl⟩ := List.mem_map.mp hi
  obtain ⟨e, he, hbegun⟩ := hfs f (List.mem_append_left below (List.mem_reverse.mp hf))
  exact ⟨e, he, hbegun time true⟩

theorem Moves.openedIn {e : Event} {fs gs : List Frame} {n k : Nat} {ended : List Invocation}
    (h : Moves m e fs n gs k ended) (he : e ∈ es) (hfs : ∀ f ∈ fs, f.OpenedIn es) :
    (∀ g ∈ gs, g.OpenedIn es) ∧ ∀ i ∈ ended, ∃ d ∈ es, i.BegunBy d := by
  cases h with
  | call hclose =>
    obtain ⟨hbelow, hended⟩ := openedIn_close hfs hclose
    exact ⟨List.forall_mem_cons.mpr ⟨⟨_, he, fun _ _ => ⟨rfl, rfl⟩⟩, hbelow⟩, hended⟩
  | announced _ =>
    obtain ⟨_, hbelow⟩ := List.forall_mem_cons.mp hfs
    exact ⟨List.forall_mem_cons.mpr ⟨⟨_, he, fun _ _ => ⟨rfl, rfl⟩⟩, hbelow⟩, by simp⟩
  | unannounced _ hclose =>
    obtain ⟨hbelow, hended⟩ := openedIn_close hfs hclose
    exact ⟨List.forall_mem_cons.mpr ⟨⟨_, he, fun _ _ => ⟨rfl, rfl⟩⟩, hbelow⟩, hended⟩
  | ended _ hclose =>
    obtain ⟨hleft, hended⟩ := openedIn_close hfs hclose
    obtain ⟨⟨d, hd, hbegun⟩, hbelow⟩ := List.forall_mem_cons.mp hleft
    refine ⟨hbelow, fun i hi => ?_⟩
    rcases List.mem_append.mp hi with hi | hi
    · exact hended i hi
    · exact ⟨d, hd, List.mem_singleton.mp hi ▸ hbegun _ _⟩
  | ignored _ => exact ⟨hfs, by simp⟩

/-- What is open in a history, and what has ended, was opened by an event that came. -/
theorem History.openedIn {past : List Event} {fs : List Frame} {n : Nat} {ended : List Invocation}
    (h : History m past fs n ended) (hpast : past ⊆ es) :
    (∀ f ∈ fs, f.OpenedIn es) ∧ ∀ i ∈ ended, ∃ e ∈ es, i.BegunBy e := by
  induction h with
  | start => exact ⟨by simp, by simp⟩
  | step _ hmoves ih =>
    obtain ⟨hbefore, hnew⟩ := List.append_subset.mp hpast
    obtain ⟨hfs, hended⟩ := ih hbefore
    obtain ⟨hgs, hmore⟩ := hmoves.openedIn (hnew List.mem_cons_self) hfs
    refine ⟨hgs, fun i hi => ?_⟩
    rcases List.mem_append.mp hi with hi | hi
    · exact hended i hi
    · exact hmore i hi

end Moves

end Frame

/-- The recorded executions are those of the ended invocations, with the entities of the model at
the end. -/
theorem Tracker.Recounts.mem_executions {trace : TraceInfo} {m : Matching} {model : Model}
    {es : List Event} {t : Tracker} {fs : List Frame} {ended : List Invocation}
    (h : Recounts (start trace m model) es t fs ended) (x : Execution) :
    x ∈ t.executions.executions ↔ ∃ i ∈ ended, x = (i.execution trace m t.model).1 := by
  obtain ⟨_, _, _, rfl⟩ := h
  have hmem : x ∈ ((start trace m model).recordedAll ended).executions.executions ↔ _ :=
    (executions_recordedAll (start trace m model) ended).mem_iff
  refine hmem.trans ?_
  simp [start, eq_comm, holding]

/-- The executions that a batch comes to are those of some invocations that its events opened. -/
theorem reconstruct_invocations {settings : Settings} {selection : Selection} {model : Model}
    {batch : Batch} {executions : ExecutionTrace}
    (h : (reconstruct settings selection model batch).outcome.executions? = some executions) :
    ∃ ended : List Invocation, (∀ i ∈ ended, ∃ e ∈ batch.events, i.BegunBy e) ∧
      (reconstruct settings selection model batch).model =
        ((Tracker.start batch.trace settings.matching model).recordedAll ended).model ∧
      ∀ x, x ∈ executions.executions ↔ ∃ i ∈ ended, x = (i.execution batch.trace settings.matching
        (reconstruct settings selection model batch).model).1 := by
  obtain ⟨t, dropped, hselected, hfeed, rfl⟩ := exists_feed_of_executions h
  have hok : ((Tracker.start batch.trace settings.matching model).feed 0 0 batch.events).fault =
      none := by rw [hfeed]
  obtain ⟨fs, ended, hrecounts⟩ :=
    Tracker.exists_recounts_feed batch.trace settings.matching model hok
  rw [hfeed] at hrecounts
  rw [reconstruct_of_feed hselected hfeed]
  rw [t.finish_model]
  refine ⟨ended, ?_, ?_, hrecounts.mem_executions⟩
  · obtain ⟨_, _, hhistory, _⟩ := hrecounts
    exact (hhistory.openedIn (inSequence_subset _ _ _)).2
  · obtain ⟨_, _, _, htracker⟩ := hrecounts
    rw [show t = _ from htracker]
    rfl

end Retrace
