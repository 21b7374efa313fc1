import Retrace.Proofs.Faults
import Retrace.Proofs.Lockstep
import Retrace.Proofs.Sequencing

/-! What remains after a fault. An event that shows a fault has taken things off by then: the calls
that it closed, and the operation that it ended, recorded or not. What is left is still told by
frames, those below. The places that were lost are not accounted for any more, but no open slot has
one of them. So whatever is open could still be recorded, in every state in which a run of events can
leave a tracker. -/

namespace Retrace
open Retrace.Frame
open scoped List

namespace Tracker

/-- Do the frames tell what is open in the tracker, and are the places of all its slots free? -/
structure Backed (t : Tracker) (fs : List Frame) : Prop where
  openEvents : t.openEvents = Frame.openEvents fs
  slots : t.slots = Frame.slots fs
  vacant : t.Vacant t.slots

section Backed

variable {t : Tracker} {fs : List Frame}

/-- The slots of the calls that are found can be recorded, beside those that are left. -/
theorem Vacant.found {signature : String} {calls : List OpenCall} {below : List Event}
    {left : List Slot} (h : t.Vacant t.slots)
    (hrun : callsDownTo signature t.openEvents t.slots = .found calls below left) (time : Int) :
    (t.holding below left t.nextEoi).Vacant
      ((calls.map (·.assumedUntil time)).map (·.slot) ++ left) := by
  obtain ⟨_, _, _, _, hslots⟩ := callsDownTo_found hrun
  have hperm : t.slots ~ (calls.map (·.assumedUntil time)).map (·.slot) ++ left := by
    rw [hslots, List.map_reverse, List.map_map]
    exact (List.reverse_perm _).append_right left
  exact ⟨h.ids, (((hperm.map _).append_right _).nodup_iff).mp h.places⟩

/-- Whether all of them are recorded or not, the closed calls are gone and the rest is left. -/
theorem Backed.closeCalls (h : t.Backed fs) (signature : String) (time : Int) :
    (t.closeCalls signature time).tracker.Backed (close signature time fs).2 := by
  have hrun := callsDownTo_frames signature fs
  rw [← h.openEvents, ← h.slots] at hrun
  unfold close
  cases hclosing : closing? signature fs with
  | none =>
    rw [hclosing] at hrun
    rw [Tracker.closeCalls, hrun]
    exact h
  | some found =>
    obtain ⟨calls, below⟩ := found
    rw [hclosing] at hrun
    have hvacant := (h.vacant.found hrun time).recordAll.1
    obtain ⟨_, _, hrecord⟩ := exists_recordAll
      (t.holding (Frame.openEvents below) (Frame.slots below) t.nextEoi)
      (calls.map (·.assumedUntil time))
    rw [closeCalls_of_found hrun]
    rw [hrecord] at hvacant ⊢
    exact ⟨rfl, rfl, hvacant⟩

/-- The innermost slot is gone, whether what ended in it is recorded or not. -/
theorem recordInnermost_backed {f : Frame} {below : List Frame}
    (hevents : t.openEvents = Frame.openEvents below) (hslots : t.slots = Frame.slots (f :: below))
    (hvacant : t.Vacant t.slots) {i : Slot → Invocation} (hi : ∀ slot, (i slot).slot = slot) :
    (t.recordInnermost i).tracker.Backed below := by
  rw [hslots, slots_cons, ← hi f.slot] at hvacant
  have hleft := (Vacant.record (t := { t with slots := Frame.slots below })
    ⟨hvacant.ids, hvacant.places⟩).1
  obtain ⟨_, _, hrecord⟩ := exists_record { t with slots := Frame.slots below } (i f.slot)
  unfold recordInnermost
  rw [hslots, slots_cons]
  rw [hrecord] at hleft ⊢
  exact ⟨hevents, rfl, hleft⟩

/-- Whether it is recorded or not, the operation that ends is gone, with its marker if it had one. -/
theorem Backed.closeInnermost {kind : OperationKind} {stamp : Stamp} {operation : OperationRef}
    {slot : Slot} {marker? : Option Event} {below : List Frame}
    (h : t.Backed (begun kind stamp operation slot marker? :: below))
    (hfits : (begun kind stamp operation slot marker?).Fits t.matching below) (time : Int) :
    (closeInnermost { t with openEvents := marker?.toList ++ Frame.openEvents below } kind stamp
      operation time).tracker.Backed below := by
  have hleft : (if (t.matching.announcedBy? (marker?.toList ++ Frame.openEvents below) kind stamp
      operation).isSome then (marker?.toList ++ Frame.openEvents below).tail
      else marker?.toList ++ Frame.openEvents below) = Frame.openEvents below := by
    cases marker? with
    | none =>
      have hnone : t.matching.announcedBy? (Frame.openEvents below) kind stamp operation = none :=
        hfits
      simp [hnone]
    | some marker =>
      have hsome : (t.matching.announces? marker kind stamp operation).isSome := hfits
      simp [Matching.announcedBy?, hsome]
  obtain ⟨notices, hclose⟩ := closeInnermost_eq
    { t with openEvents := marker?.toList ++ Frame.openEvents below } kind stamp operation time
  rw [hclose]
  apply recordInnermost_backed
  · exact hleft
  · exact h.slots
  · exact ⟨h.vacant.ids, h.vacant.places⟩
  · exact fun _ => rfl

/-- Whatever comes of the end of an operation, frames from the bottom are left. -/
theorem Backed.endOperation (h : t.Backed fs) (hstacked : Stacked t.matching fs)
    (kind : OperationKind) (time : Int) (operation : OperationRef) :
    ∃ gs, gs <:+ fs ∧ (t.endOperation kind time operation).tracker.Backed gs := by
  unfold Tracker.endOperation
  split
  · rename_i openKind stamp opened below hevents
    split
    · exact ⟨fs, List.suffix_rfl, h⟩
    · rename_i hkind
      obtain rfl := not_not.mp hkind
      split
      · exact ⟨fs, List.suffix_rfl, h⟩
      · have hopen := h.openEvents
        rw [hevents] at hopen
        cases fs with
        | nil => cases hopen
        | cons f rest =>
          cases f with
          | called caller call => cases hopen
          | begun kind' stamp' operation' slot marker? =>
            cases hopen
            exact ⟨rest, List.suffix_cons _ _, h.closeInnermost hstacked.2.2.1 time⟩
  · exact ⟨fs, List.suffix_rfl, h⟩

theorem Backed.leave (h : t.Backed fs) (hstacked : Stacked t.matching fs) (kind : OperationKind)
    (time : Int) (operation : OperationRef) :
    ∃ gs, gs <:+ fs ∧ (t.leave kind time operation).tracker.Backed gs := by
  have hsuffix := close_suffix operation.signature time fs
  have hclosed := h.closeCalls operation.signature time
  have hmatching : (t.closeCalls operation.signature time).tracker.matching = t.matching := by
    refine @closeCalls_keeps (fun u => u.matching = t.matching) (fun _ _ _ _ _ hu => hu)
      (fun u i hu => ?_) t rfl operation.signature time
    obtain ⟨_, _, hrecord⟩ := exists_record u i
    rw [hrecord, hu]
  rw [Tracker.leave, Step.andThen]
  split
  · obtain ⟨gone, hsplit⟩ := hsuffix
    rw [← hsplit, ← hmatching] at hstacked
    obtain ⟨gs, hgs, hbacked⟩ := hclosed.endOperation hstacked.of_append kind time operation
    exact ⟨gs, hgs.trans (close_suffix _ _ _), hbacked⟩
  · exact ⟨_, hsuffix, hclosed⟩

/-- An event that shows a fault opens nothing, and takes frames off the top only. -/
theorem Backed.step_of_fault {e : Event} {fault : TraceFault} (h : t.Backed fs)
    (hstacked : Stacked t.matching fs) (hfault : (t.step e).fault = some fault) :
    ∃ gs, gs <:+ fs ∧ (t.step e).tracker.Backed gs := by
  -- What would open the event is not reached, so the fault is that of the calls closed before.
  have hopening : ∀ {signature time},
      ((t.closeCalls signature time).andThen fun u => ⟨u.pushOpen e, none⟩).fault = some fault →
      ∃ gs, gs <:+ fs ∧
        ((t.closeCalls signature time).andThen fun u => ⟨u.pushOpen e, none⟩).tracker.Backed gs := by
    intro signature time hstep
    rw [Step.andThen] at hstep ⊢
    split at hstep
    · cases hstep
    · exact ⟨_, close_suffix signature time fs, h.closeCalls signature time⟩
  cases e with
  | call kind stamp caller callee => exact hopening hfault
  | before kind stamp operation =>
    simp only [step, enter] at hfault ⊢
    split at hfault
    · cases hfault
    · exact hopening hfault
  | after kind stamp operation => exact h.leave hstacked kind stamp.timestamp operation
  | afterFailed kind stamp operation cause =>
    exact h.leave hstacked kind stamp.timestamp operation
  | split stamp => cases hfault
  | unknown name stamp => cases hfault

end Backed

/-- A run ends with the first event that shows a fault. -/
theorem run_of_fault {t : Tracker} {past : List Event} {e : Event} {fault : TraceFault}
    (hpast : (t.run past).fault = none) (hstep : ((t.run past).tracker.step e).fault = some fault)
    (later : List Event) : t.run (past ++ e :: later) = (t.run past).tracker.step e := by
  rw [run_append, Step.andThen, hpast]
  simp only [run]
  rw [Step.andThen, hstep]

theorem Reached.backed {trace : TraceInfo} {m : Matching} {es : List Event} {t : Tracker}
    {fs : List Frame} {ended : List Invocation} (h : Reached trace m es t fs ended)
    (haccounted : t.Accounted) : t.Backed fs :=
  ⟨h.tracks.openEvents, h.tracks.slots, haccounted.vacant⟩

/-- In whatever state events of growing order indices leave a new tracker, frames tell what is open,
and how it came. -/
theorem exists_backed (trace : TraceInfo) (m : Matching) (model : Model) {events : List Event}
    (hinc : events.Pairwise fun d e => d.orderIndex < e.orderIndex) :
    ∃ fs, ((start trace m model).run events).tracker.Backed fs ∧
      ∀ f ∈ fs, f.Recalls (start trace m model) events := by
  have haccounted : ∀ {es}, ((start trace m model).run es).fault = none →
      ((start trace m model).run es).tracker.Accounted :=
    fun hok => ((supplied_start trace m model).run hok).1.accounted
  cases hrun : ((start trace m model).run events).fault with
  | none =>
    obtain ⟨fs, ended, hreached, hrecalls⟩ := reached_run trace m model hinc hrun
    exact ⟨fs, hreached.backed (haccounted hrun), hrecalls⟩
  | some fault =>
    obtain ⟨past, e, later, rfl, hpast, hstep⟩ := exists_step_of_fault hrun
    obtain ⟨fs, ended, hreached, hrecalls⟩ :=
      reached_run trace m model (List.pairwise_append.mp hinc).1 hpast
    obtain ⟨gs, hgs, hbacked⟩ :=
      (hreached.backed (haccounted hpast)).step_of_fault hreached.tracks.sound.stacked hstep
    rw [run_of_fault hpast hstep later]
    refine ⟨gs, hbacked, fun f hf => ?_⟩
    have hcame : ∀ d ∈ f.events, d ∈ past := fun d hd =>
      hreached.history.openEvents_subset d (List.mem_flatMap.mpr ⟨f, hgs.subset hf, hd⟩)
    exact (hrecalls f (hgs.subset hf)).append hcame (e :: later)

end Tracker

end Retrace
