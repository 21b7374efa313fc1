import Retrace.Proofs.Remains

/-! All or nothing. An operation that goes on closes the calls on top down to the topmost one that it
issued, each with the slot that it got when it came. If it issued none of them, none is closed.
Nothing but time can keep it from that: a call that came later than the operation goes on is a fault.
No slot is missing and no place is taken.

Closing can also be done in place, where markers and slots are popped before it is known whether one
of them is the operation's own. What was popped in vain is put back where it was. -/

namespace Retrace
open Retrace.Frame
open scoped List

namespace Tracker

/-! ## Both stacks in place -/

/-- Puts calls back that were popped, each told by its caller and itself, the last one first. -/
def pushBack (t : Tracker) (popped : List (OperationRef × OpenCall)) : Tracker :=
  popped.foldl (fun u (caller, call) =>
    { u with openEvents := call.marker caller :: u.openEvents, slots := call.slot :: u.slots }) t

/-- Pops markers with their slots as long as they are on top, until one was issued by an operation of
the signature. Then what was popped is recorded, and otherwise put back. The one that was popped last
is the first in the list. -/
def popCalls (t : Tracker) (signature : String) (time : Int) :
    List Event → List Slot → List (OperationRef × OpenCall) → Step
  | .call kind stamp caller callee :: below, slots, popped =>
    match slots with
    | [] => ⟨{ t with openEvents := below, slots := [] }, some .missingSlot⟩
    | slot :: left =>
      if caller.signature = signature then
        recordAll { t with openEvents := below, slots := left }
          (((caller, ⟨kind, stamp, callee, slot⟩) :: popped).map (·.2.assumedUntil time))
      else popCalls t signature time below left ((caller, ⟨kind, stamp, callee, slot⟩) :: popped)
  | openEvents, slots, popped => ⟨{ t with openEvents, slots }.pushBack popped, none⟩

/-- Closes calls in place. -/
def closeInPlace (t : Tracker) (signature : String) (time : Int) : Step :=
  t.popCalls signature time t.openEvents t.slots []

section InPlace

variable {signature : String} {events : List Event} {slots : List Slot}

theorem popCalls_found {calls : List OpenCall} {below : List Event} {left : List Slot}
    (h : callsDownTo signature events slots = .found calls below left) (t : Tracker) (time : Int)
    (popped : List (OperationRef × OpenCall)) :
    t.popCalls signature time events slots popped =
      recordAll { t with openEvents := below, slots := left }
        ((calls ++ popped.map (·.2)).map (·.assumedUntil time)) := by
  -- What was popped before is newer than all that is found below, so it is recorded after it.
  induction events generalizing slots calls popped with
  | nil => cases h
  | cons e rest ih =>
    cases e with
    | call kind stamp caller callee =>
      cases slots with
      | nil => cases h
      | cons slot slots =>
        simp only [callsDownTo] at h
        split at h
        · rename_i hcaller
          cases h
          simp only [popCalls, if_pos hcaller, List.map_append, List.map_map]
          rfl
        · rename_i hcaller
          split at h
          · rename_i hrest
            cases h
            simp only [popCalls, if_neg hcaller]
            rw [ih hrest, List.append_assoc]
            rfl
          · cases h
          · cases h
    | _ => cases h

theorem popCalls_absent (h : callsDownTo signature events slots = .absent) (t : Tracker)
    (time : Int) (popped : List (OperationRef × OpenCall)) :
    t.popCalls signature time events slots popped =
      ⟨{ t with openEvents := events, slots }.pushBack popped, none⟩ := by
  induction events generalizing slots popped with
  | nil => rfl
  | cons e rest ih =>
    cases e with
    | call kind stamp caller callee =>
      cases slots with
      | nil => cases h
      | cons slot slots =>
        simp only [callsDownTo] at h
        split at h
        · cases h
        · rename_i hcaller
          split at h
          · cases h
          · rename_i hrest
            simp only [popCalls, if_neg hcaller]
            rw [ih hrest]
            rfl
          · cases h
    | _ => rfl

/-- It comes to the same in place, as long as the slots do not run out. -/
theorem closeInPlace_eq {t : Tracker}
    (h : callsDownTo signature t.openEvents t.slots ≠ .missingSlot) (time : Int) :
    t.closeInPlace signature time = t.closeCalls signature time := by
  rw [closeInPlace, closeCalls]
  cases hrun : callsDownTo signature t.openEvents t.slots with
  | missingSlot => exact absurd hrun h
  | absent => exact popCalls_absent hrun t time []
  | found calls below left => simpa using popCalls_found hrun t time []

end InPlace

/-! ## Closing calls -/

section Closing

variable {t origin : Tracker} {fs : List Frame} {signature : String} {es : List Event}

/-- The slots do not run out before the calls on top do. -/
theorem Backed.enough (h : t.Backed fs) (signature : String) :
    callsDownTo signature t.openEvents t.slots ≠ .missingSlot := by
  rw [h.openEvents, h.slots, callsDownTo_frames]
  split <;> exact CallRun.noConfusion

/-- Calls are closed if none of them came later, and otherwise one that did is found out. -/
theorem Backed.closing (h : t.Backed fs) (signature : String) (time : Int) :
    ((∀ e ∈ Event.leftBy signature t.openEvents, e.timestamp ≤ time) ∧
        (t.closeCalls signature time).fault = none) ∨
      ∃ e ∈ Event.leftBy signature t.openEvents, ∃ x : Execution, time < e.timestamp ∧
        x.entryTime = e.timestamp ∧ x.exitTime = time ∧
        (t.closeCalls signature time).fault = some (.rejected (.backwards x)) := by
  cases hrun : callsDownTo signature t.openEvents t.slots with
  | missingSlot => exact absurd hrun (h.enough signature)
  | absent =>
    have hnone : Event.leftBy signature t.openEvents = [] := by
      rw [Event.leftBy, callsDownTo_absent hrun]
    rw [hnone, Tracker.closeCalls, hrun]
    exact .inl ⟨List.forall_mem_nil _, rfl⟩
  | found calls below left =>
    obtain ⟨place, hplace, _, hmarked, _⟩ := callsDownTo_found hrun
    have hleft : Event.leftBy signature t.openEvents = t.openEvents.take (place + 1) := by
      rw [Event.leftBy, hplace]
    rw [closeCalls_of_found hrun, hleft]
    rcases (h.vacant.found hrun time).recordAll.2 with hok | ⟨i, hi, x, hback, hx, hfault⟩
    · refine .inl ⟨fun e he => ?_, by rw [hok]⟩
      obtain ⟨c, hc, caller, rfl⟩ := exists_related hmarked e he
      have htimes := (recordAll_eq_ok (congrArg Step.fault hok)).2
      exact htimes _ (List.mem_map_of_mem (List.mem_reverse.mp hc))
    · obtain ⟨c, hc, rfl⟩ := List.mem_map.mp hi
      obtain ⟨e, he, caller, rfl⟩ := exists_related hmarked.flip c (List.mem_reverse.mpr hc)
      obtain ⟨_, _, hentry, hexit⟩ := Interval.mk.inj hx
      exact .inr ⟨_, he, x, hback, hentry, hexit, hfault⟩

/-- Calls on top have the slots on top, and these are the slots that they got. -/
theorem Backed.slots_of_calls {markers below : List Event} {taken left : List Slot}
    (h : t.Backed fs) (hrecalls : ∀ f ∈ fs, f.Recalls origin es)
    (hevents : t.openEvents = markers ++ below) (hslots : t.slots = taken ++ left)
    (hcalls : ∀ e ∈ markers, e.isCall) (hlength : markers.length = taken.length) :
    markers.map (origin.slotGot? es) = taken.map some := by
  have hown : markers.filter (origin.ownsSlot es) = markers :=
    List.filter_eq_self.mpr fun e he => by simp [ownsSlot, hcalls e he]
  have howned := owned_openEvents hrecalls
  rw [← h.openEvents, ← h.slots, hevents, hslots, List.filter_append, List.map_append, hown,
    List.map_append] at howned
  exact List.append_inj_left howned (by simpa using hlength)

theorem Backed.closeCalls_idle (h : t.Backed fs)
    (hleft : Event.leftBy signature t.openEvents = []) (time : Int) :
    t.closeCalls signature time = ⟨t, none⟩ := by
  rcases h.closing signature time with ⟨_, hok⟩ | ⟨e, he, _⟩
  · obtain ⟨calls, hcloses⟩ := closeCalls_closes hok
    rw [Step.eq_of_fault hok, hcloses.idle hleft]
  · rw [hleft] at he
    cases he

/-- If none of them came later, the calls that the operation left open are closed, each with the slot
that it got. -/
theorem Backed.closes {time : Int} (h : t.Backed fs) (hrecalls : ∀ f ∈ fs, f.Recalls origin es)
    (htimes : ∀ e ∈ Event.leftBy signature t.openEvents, e.timestamp ≤ time) :
    ∃ calls u, t.closeCalls signature time = ⟨u, none⟩ ∧ Closes signature time t u calls ∧
      (Event.leftBy signature t.openEvents).map (origin.slotGot? es) =
        calls.map fun c => some c.slot := by
  rcases h.closing signature time with ⟨_, hok⟩ | ⟨e, he, _, hlate, _⟩
  · obtain ⟨calls, hcloses⟩ := closeCalls_closes hok
    have hcalls : ∀ e ∈ Event.leftBy signature t.openEvents, e.isCall := by
      intro e he
      obtain ⟨_, _, caller, rfl⟩ := exists_related hcloses.marked e he
      rfl
    have hlength : (Event.leftBy signature t.openEvents).length = (calls.map (·.slot)).length := by
      rw [hcloses.marked.length_eq, List.length_map]
    have hgot := h.slots_of_calls hrecalls hcloses.openEvents hcloses.slots hcalls hlength
    rw [List.map_map] at hgot
    exact ⟨calls, _, Step.eq_of_fault hok, hcloses, hgot⟩
  · exact absurd hlate (Int.not_lt.mpr (htimes e he))

end Closing

/-- Is closing the calls that an operation of the signature left open all or nothing, in a tracker
that has come of another one with the events? -/
structure AllOrNothing (origin : Tracker) (events : List Event) (t : Tracker) (signature : String)
    (time : Int) : Prop where
  /-- It comes to the same as popping calls and putting back what was popped in vain. -/
  inPlace : t.closeInPlace signature time = t.closeCalls signature time
  /-- If the operation issued none of the calls on top nothing happens. -/
  nothing : (∀ e ∈ t.openEvents.takeWhile Event.isCall, ¬ Event.calledBy signature e) →
    t.closeCalls signature time = ⟨t, none⟩
  /-- If none of them came later, the calls from the topmost one that it issued on up are closed,
  each with the slot that it got when it came. -/
  all : ∀ above marker below, t.openEvents = above ++ marker :: below →
    (∀ e ∈ above, e.isCall ∧ ¬ Event.calledBy signature e) → Event.calledBy signature marker →
    (∀ e ∈ above ++ [marker], e.timestamp ≤ time) →
    ∃ calls u, t.closeCalls signature time = ⟨u, none⟩ ∧ u.openEvents = below ∧
      (above ++ [marker]).map (origin.slotGot? events) = calls.map (fun c => some c.slot) ∧
      Closes signature time t u calls
  /-- If one of them did, that is a fault. -/
  late : ∀ above marker below, t.openEvents = above ++ marker :: below →
    (∀ e ∈ above, e.isCall ∧ ¬ Event.calledBy signature e) → Event.calledBy signature marker →
    (∃ e ∈ above ++ [marker], time < e.timestamp) →
    ∃ e ∈ above ++ [marker], ∃ x : Execution, time < e.timestamp ∧ x.entryTime = e.timestamp ∧
      x.exitTime = time ∧ (t.closeCalls signature time).fault = some (.rejected (.backwards x))

/-- Closing calls is all or nothing, for any operation and at any time, in whatever state events of
growing order indices leave a new tracker, also if the last one taken in shows a fault. -/
theorem closing_all_or_nothing (trace : TraceInfo) (m : Matching) (model : Model)
    {events : List Event} (hinc : events.Pairwise fun d e => d.orderIndex < e.orderIndex)
    (signature : String) (time : Int) :
    AllOrNothing (start trace m model) events ((start trace m model).run events).tracker signature
      time := by
  obtain ⟨fs, hbacked, hrecalls⟩ := exists_backed trace m model hinc
  generalize ((start trace m model).run events).tracker = t at hbacked ⊢
  have hleft : ∀ {above marker below}, t.openEvents = above ++ marker :: below →
      (∀ e ∈ above, e.isCall ∧ ¬ Event.calledBy signature e) → Event.calledBy signature marker →
      Event.leftBy signature t.openEvents = above ++ [marker] := by
    intro above marker below hevents habove hmarker
    rw [hevents, Event.leftBy_append habove hmarker]
  refine ⟨closeInPlace_eq (hbacked.enough signature) time,
    fun hnone => hbacked.closeCalls_idle (Event.leftBy_eq_nil hnone) time, ?_, ?_⟩
  · intro above marker below hevents habove hmarker htimes
    have hrun := hleft hevents habove hmarker
    obtain ⟨calls, u, hclose, hcloses, hgot⟩ := hbacked.closes hrecalls (hrun ▸ htimes)
    have hsplit := hcloses.openEvents
    rw [hrun, hevents, List.append_cons] at hsplit
    exact ⟨calls, u, hclose, (List.append_cancel_left hsplit).symm, hrun ▸ hgot, hcloses⟩
  · intro above marker below hevents habove hmarker hlate
    have hrun := hleft hevents habove hmarker
    obtain ⟨e, he, htime⟩ := hlate
    rcases hbacked.closing signature time with ⟨htimes, _⟩ | hfault
    · exact absurd htime (Int.not_lt.mpr (htimes e (hrun ▸ he)))
    · exact hrun ▸ hfault

/-- An announced operation, and under it calls of different callers, each inside the one before. -/
def callsInCalls : List Event :=
  [.call .operation ⟨1, 7, 0⟩ ⟨"main()", "M"⟩ ⟨"a()", "A"⟩,
   .before .operation ⟨2, 7, 1⟩ ⟨"a()", "A"⟩,
   .call .operation ⟨3, 7, 2⟩ ⟨"a()", "A"⟩ ⟨"b()", "B"⟩,
   .call .operation ⟨4, 7, 4⟩ ⟨"b()", "B"⟩ ⟨"c()", "C"⟩,
   .call .constructor ⟨5, 7, 5⟩ ⟨"c()", "C"⟩ ⟨"D()", "D"⟩]

/-- The upper two calls go with the slots that they got, or none does. -/
theorem callsInCalls_closed :
    (callsInCalls.Pairwise fun d e => d.orderIndex < e.orderIndex) ∧
      (∃ calls u,
        ((start { traceId := 7 } {} {}).run callsInCalls).tracker.closeCalls "b()" 9 = ⟨u, none⟩ ∧
        (calls.map fun c => some c.slot) = [some ⟨3, 3⟩, some ⟨2, 2⟩] ∧
        u.openEvents.map Event.typeName = ["CallOperation", "BeforeOperation", "CallOperation"] ∧
        u.slots = [⟨1, 1⟩, ⟨0, 0⟩] ∧ u.intervals = [⟨2, 2, 4, 9⟩, ⟨3, 3, 5, 9⟩] ∧
        Closes "b()" 9 ((start { traceId := 7 } {} {}).run callsInCalls).tracker u calls) ∧
      (∃ x, (((start { traceId := 7 } {} {}).run callsInCalls).tracker.closeCalls "b()" 4).fault =
        some (.rejected (.backwards x))) ∧
      ((start { traceId := 7 } {} {}).run callsInCalls).tracker.closeCalls "main()" 9 =
        ⟨((start { traceId := 7 } {} {}).run callsInCalls).tracker, none⟩ := by
  have hinc : callsInCalls.Pairwise fun d e => d.orderIndex < e.orderIndex := by decide
  have hclosing := closing_all_or_nothing { traceId := 7 } {} {} hinc
  have hopen : ((start { traceId := 7 } {} {}).run callsInCalls).tracker.openEvents =
      [.call .constructor ⟨5, 7, 5⟩ ⟨"c()", "C"⟩ ⟨"D()", "D"⟩] ++
        .call .operation ⟨4, 7, 4⟩ ⟨"b()", "B"⟩ ⟨"c()", "C"⟩ :: (callsInCalls.take 3).reverse := by
    rfl
  refine ⟨hinc, ?_, ?_, (hclosing "main()" 9).nothing (by decide)⟩
  · obtain ⟨calls, u, hclose, hbelow, hgot, hcloses⟩ :=
      (hclosing "b()" 9).all _ _ _ hopen (by decide) (by decide) (by decide)
    have hu : (((start { traceId := 7 } {} {}).run callsInCalls).tracker.closeCalls "b()" 9).tracker
        = u := congrArg Step.tracker hclose
    exact ⟨calls, u, hclose, hgot.symm.trans (by rfl), hbelow ▸ rfl, hu ▸ rfl, hu ▸ rfl, hcloses⟩
  · obtain ⟨_, _, x, _, _, _, hfault⟩ :=
      (hclosing "b()" 4).late _ _ _ hopen (by decide) (by decide) (by decide)
    exact ⟨x, hfault⟩

end Tracker

end Retrace
