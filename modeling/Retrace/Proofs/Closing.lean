import Mathlib.Data.List.Forall2
import Retrace.Proofs.Entities
import Retrace.Proofs.Moves

/-! Closing calls. An event of an operation closes the calls on top down to the topmost one that the
operation issued, each with its own slot, and leaves alone what is below. If the operation issued
none of them nothing happens at all.

That is also all that an end does which does not match. It closes calls before it looks for its
beginning, so it may leave executions behind, but only those of calls that its own operation left
open. -/

namespace Retrace
open scoped List

namespace Event

/-- Is the event a call that an operation of the signature issued? -/
def calledBy (signature : String) : Event → Bool
  | call _ _ caller _ => caller.signature == signature
  | _ => false

/-- The place of the topmost call that an operation of the signature issued, if there is one among the
calls on top. -/
def topmost? (signature : String) (events : List Event) : Option Nat :=
  (events.takeWhile isCall).findIdx? (calledBy signature)

/-- The calls on top of some open events, down to the topmost one that an operation of the signature
issued, if it issued one of them. -/
def leftBy (signature : String) (events : List Event) : List Event :=
  match topmost? signature events with
  | some place => events.take (place + 1)
  | none => []

theorem topmost?_call (signature : String) (kind : OperationKind) (stamp : Stamp)
    (caller callee : OperationRef) (below : List Event) :
    topmost? signature (.call kind stamp caller callee :: below) =
      if caller.signature = signature then some 0
      else (topmost? signature below).map (· + 1) := by
  rw [topmost?, List.takeWhile_cons_of_pos rfl, List.findIdx?_cons]
  simp only [calledBy, beq_iff_eq]
  rfl

theorem leftBy_eq_nil {signature : String} {events : List Event}
    (h : ∀ e ∈ events.takeWhile isCall, ¬ calledBy signature e) : leftBy signature events = [] := by
  have hnone : topmost? signature events = none :=
    List.findIdx?_eq_none_iff.mpr fun e he => Bool.not_eq_true _ ▸ h e he
  rw [leftBy, hnone]

/-- The calls from the topmost one of the operation on up are the ones that it left. -/
theorem leftBy_append {signature : String} {above below : List Event} {marker : Event}
    (habove : ∀ e ∈ above, e.isCall ∧ ¬ calledBy signature e) (hmarker : calledBy signature marker) :
    leftBy signature (above ++ marker :: below) = above ++ [marker] := by
  have hplace : topmost? signature (above ++ marker :: below) = some above.length := by
    induction above with
    | nil =>
      cases marker with
      | call kind stamp caller callee =>
        rw [List.nil_append, topmost?_call, if_pos (beq_iff_eq.mp hmarker)]
        rfl
      | _ => cases hmarker
    | cons e rest ih =>
      obtain ⟨⟨hcall, hother⟩, hrest⟩ := List.forall_mem_cons.mp habove
      cases e with
      | call kind stamp caller callee =>
        rw [List.cons_append, topmost?_call, if_neg fun heq => hother (beq_iff_eq.mpr heq),
          ih hrest]
        rfl
      | _ => cases hcall
  rw [leftBy, hplace, List.append_cons]
  exact List.take_left' (by simp)

end Event

/-- Is the event the marker of the call? -/
def OpenCall.Marked (event : Event) (call : OpenCall) : Prop :=
  ∃ caller, event = call.marker caller

/-- Lists that are related member by member have a partner for each member of the first one. -/
theorem exists_related {α β : Type} {R : α → β → Prop} {as : List α} {bs : List β}
    (h : List.Forall₂ R as bs) : ∀ a ∈ as, ∃ b ∈ bs, R a b := by
  induction h with
  | nil => exact List.forall_mem_nil _
  | cons hab _ ih =>
    refine List.forall_mem_cons.mpr ⟨⟨_, List.mem_cons_self, hab⟩, fun a ha => ?_⟩
    obtain ⟨b, hb, hrelated⟩ := ih a ha
    exact ⟨b, List.mem_cons_of_mem _ hb, hrelated⟩

section Scan

variable {signature : String} {events below : List Event} {slots left : List Slot}
  {calls : List OpenCall}

/-- Calls are found down to the topmost one of the operation, with the slots above. -/
theorem callsDownTo_found (h : callsDownTo signature events slots = .found calls below left) :
    ∃ place, Event.topmost? signature events = some place ∧
      events.drop (place + 1) = below ∧
      List.Forall₂ OpenCall.Marked (events.take (place + 1)) calls.reverse ∧
      slots = calls.reverse.map (·.slot) ++ left := by
  induction events generalizing slots calls with
  | nil => cases h
  | cons e rest ih =>
    cases e with
    | call kind stamp caller callee =>
      cases slots with
      | nil => cases h
      | cons slot slots =>
        simp only [callsDownTo] at h
        split at h
        · rename_i hcaller
          cases h
          exact ⟨0, by rw [Event.topmost?_call, if_pos hcaller], rfl, .cons ⟨caller, rfl⟩ .nil, rfl⟩
        · rename_i hcaller
          split at h
          · rename_i hrest
            cases h
            obtain ⟨place, hplace, hbelow, hmarked, hslots⟩ := ih hrest
            refine ⟨place + 1, ?_, hbelow, ?_, ?_⟩
            · rw [Event.topmost?_call, if_neg hcaller, hplace]
              rfl
            · rw [List.reverse_append]
              exact .cons ⟨caller, rfl⟩ hmarked
            · simp [hslots]
          · cases h
          · cases h
    | _ => cases h

/-- What is taken off are calls, as many as there are slots, which happened when the calls did. -/
theorem callsDownTo_calls (h : callsDownTo signature events slots = .found calls below left) :
    ∃ markers, events = markers ++ below ∧ (∀ e ∈ markers, e.isCall) ∧
      markers.length = calls.length ∧ slots = (calls.map (·.slot)).reverse ++ left ∧
      ∀ c ∈ calls, ∃ e ∈ markers, e.timestamp = c.stamp.timestamp := by
  obtain ⟨place, _, hbelow, hmarked, hslots⟩ := callsDownTo_found h
  refine ⟨events.take (place + 1), ?_, ?_, ?_, ?_, ?_⟩
  · rw [← hbelow, List.take_append_drop]
  · intro e he
    obtain ⟨call, _, caller, rfl⟩ := exists_related hmarked e he
    rfl
  · rw [hmarked.length_eq, List.length_reverse]
  · rw [hslots, List.map_reverse]
  · intro c hc
    obtain ⟨e, he, caller, rfl⟩ := exists_related hmarked.flip c (List.mem_reverse.mpr hc)
    exact ⟨_, he, rfl⟩

theorem callsDownTo_absent (h : callsDownTo signature events slots = .absent) :
    Event.topmost? signature events = none := by
  induction events generalizing slots with
  | nil => rfl
  | cons e rest ih =>
    cases e with
    | call kind stamp caller callee =>
      cases slots with
      | nil => cases h
      | cons slot slots =>
        simp only [callsDownTo] at h
        split at h
        · cases h
        · rename_i hcaller
          split at h
          · cases h
          · rename_i hrest
            rw [Event.topmost?_call, if_neg hcaller, ih hrest]
            rfl
          · cases h
    | _ => rfl

end Scan

namespace Tracker

/-- Is the second tracker the first one after the calls that an operation of the signature left open
were closed at a time? The calls are given with their slots, innermost first. -/
structure Closes (signature : String) (time : Int) (t u : Tracker) (calls : List OpenCall) :
    Prop where
  marked : List.Forall₂ OpenCall.Marked (Event.leftBy signature t.openEvents) calls
  openEvents : t.openEvents = Event.leftBy signature t.openEvents ++ u.openEvents
  slots : t.slots = calls.map (·.slot) ++ u.slots
  /-- One assumed execution of the callee is added for each call. -/
  executions : u.executions.executions ~
    calls.map (fun c => ((c.assumedUntil time).execution t.trace t.matching u.model).1) ++
      t.executions.executions
  rest : u = { t with
    openEvents := u.openEvents
    slots := u.slots
    executions := { t.executions with executions := u.executions.executions }
    model := u.model }
  idle : Event.leftBy signature t.openEvents = [] → u = t

/-- Recording adds executions and entities. -/
theorem recordedAll_eq (t : Tracker) (is : List Invocation) :
    t.recordedAll is = { t with
      executions := { t.executions with executions := (t.recordedAll is).executions.executions }
      model := (t.recordedAll is).model } := by
  induction is generalizing t with
  | nil => rfl
  | cons i rest ih => exact ih (t.recorded i)

/-- What is found is recorded, without being open any more. -/
theorem closeCalls_of_found {t : Tracker} {signature : String} {calls : List OpenCall}
    {below : List Event} {left : List Slot}
    (hrun : callsDownTo signature t.openEvents t.slots = .found calls below left) (time : Int) :
    t.closeCalls signature time =
      (t.holding below left t.nextEoi).recordAll (calls.map (OpenCall.assumedUntil time)) := by
  rw [closeCalls, hrun]
  rfl

theorem closeCalls_found {t : Tracker} {signature : String} {time : Int} {calls : List OpenCall}
    {below : List Event} {left : List Slot}
    (hrun : callsDownTo signature t.openEvents t.slots = .found calls below left)
    (hok : (t.closeCalls signature time).fault = none) :
    t.closeCalls signature time =
      ⟨(t.recordedAll (calls.map (OpenCall.assumedUntil time))).holding below left t.nextEoi,
        none⟩ := by
  rw [closeCalls_of_found hrun] at hok ⊢
  rw [(recordAll_eq_ok hok).1, recordedAll_holding]

theorem closeCalls_closes {t : Tracker} {signature : String} {time : Int}
    (hok : (t.closeCalls signature time).fault = none) :
    ∃ calls, Closes signature time t (t.closeCalls signature time).tracker calls := by
  cases hrun : callsDownTo signature t.openEvents t.slots with
  | missingSlot =>
    rw [closeCalls, hrun] at hok
    cases hok
  | absent =>
    have hclose : t.closeCalls signature time = ⟨t, none⟩ := by rw [closeCalls, hrun]
    have hnone : Event.leftBy signature t.openEvents = [] := by
      rw [Event.leftBy, callsDownTo_absent hrun]
    rw [hclose]
    refine ⟨[], ?_, ?_, rfl, .refl _, rfl, fun _ => rfl⟩
    · rw [hnone]
      exact .nil
    · rw [hnone]
      rfl
  | found calls below left =>
    obtain ⟨place, hplace, hbelow, hmarked, hslots⟩ := callsDownTo_found hrun
    have hleft : Event.leftBy signature t.openEvents = t.openEvents.take (place + 1) := by
      rw [Event.leftBy, hplace]
    have hadded := executions_recordedAll t (calls.map (OpenCall.assumedUntil time))
    rw [List.map_map] at hadded
    rw [closeCalls_found hrun hok]
    refine ⟨calls.reverse, hleft ▸ hmarked, ?_, hslots, ?_, ?_, fun hidle => ?_⟩
    · rw [hleft, holding_openEvents, ← hbelow]
      exact (List.take_append_drop _ _).symm
    · rw [List.map_reverse]
      exact hadded.trans ((List.reverse_perm _).symm.append_right _)
    · rw [recordedAll_eq]
      rfl
    · rw [hleft, List.take_eq_nil_iff] at hidle
      rw [hidle.resolve_left (Nat.succ_ne_zero place)] at hplace
      cases hplace

end Tracker

/-! ## Ends that do not match -/

/-- Does the fault say that an operation ends whose beginning is not the innermost open event? -/
def TraceFault.isUnmatched : TraceFault → Bool
  | unopened .. => true
  | mismatched .. => true
  | _ => false

namespace Tracker

section Unmatched

variable {t : Tracker} {fault : TraceFault}

theorem record_matched {i : Invocation} (h : (t.record i).fault = some fault) :
    fault.isUnmatched = false := by
  rw [record_eq] at h
  cases hadd : t.executions.add (i.execution t.trace t.matching t.model).1 with
  | ok executions => rw [hadd] at h; cases h
  | error why => rw [hadd] at h; cases h; rfl

theorem recordAll_matched {is : List Invocation} (h : (t.recordAll is).fault = some fault) :
    fault.isUnmatched = false := by
  induction is generalizing t with
  | nil => cases h
  | cons i rest ih =>
    rw [recordAll, Step.andThen] at h
    split at h
    · exact ih h
    · exact record_matched h

theorem closeCalls_matched {signature : String} {time : Int}
    (h : (t.closeCalls signature time).fault = some fault) : fault.isUnmatched = false := by
  unfold closeCalls at h
  split at h
  · exact recordAll_matched h
  · cases h
  · cases h; rfl

theorem closeInnermost_matched {kind : OperationKind} {stamp : Stamp} {operation : OperationRef}
    {time : Int} (h : (t.closeInnermost kind stamp operation time).fault = some fault) :
    fault.isUnmatched = false := by
  unfold closeInnermost at h
  simp only at h
  split at h
  · cases h; rfl
  · exact record_matched h

/-- An end that does not match is found out before anything is taken off. -/
theorem endOperation_unmatched {kind : OperationKind} {time : Int} {operation : OperationRef}
    (h : (t.endOperation kind time operation).fault = some fault) (hfault : fault.isUnmatched) :
    (t.endOperation kind time operation).tracker = t := by
  unfold endOperation at h ⊢
  split
  · rename_i openKind stamp opened below hevents
    rw [hevents] at h
    by_cases hkind : openKind = kind
    · by_cases hop : opened = operation
      · simp only [hkind, hop, ne_eq, not_true_eq_false, if_false] at h
        rw [closeInnermost_matched h] at hfault
        cases hfault
      · simp [hkind, hop]
    · simp [hkind]
  · rfl

end Unmatched

theorem step_of_ending {t : Tracker} {e : Event} {kind : OperationKind} {stamp : Stamp}
    {operation : OperationRef} (h : e.ending? = some (kind, stamp, operation)) :
    t.step e = t.leave kind stamp.timestamp operation := by
  cases e with
  | after _ _ _ => cases h; rfl
  | afterFailed _ _ _ _ => cases h; rfl
  | _ => cases h

/-- An end that does not match closes the calls that its operation left open and does nothing
else. -/
theorem unmatched_end_closes {t : Tracker} {e : Event} {kind : OperationKind} {stamp : Stamp}
    {operation : OperationRef} {fault : TraceFault}
    (hend : e.ending? = some (kind, stamp, operation)) (hfault : (t.step e).fault = some fault)
    (hunmatched : fault.isUnmatched) :
    ∃ calls, Closes operation.signature stamp.timestamp t (t.step e).tracker calls := by
  rw [step_of_ending hend, leave] at hfault ⊢
  cases hclose : (t.closeCalls operation.signature stamp.timestamp).fault with
  | some other =>
    rw [Step.andThen, hclose] at hfault
    rw [closeCalls_matched hfault] at hunmatched
    cases hunmatched
  | none =>
    rw [Step.andThen, hclose] at hfault ⊢
    rw [endOperation_unmatched hfault hunmatched]
    exact closeCalls_closes hclose

/-- An operation has called another one, and that has called a constructor. -/
def underWay : Tracker :=
  ((start { traceId := 7 } {} {}).run
    [.before .operation ⟨1, 7, 0⟩ ⟨"a()", "A"⟩,
     .call .operation ⟨2, 7, 1⟩ ⟨"a()", "A"⟩ ⟨"b()", "B"⟩,
     .call .constructor ⟨3, 7, 2⟩ ⟨"b()", "B"⟩ ⟨"C()", "C"⟩]).tracker

/-- The operation ends, but is said to be one of another class. -/
def misnamedEnd : Event :=
  .after .operation ⟨9, 7, 3⟩ ⟨"a()", "Z"⟩

theorem misnamedEnd_closes :
    (underWay.step misnamedEnd).fault = some (.mismatched ⟨"a()", "A"⟩ ⟨"a()", "Z"⟩) ∧
      (underWay.step misnamedEnd).tracker.openEvents =
        [.before .operation ⟨1, 7, 0⟩ ⟨"a()", "A"⟩] ∧
      (underWay.step misnamedEnd).tracker.intervals = [⟨1, 1, 2, 9⟩, ⟨2, 2, 3, 9⟩] ∧
      ∃ calls, Closes "a()" 9 underWay (underWay.step misnamedEnd).tracker calls := by
  have hend : misnamedEnd.ending? = some (.operation, ⟨9, 7, 3⟩, ⟨"a()", "Z"⟩) := rfl
  have hfault : (underWay.step misnamedEnd).fault =
      some (.mismatched ⟨"a()", "A"⟩ ⟨"a()", "Z"⟩) := by rfl
  exact ⟨hfault, by rfl, by rfl, unmatched_end_closes hend hfault rfl⟩

/-- An end that does not match may leave executions behind and take open events and their slots
away: those of calls that its own operation left open. -/
theorem not_unmatched_end_idle :
    ¬ ∀ (trace : TraceInfo) (m : Matching) (model : Model) (events : List Event) (e : Event)
        (fault : TraceFault),
      ((events ++ [e]).Pairwise fun d e => d.orderIndex < e.orderIndex) →
      ((start trace m model).run events).fault = none →
      (((start trace m model).run events).tracker.step e).fault = some fault →
      fault.isUnmatched →
        (((start trace m model).run events).tracker.step e).tracker.executions =
            ((start trace m model).run events).tracker.executions ∧
          (((start trace m model).run events).tracker.step e).tracker.openEvents =
            ((start trace m model).run events).tracker.openEvents ∧
          (((start trace m model).run events).tracker.step e).tracker.slots =
            ((start trace m model).run events).tracker.slots := by
  intro h
  have hidle := h { traceId := 1 } {} {}
    [.call .operation ⟨1, 1, 0⟩ ⟨"void a.A.a()", "a.A"⟩ ⟨"void x.X.x()", "x.X"⟩]
    (.after .operation ⟨2, 1, 1⟩ ⟨"void a.A.a()", "a.A"⟩)
    (.unopened .operation "void a.A.a()" none) (by decide) (by rfl) (by rfl) rfl
  have hsize := congrArg ExecutionTrace.size hidle.1
  revert hsize
  decide

end Tracker

end Retrace
