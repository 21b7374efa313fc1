import Retrace.Proofs.Closing
import Retrace.Proofs.Sequencing

/-! Retelling. A trace can be told again, with other order indices, to a tracker that guesses calls
where the first one does not, or the other way round. Both come to the same as long as they agree at
every event on which beginnings were announced, those among the open events included, since an end
asks again. They differ in what they give notice of, and in nothing else. -/

namespace Retrace

variable (f : Int → Int) (guess : Bool)

def Stamp.renumbered (stamp : Stamp) : Stamp :=
  { stamp with orderIndex := f stamp.orderIndex }

namespace Event

/-- The event with another order index. -/
def renumbered : Event → Event
  | before kind stamp operation => before kind (stamp.renumbered f) operation
  | after kind stamp operation => after kind (stamp.renumbered f) operation
  | afterFailed kind stamp operation cause => afterFailed kind (stamp.renumbered f) operation cause
  | call kind stamp caller callee => call kind (stamp.renumbered f) caller callee
  | split stamp => split (stamp.renumbered f)
  | unknown name stamp => unknown name (stamp.renumbered f)

@[simp] theorem renumbered_orderIndex (e : Event) :
    (e.renumbered f).orderIndex = f e.orderIndex := by
  cases e <;> rfl

@[simp] theorem renumbered_traceId (e : Event) : (e.renumbered f).traceId = e.traceId := by
  cases e <;> rfl

@[simp] theorem renumbered_typeName (e : Event) : (e.renumbered f).typeName = e.typeName := by
  cases e with
  | before kind _ _ => cases kind <;> rfl
  | after kind _ _ => cases kind <;> rfl
  | afterFailed kind _ _ _ => cases kind <;> rfl
  | call kind _ _ _ => cases kind <;> rfl
  | split _ => rfl
  | unknown _ _ => rfl

@[simp] theorem renumbered_call (kind : OperationKind) (stamp : Stamp)
    (caller callee : OperationRef) :
    (call kind stamp caller callee).renumbered f = call kind (stamp.renumbered f) caller callee :=
  rfl

/-- What the event becomes depends on its own order index. -/
theorem renumbered_congr {g : Int → Int} {e : Event} (h : f e.orderIndex = g e.orderIndex) :
    e.renumbered f = e.renumbered g := by
  cases e <;>
    (simp only [orderIndex, stamp] at h
     simp only [renumbered, Stamp.renumbered, h])

@[simp] theorem renumbered_same (e : Event) : e.renumbered (fun i => i) = e := by
  cases e <;> rfl

end Event

def OpenCall.renumbered (call : OpenCall) : OpenCall :=
  { call with stamp := call.stamp.renumbered f }

def CallRun.renumbered : CallRun → CallRun
  | found calls openEvents slots =>
    found (calls.map (·.renumbered f)) (openEvents.map (·.renumbered f)) slots
  | absent => absent
  | missingSlot => missingSlot

/-- Order indices play no part in which calls an operation left open. -/
theorem callsDownTo_renumbered (signature : String) (events : List Event) (slots : List Slot) :
    callsDownTo signature (events.map (·.renumbered f)) slots =
      (callsDownTo signature events slots).renumbered f := by
  induction events generalizing slots with
  | nil => rfl
  | cons e rest ih =>
    cases e with
    | call kind stamp caller callee =>
      cases slots with
      | nil => rfl
      | cons slot slots =>
        simp only [List.map_cons, Event.renumbered_call, callsDownTo, ih]
        split
        · rfl
        · cases callsDownTo signature rest slots with
          | found calls below left => simp [CallRun.renumbered, OpenCall.renumbered]
          | absent => rfl
          | missingSlot => rfl
    | _ => rfl

namespace Matching

/-- The matching that guesses calls, or does not. -/
def guessing (m : Matching) : Matching :=
  { m with guessCalls := guess }

/-- Do both tellings agree on whether the innermost of some open events announces the operation? -/
def Concurs (m : Matching) (events : List Event) (kind : OperationKind) (stamp : Stamp)
    (operation : OperationRef) : Prop :=
  ((m.guessing guess).announcedBy? (events.map (·.renumbered f)) kind (stamp.renumbered f)
      operation).isSome = (m.announcedBy? events kind stamp operation).isSome

/-- Do both tellings agree for every beginning among some events on whether it was announced? -/
def ConcursOn (m : Matching) (events : List Event) : Prop :=
  ∀ kind stamp operation below, .before kind stamp operation :: below <:+ events →
    m.Concurs f guess below kind stamp operation

end Matching

/-- The tracker of a retold trace. -/
def Tracker.retold (notices : List Notice) (t : Tracker) : Tracker :=
  { t with
    matching := t.matching.guessing guess
    openEvents := t.openEvents.map (·.renumbered f)
    notices }

theorem Tracker.retold_same (t : Tracker) :
    t.retold (fun i => i) t.matching.guessCalls t.notices = t := by
  simp [Tracker.retold, Matching.guessing]

def Step.retold (notices : List Notice) (s : Step) : Step :=
  ⟨s.tracker.retold f guess notices, s.fault⟩

/-- Does the second step come to the first one retold? -/
def Step.Retells (s u : Step) : Prop :=
  ∃ notices, u = s.retold f guess notices

section Steps

variable {f guess} {t : Tracker} {notices : List Notice}

theorem Matching.ConcursOn.suffix {m : Matching} {events below : List Event}
    (h : m.ConcursOn f guess events) (hsuffix : below <:+ events) : m.ConcursOn f guess below :=
  fun kind stamp operation rest hrest =>
    h kind stamp operation rest (hrest.trans hsuffix)

theorem Step.Retells.andThen {s : Step} {next later : Tracker → Step}
    (h : s.fault = none →
      (next s.tracker).Retells f guess (later (s.tracker.retold f guess notices))) :
    (s.andThen next).Retells f guess ((s.retold f guess notices).andThen later) := by
  obtain ⟨t, fault⟩ := s
  cases fault with
  | none => exact h rfl
  | some fault => exact ⟨notices, rfl⟩

namespace Tracker

theorem record_retold (t : Tracker) (notices : List Notice) (i : Invocation) :
    (t.retold f guess notices).record i = (t.record i).retold f guess notices := by
  let u := t.retold f guess notices
  have hadd : u.executions.add (i.execution u.trace u.matching u.model).1 =
      t.executions.add (i.execution t.trace t.matching t.model).1 := rfl
  rw [record_eq, record_eq, hadd]
  cases t.executions.add (i.execution t.trace t.matching t.model).1 <;> rfl

theorem recordAll_retold (t : Tracker) (notices : List Notice) (is : List Invocation) :
    (t.retold f guess notices).recordAll is = (t.recordAll is).retold f guess notices := by
  induction is generalizing t with
  | nil => rfl
  | cons i rest ih =>
    rw [recordAll, recordAll, record_retold]
    cases hone : t.record i with
    | mk u fault =>
      cases fault with
      | none => exact ih u
      | some fault => rfl

theorem closeCalls_retold (t : Tracker) (notices : List Notice) (signature : String) (time : Int) :
    (t.retold f guess notices).closeCalls signature time =
      (t.closeCalls signature time).retold f guess notices := by
  have hrun : callsDownTo signature (t.retold f guess notices).openEvents
      (t.retold f guess notices).slots =
        (callsDownTo signature t.openEvents t.slots).renumbered f :=
    callsDownTo_renumbered f signature t.openEvents t.slots
  rw [closeCalls, closeCalls, hrun]
  cases callsDownTo signature t.openEvents t.slots with
  | absent => rfl
  | missingSlot => rfl
  | found calls below left =>
    have hassumed : (calls.map (·.renumbered f)).map (OpenCall.assumedUntil time) =
        calls.map (OpenCall.assumedUntil time) := by
      rw [List.map_map]
      rfl
    simp only [CallRun.renumbered, hassumed]
    exact recordAll_retold { t with openEvents := below, slots := left } notices _

theorem announced?_retold {kind : OperationKind} {stamp : Stamp} {operation : OperationRef}
    (h : t.matching.Concurs f guess t.openEvents kind stamp operation) (notices : List Notice) :
    ((t.retold f guess notices).announced? kind (stamp.renumbered f) operation).isSome =
      (t.announced? kind stamp operation).isSome :=
  h

theorem enter_retold {kind : OperationKind} {stamp : Stamp} {operation : OperationRef}
    (h : t.matching.Concurs f guess t.openEvents kind stamp operation) :
    (t.enter kind stamp operation).Retells f guess
      ((t.retold f guess notices).enter kind (stamp.renumbered f) operation) := by
  have hsame := announced?_retold h notices
  unfold enter
  cases hhow : t.announced? kind stamp operation with
  | none =>
    rw [hhow, Option.isSome_none, Option.isSome_eq_false_iff, Option.isNone_iff_eq_none] at hsame
    rw [hsame]
    simp only [closeCalls_retold]
    exact Step.Retells.andThen fun _ => ⟨notices, rfl⟩
  | some how =>
    rw [hhow] at hsame
    obtain ⟨how', hhow'⟩ := Option.isSome_iff_exists.mp hsame
    obtain ⟨old, hnote⟩ := noteGuess_eq t stamp operation how
    obtain ⟨new, hnote'⟩ :=
      noteGuess_eq (t.retold f guess notices) (stamp.renumbered f) operation how'
    rw [hhow']
    simp only [hnote, hnote']
    exact ⟨new, rfl⟩

theorem recordInnermost_retold (t : Tracker) (notices : List Notice) (i : Slot → Invocation) :
    (t.retold f guess notices).recordInnermost i =
      (t.recordInnermost i).retold f guess notices := by
  have hslots : (t.retold f guess notices).slots = t.slots := rfl
  unfold recordInnermost
  rw [hslots]
  cases t.slots with
  | nil => rfl
  | cons slot left => exact record_retold { t with slots := left } notices (i slot)

theorem closeInnermost_retold {kind : OperationKind} {stamp : Stamp} {operation : OperationRef}
    (time : Int) (h : t.matching.Concurs f guess t.openEvents kind stamp operation) :
    (t.closeInnermost kind stamp operation time).Retells f guess
      ((t.retold f guess notices).closeInnermost kind (stamp.renumbered f) operation time) := by
  have hempty : (t.retold f guess notices).openEvents.isEmpty = t.openEvents.isEmpty :=
    List.isEmpty_map
  have hleft :
      (if (t.announced? kind stamp operation).isSome then (t.retold f guess notices).openEvents.tail
        else (t.retold f guess notices).openEvents) =
      (if (t.announced? kind stamp operation).isSome then t.openEvents.tail
        else t.openEvents).map (·.renumbered f) := by
    split
    · exact List.map_tail.symm
    · rfl
  obtain ⟨old, hclose⟩ := closeInnermost_eq t kind stamp operation time
  obtain ⟨new, hclose'⟩ :=
    closeInnermost_eq (t.retold f guess notices) kind (stamp.renumbered f) operation time
  rw [hclose, hclose', announced?_retold h, hempty, hleft]
  refine ⟨new, ?_⟩
  rw [← recordInnermost_retold]
  rfl

theorem endOperation_retold (t : Tracker) (notices : List Notice) {kind : OperationKind}
    {time : Int} {operation : OperationRef} (h : t.matching.ConcursOn f guess t.openEvents) :
    (t.endOperation kind time operation).Retells f guess
      ((t.retold f guess notices).endOperation kind time operation) := by
  unfold endOperation
  have hopen : (t.retold f guess notices).openEvents = t.openEvents.map (·.renumbered f) := rfl
  cases hevents : t.openEvents with
  | nil =>
    simp only [hopen, hevents, List.map_nil]
    exact ⟨notices, rfl⟩
  | cons e below =>
    have hunopened : (⟨t.retold f guess notices,
          some (.unopened kind operation.signature (some (e.renumbered f).typeName))⟩ : Step) =
        Step.retold f guess notices
          ⟨t, some (.unopened kind operation.signature (some e.typeName))⟩ := by
      rw [Event.renumbered_typeName]
      rfl
    cases e with
    | before openKind stamp opened =>
      simp only [hopen, hevents, List.map_cons, Event.renumbered]
      by_cases hkind : openKind = kind
      · by_cases hop : opened = operation
        · rw [hevents] at h
          simp only [hkind, hop, ne_eq, not_true_eq_false, if_false]
          have hbelow := h openKind stamp opened below (List.suffix_refl _)
          rw [hkind, hop] at hbelow
          exact @closeInnermost_retold f guess { t with openEvents := below } notices _ _ _ time
            hbelow
        · simp only [hkind, hop, ne_eq, not_true_eq_false, if_false, not_false_eq_true, if_true]
          exact ⟨notices, rfl⟩
      · simp only [hkind, ne_eq, not_false_eq_true, if_true]
        exact ⟨notices, hunopened⟩
    | _ =>
      rw [hopen, hevents]
      exact ⟨notices, hunopened⟩

theorem leave_retold {kind : OperationKind} {time : Int} {operation : OperationRef}
    (h : t.matching.ConcursOn f guess t.openEvents) :
    (t.leave kind time operation).Retells f guess
      ((t.retold f guess notices).leave kind time operation) := by
  unfold leave
  rw [closeCalls_retold]
  refine Step.Retells.andThen fun hok => endOperation_retold _ notices ?_
  obtain ⟨calls, hcloses⟩ := closeCalls_closes hok
  have hmatching := congrArg Tracker.matching hcloses.rest
  rw [hmatching]
  exact h.suffix ⟨_, hcloses.openEvents.symm⟩

/-- What the second telling does at one event is what the first one does. -/
theorem step_retold {e : Event} (h : t.matching.ConcursOn f guess (e :: t.openEvents)) :
    (t.step e).Retells f guess ((t.retold f guess notices).step (e.renumbered f)) := by
  have hopen := h.suffix (List.suffix_cons e t.openEvents)
  cases e with
  | call kind stamp caller callee =>
    simp only [Event.renumbered_call, step, closeCalls_retold]
    exact Step.Retells.andThen fun _ => ⟨notices, rfl⟩
  | before kind stamp operation => exact enter_retold (h _ _ _ _ (List.suffix_refl _))
  | after kind stamp operation => exact leave_retold hopen
  | afterFailed kind stamp operation cause => exact leave_retold hopen
  | split stamp => exact ⟨_, rfl⟩
  | unknown name stamp => exact ⟨_, rfl⟩

/-! ## A batch told again -/

variable (f guess) in
/-- Do both tellings agree at each event from a place on that is taken in? -/
def ConcursAlong (t : Tracker) (place : Nat) : List Event → Prop
  | [] => True
  | e :: rest =>
    match checkSequence e t.trace.traceId place with
    | .error why =>
      ConcursAlong (t.note (.dropped t.trace.traceId e.orderIndex why)) (place + 1) rest
    | .ok () =>
      t.matching.ConcursOn f guess (e :: t.openEvents) ∧
        ((t.step e).fault = none → ConcursAlong (t.step e).tracker (place + 1) rest)

theorem checkSequence_moved {e : Event} {traceId : Int} {place shift : Nat} :
    checkSequence (e.renumbered (· + shift)) traceId (place + shift : Nat) = .ok () ↔
      checkSequence e traceId place = .ok () := by
  simp only [checkSequence_eq_ok_iff, Event.renumbered_orderIndex, Event.renumbered_traceId]
  omega

/-- Events that are all moved up by the same number of places bring the second tracker to where they
bring the first one. -/
theorem feed_retold {place shift : Nat} {es : List Event}
    (hshift : ∀ i : Int, place ≤ i → f i = i + shift) (h : t.ConcursAlong f guess place es)
    (dropped : Nat) (notices : List Notice) :
    ∃ new, (t.retold f guess notices).feed (place + shift) dropped
        (es.map (·.renumbered (· + shift))) =
      ⟨(t.feed place dropped es).tracker.retold f guess new, (t.feed place dropped es).dropped,
        (t.feed place dropped es).fault⟩ := by
  induction es generalizing t place dropped notices with
  | nil => exact ⟨notices, rfl⟩
  | cons e rest ih =>
    have hnext : place + shift + 1 = place + 1 + shift := by omega
    have hlater : ∀ i : Int, (place + 1 : Nat) ≤ i → f i = i + shift := by
      intro i hi
      exact hshift i (by omega)
    have hiff := @checkSequence_moved e t.trace.traceId place shift
    have htrace : (t.retold f guess notices).trace = t.trace := rfl
    simp only [List.map_cons, feed, ConcursAlong, htrace] at h ⊢
    cases hcheck : checkSequence e t.trace.traceId place with
    | error why =>
      -- The notices name the order indices, which differ.
      rw [hcheck] at h hiff
      cases hcheck' : checkSequence (e.renumbered (· + shift)) t.trace.traceId
          (place + shift : Nat) with
      | ok done => cases hiff.mp hcheck'
      | error why' =>
        simp only [hnext]
        exact ih hlater h _ _
    | ok done =>
      rw [hcheck] at h
      rw [hiff.mpr hcheck]
      obtain ⟨hconcurs, hrest⟩ := h
      have hsame : e.renumbered (· + shift) = e.renumbered f := by
        have hindex := (checkSequence_eq_ok_iff.mp hcheck).1
        exact Event.renumbered_congr _ (hshift _ (Int.le_of_eq hindex.symm)).symm
      obtain ⟨new, hstep⟩ := @step_retold f guess t notices e hconcurs
      simp only [hsame, hstep, Step.retold]
      cases hfault : (t.step e).fault with
      | some fault => exact ⟨new, rfl⟩
      | none =>
        simp only [hnext]
        exact ih hlater (hrest hfault) _ _

end Tracker

end Steps

/-- A retold batch comes to the outcome of the batch, and to the same entities. -/
theorem reconstruct_retold {settings other : Settings} {selection : Selection} {model : Model}
    {batch again : Batch} {extra : Nat} {notices : List Notice} (htrace : again.trace = batch.trace)
    (h : (Tracker.start batch.trace other.matching model).feed 0 0 again.events =
      let p := (Tracker.start batch.trace settings.matching model).feed 0 0 batch.events
      ⟨p.tracker.retold f guess notices, p.dropped + extra, p.fault⟩) :
    (reconstruct other selection model again).outcome =
        (reconstruct settings selection model batch).outcome ∧
      (reconstruct other selection model again).model =
        (reconstruct settings selection model batch).model ∧
      (reconstruct other selection model again).dropped =
        (reconstruct settings selection model batch).dropped +
          if selection.contains batch.traceId then extra else 0 := by
  have hid : again.traceId = batch.traceId := congrArg TraceInfo.traceId htrace
  unfold reconstruct
  rw [hid, htrace, h]
  generalize (Tracker.start batch.trace settings.matching model).feed 0 0 batch.events = p
  obtain ⟨t, dropped, fault⟩ := p
  by_cases hselected : selection.contains batch.traceId
  · simp only [hselected, if_true]
    cases fault with
    | some fault => exact ⟨rfl, rfl, rfl⟩
    | none =>
      refine ⟨?_, ?_, rfl⟩
      · exact (Tracker.conclude_of_finish _).trans (Tracker.conclude_of_finish t).symm
      · exact (Tracker.finish_model _).trans (Tracker.finish_model t).symm
  · simp only [hselected]
    exact ⟨rfl, rfl, rfl⟩

end Retrace
