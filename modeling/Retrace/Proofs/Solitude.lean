import Retrace.Proofs.Entities
import Retrace.Proofs.Sequencing
import Retrace.Task

/-! Solitude. If nobody else accesses what is shared, a task does exactly what its trace does with
the shared model: the entities, the model and the tallies are the same, too. -/

namespace Retrace

open Retrace.Task

namespace Task

variable {α β : Type}

theorem alone_bind (task : Task α) (next : α → Task β) (s : Shared) :
    (task >>= next).alone s = (next (task.alone s).1).alone (task.alone s).2 := by
  induction task generalizing s with
  | done result => rfl
  | access act rest ih => exact ih s (act s)

/-- An entity is interned in two accesses as it is in one. -/
theorem alone_interning {find? : Model → Option α} {intern : Model → α × Model}
    (h : ∀ m entity, find? m = some entity → intern m = (entity, m)) (s : Shared) :
    (interning find? intern).alone s =
      ((intern s.model).1, { s with model := (intern s.model).2 }) := by
  cases hfind : find? s.model with
  | some entity =>
    rw [h s.model entity hfind]
    simp only [interning, Task.alone, hfind]
    rfl
  | none =>
    simp only [interning, Task.alone, hfind]
    rfl

theorem alone_resolving (host context : String) (operation : QualifiedSignature) (s : Shared) :
    (resolving host context operation).alone s =
      ((s.model.resolve host context operation).1,
        { s with model := (s.model.resolve host context operation).2 }) := by
  have hcontainer := @alone_interning _ (·.containers.find? host) (·.internContainer host)
    fun m _ h => by rw [Model.internContainer, Registry.intern_of_find? h]
  have htype := @alone_interning _ (·.componentTypes.find? operation.owner)
    (·.internComponentType operation.owner)
    fun m _ h => by rw [Model.internComponentType, Registry.intern_of_find? h]
  have hoperation := fun type => @alone_interning _
    (·.operations.find? (Model.operationKey type operation.signature))
    (·.internOperation type operation.signature)
    fun m _ h => by rw [Model.internOperation, Registry.intern_of_find? h]
  have hassembly := fun type => @alone_interning _ (·.assemblies.find? context)
    (·.internAssembly context type)
    fun m _ h => by rw [Model.internAssembly, Registry.intern_of_find? h]
  have hallocation := fun assembly container => @alone_interning _
    (·.allocations.find? (Model.allocationKey assembly container))
    (·.internAllocation assembly container)
    fun m _ h => by rw [Model.internAllocation, Registry.intern_of_find? h]
  simp only [resolving, alone_bind, hcontainer, htype, hoperation, hassembly, hallocation]
  rfl

end Task

/-- A step that was taken with a shared model, as a tracker with a model of its own that it does not
use and what is left for the others. -/
def Step.parted (q : Step) (own : Model) (s : Shared) : Step × Shared :=
  (⟨{ q.tracker with model := own }, q.fault⟩, { s with model := q.tracker.model })

namespace Tracker
open Retrace.Task

/-- The tracker with a shared model. -/
def under (t : Tracker) (model : Model) : Tracker :=
  { t with model }

theorem alone_proceed {task : Task Step} {q : Step} {own : Model} {s : Shared}
    {next : Tracker → Task Step} {next' : Tracker → Step} (h : task.alone s = q.parted own s)
    (hnext : ∀ t s, (next t).alone s = (next' (t.under s.model)).parted t.model s) :
    (task >>= (·.proceed next)).alone s = (q.andThen next').parted own s := by
  rw [alone_bind, h]
  obtain ⟨u, fault⟩ := q
  cases fault with
  | none => exact hnext { u with model := own } { s with model := u.model }
  | some why => rfl

theorem alone_recording (i : Invocation) (t : Tracker) (s : Shared) :
    (t.recording i).alone s = ((t.under s.model).record i).parted t.model s := by
  have henroll : ∀ model e, ((t.under model).enroll e).parted t.model s =
      (t.enroll e, { s with model }) := by
    intro model e
    unfold enroll
    rw [show (t.under model).executions = t.executions from rfl]
    cases t.executions.add e <;> rfl
  unfold recording
  rw [alone_bind, alone_resolving]
  exact (henroll _ (i.execution t.trace t.matching s.model).1).symm

theorem alone_recordingAll (is : List Invocation) (t : Tracker) (s : Shared) :
    (t.recordingAll is).alone s = ((t.under s.model).recordAll is).parted t.model s := by
  induction is generalizing t s with
  | nil => rfl
  | cons i rest ih => exact alone_proceed (alone_recording i t s) ih

theorem alone_closingCalls (signature : String) (time : Int) (t : Tracker) (s : Shared) :
    (t.closingCalls signature time).alone s =
      ((t.under s.model).closeCalls signature time).parted t.model s := by
  unfold closingCalls closeCalls
  rw [show (t.under s.model).openEvents = t.openEvents from rfl,
    show (t.under s.model).slots = t.slots from rfl]
  cases callsDownTo signature t.openEvents t.slots with
  | found calls openEvents slots => exact alone_recordingAll _ { t with openEvents, slots } s
  | absent => rfl
  | missingSlot => rfl

theorem alone_opening (signature : String) (time : Int) (e : Event) (t : Tracker) (s : Shared) :
    (t.closingCalls signature time >>= (·.proceed fun t => pure ⟨t.pushOpen e, none⟩)).alone s =
      (((t.under s.model).closeCalls signature time).andThen fun t =>
        ⟨t.pushOpen e, none⟩).parted t.model s :=
  alone_proceed (alone_closingCalls signature time t s) fun _ _ => rfl

theorem alone_entering (kind : OperationKind) (stamp : Stamp) (operation : OperationRef)
    (t : Tracker) (s : Shared) :
    (t.entering kind stamp operation).alone s =
      ((t.under s.model).enter kind stamp operation).parted t.model s := by
  unfold entering enter
  rw [show (t.under s.model).announced? kind stamp operation =
    t.announced? kind stamp operation from rfl]
  cases t.announced? kind stamp operation with
  | none => exact alone_opening _ _ _ t s
  | some how =>
    obtain ⟨guesses, hnote⟩ := exists_guesses t.openEvents stamp operation how
    simp only [hnote t rfl, hnote (t.under s.model) rfl]
    rfl

theorem alone_closingInnermost (kind : OperationKind) (stamp : Stamp) (operation : OperationRef)
    (time : Int) (t : Tracker) (s : Shared) :
    (t.closingInnermost kind stamp operation time).alone s =
      ((t.under s.model).closeInnermost kind stamp operation time).parted t.model s := by
  unfold closingInnermost closeInnermost
  rw [show (t.under s.model).announced? kind stamp operation =
    t.announced? kind stamp operation from rfl]
  cases t.announced? kind stamp operation with
  | none =>
    simp only [show (t.under s.model).slots = t.slots from rfl]
    cases t.slots with
    | nil => rfl
    | cons slot slots => exact alone_recording _ { t with slots } s
  | some how =>
    obtain ⟨guesses, hnote⟩ := exists_guesses t.openEvents stamp operation how
    simp only [hnote t rfl, hnote (t.under s.model) rfl,
      show (t.under s.model).slots = t.slots from rfl]
    let taken := { t with openEvents := t.openEvents.tail, notices := t.notices ++ guesses }
    cases t.slots with
    | nil => rfl
    | cons slot slots => exact alone_recording _ { taken with slots } s

theorem alone_endingOperation (kind : OperationKind) (time : Int) (operation : OperationRef)
    (t : Tracker) (s : Shared) :
    (t.endingOperation kind time operation).alone s =
      ((t.under s.model).endOperation kind time operation).parted t.model s := by
  unfold endingOperation endOperation
  rw [show (t.under s.model).openEvents = t.openEvents from rfl]
  cases t.openEvents with
  | nil => rfl
  | cons d below =>
    cases d with
    | before openKind stamp opened =>
      by_cases hkind : openKind ≠ kind
      · simp only [if_pos hkind]
        rfl
      · by_cases hop : opened ≠ operation
        · simp only [if_neg hkind, if_pos hop]
          rfl
        · simp only [if_neg hkind, if_neg hop]
          exact alone_closingInnermost _ _ _ _ { t with openEvents := below } s
    | _ => rfl

theorem alone_leaving (kind : OperationKind) (time : Int) (operation : OperationRef) (t : Tracker)
    (s : Shared) :
    (t.leaving kind time operation).alone s =
      ((t.under s.model).leave kind time operation).parted t.model s :=
  alone_proceed (alone_closingCalls _ _ t s) fun t s => alone_endingOperation _ _ _ t s

theorem alone_stepping (e : Event) (t : Tracker) (s : Shared) :
    (t.stepping e).alone s = ((t.under s.model).step e).parted t.model s := by
  cases e with
  | call kind stamp caller callee => exact alone_opening _ _ _ t s
  | before kind stamp operation => exact alone_entering _ _ _ t s
  | after kind stamp operation => exact alone_leaving _ _ _ t s
  | afterFailed kind stamp operation cause => exact alone_leaving _ _ _ t s
  | split stamp => rfl
  | unknown name stamp => rfl

/-- What is fed alone leaves the shared model as the sequence of steps does, and counts each event
that is dropped. -/
theorem alone_feeding (es : List Event) (place : Nat) (t : Tracker) (s : Shared) :
    (t.feeding place es).alone s =
      (⟨{ ((t.under s.model).feed place s.tallies.dropped es).tracker with model := t.model },
          ((t.under s.model).feed place s.tallies.dropped es).fault⟩,
        ⟨((t.under s.model).feed place s.tallies.dropped es).tracker.model,
          { s.tallies with
            dropped := ((t.under s.model).feed place s.tallies.dropped es).dropped }⟩) := by
  induction es generalizing t s place with
  | nil => rfl
  | cons e rest ih =>
    unfold feed feeding
    rw [show (t.under s.model).trace = t.trace from rfl]
    cases checkSequence e t.trace.traceId place with
    | error why => exact ih (place + 1) (t.note _) s.countDrop
    | ok _ =>
      simp only
      rw [alone_bind, alone_stepping]
      cases hfault : ((t.under s.model).step e).fault with
      | none =>
        simp only [Step.parted, Step.proceed, hfault]
        exact ih (place + 1) { ((t.under s.model).step e).tracker with model := t.model } _
      | some fault =>
        simp only [Step.parted, Step.proceed, hfault]
        rfl

end Tracker

/-- Counting an outcome after the dropped events is counting both. -/
theorem countOutcome_eq (model : Model) (tallies : Tallies) (dropped : Nat) (outcome : Outcome) :
    Shared.countOutcome outcome ⟨model, { tallies with dropped := tallies.dropped + dropped }⟩ =
      ⟨model, tallies.count dropped outcome⟩ := by
  cases outcome <;> rfl

/-- A batch whose task is alone comes to what it comes to by itself, and leaves the same model and
the same tallies. -/
theorem alone_reconstructing (settings : Settings) (selection : Selection) (batch : Batch)
    (s : Shared) :
    (reconstructing settings selection batch).alone s =
      ((reconstruct settings selection s.model batch).outcome,
        ⟨(reconstruct settings selection s.model batch).model,
          s.tallies.count (reconstruct settings selection s.model batch).dropped
            (reconstruct settings selection s.model batch).outcome⟩) := by
  unfold reconstructing concluding reconstruct
  split
  · rw [alone_bind, alone_bind, Tracker.alone_feeding, Tracker.feed_eq,
      show (Tracker.start batch.trace settings.matching {}).under s.model =
        Tracker.start batch.trace settings.matching s.model from rfl]
    generalize (Tracker.start batch.trace settings.matching s.model).feed 0 0 batch.events =
      progress
    obtain ⟨u, dropped, fault⟩ := progress
    cases fault with
    | some fault => exact congrArg (Prod.mk _) (countOutcome_eq _ _ _ _)
    | none =>
      have houtcome : (u.under {}).finish.conclude.1 = u.finish.conclude.1 := by
        simp only [Tracker.under, Tracker.conclude, Tracker.finish_executions,
          Tracker.finish_trace]
      have hmodel : u.finish.model = u.model := by
        unfold Tracker.finish
        split <;> rfl
      simp only [hmodel]
      rw [← houtcome]
      exact congrArg (Prod.mk _) (countOutcome_eq _ _ _ _)
  · exact congrArg (Prod.mk _) (countOutcome_eq s.model s.tallies 0 _)

end Retrace
