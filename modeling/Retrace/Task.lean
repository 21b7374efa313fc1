import Retrace.Reconstruction

/-! Tasks. Traces that are reconstructed at the same time share the model of the system and the
tallies, and nothing else. What one of them does is a task: it computes by itself, and now and then
accesses what is shared, all at once. Between two accesses others may have changed it.

An entity is interned in two accesses. The first one looks for its name. Only if there is none the
second one interns it, and looks again, since somebody may have been faster. An event that is
dropped is counted when it is dropped, and an outcome when the trace is over. Everything else is
done as it is in a trace that is reconstructed alone; a tracker has no model of its own here. -/

namespace Retrace

/-- What is shared by traces that are reconstructed at the same time. -/
structure Shared where
  model : Model := {}
  tallies : Tallies := {}
  deriving DecidableEq, Repr

namespace Shared

def countDrop (s : Shared) : Shared :=
  { s with tallies.dropped := s.tallies.dropped + 1 }

def countOutcome (outcome : Outcome) (s : Shared) : Shared :=
  { s with tallies := s.tallies.count 0 outcome }

end Shared

inductive Task (α : Type) where
  | done (result : α)
  /-- Changes what is shared, and goes on knowing what it was before. -/
  | access (act : Shared → Shared) (next : Shared → Task α)

namespace Task

variable {α β : Type}

def bind : Task α → (α → Task β) → Task β
  | done result, next => next result
  | access act rest, next => access act fun s => (rest s).bind next

instance : Monad Task where
  pure := done
  bind := bind

/-- What a task comes to, and what it leaves behind, if nobody else accesses what is shared. -/
def alone : Task α → Shared → α × Shared
  | done result, s => (result, s)
  | access act next, s => (next s).alone (act s)

/-- The entity that is found, or else interned. -/
def interning (find? : Model → Option α) (intern : Model → α × Model) : Task α :=
  access id fun s =>
    match find? s.model with
    | some entity => done entity
    | none => access (fun s => { s with model := (intern s.model).2 }) fun s =>
      done (intern s.model).1

/-- `Model.resolve` as a task. -/
def resolving (host context : String) (operation : QualifiedSignature) : Task Model.Resolved := do
  let container ← interning (·.containers.find? host) (·.internContainer host)
  let type ← interning (·.componentTypes.find? operation.owner)
    (·.internComponentType operation.owner)
  let operation ← interning (·.operations.find? (Model.operationKey type operation.signature))
    (·.internOperation type operation.signature)
  let assembly ← interning (·.assemblies.find? context) (·.internAssembly context type)
  let allocation ← interning (·.allocations.find? (Model.allocationKey assembly container))
    (·.internAllocation assembly container)
  return ⟨allocation, operation⟩

end Task

/-- Goes on with a task unless there is a fault. -/
def Step.proceed (s : Step) (next : Tracker → Task Step) : Task Step :=
  match s.fault with
  | none => next s.tracker
  | some _ => return s

/-- The execution of an ended invocation, with what it refers to. -/
def Invocation.executed (i : Invocation) (trace : TraceInfo) (resolved : Model.Resolved) :
    Execution where
  allocation := resolved.allocation
  operation := resolved.operation
  traceId := trace.traceId
  sessionId := trace.sessionId
  eoi := i.slot.eoi
  ess := i.slot.ess
  entryTime := i.entryTime
  exitTime := i.exitTime
  assumed := i.assumed
  isConstructor := i.kind = .constructor

namespace Tracker

/-- Adds an execution to those of the trace. -/
def enroll (t : Tracker) (e : Execution) : Step :=
  match t.executions.add e with
  | .ok executions => ⟨{ t with executions }, none⟩
  | .error why => ⟨t, some (.rejected why)⟩

/-- `record` as a task. -/
def recording (t : Tracker) (i : Invocation) : Task Step := do
  let operation := QualifiedSignature.parse i.operation.signature
    (i.kind = .constructor ∧ t.matching.normaliseConstructors)
  let context := if i.operation.owner.isEmpty then operation.owner else i.operation.owner
  let resolved ← Task.resolving t.trace.hostname context operation
  return t.enroll (i.executed t.trace resolved)

/-- `recordAll` as a task. -/
def recordingAll (t : Tracker) : List Invocation → Task Step
  | [] => return ⟨t, none⟩
  | i :: rest => do
    let s ← t.recording i
    s.proceed (recordingAll · rest)

/-- `closeCalls` as a task. -/
def closingCalls (t : Tracker) (signature : String) (time : Int) : Task Step :=
  match callsDownTo signature t.openEvents t.slots with
  | .found calls openEvents slots =>
    recordingAll { t with openEvents, slots } (calls.map (·.assumedUntil time))
  | .absent => return ⟨t, none⟩
  | .missingSlot => return ⟨t, some .missingSlot⟩

/-- `enter` as a task. -/
def entering (t : Tracker) (kind : OperationKind) (stamp : Stamp) (operation : OperationRef) :
    Task Step :=
  let e := Event.before kind stamp operation
  match t.announced? kind stamp operation with
  | some how =>
    let t := t.noteGuess stamp operation how
    return ⟨{ t with openEvents := e :: t.openEvents }, none⟩
  | none => do
    let s ← t.closingCalls operation.signature stamp.timestamp
    s.proceed fun t => return ⟨t.pushOpen e, none⟩

/-- `closeInnermost` as a task. -/
def closingInnermost (t : Tracker) (kind : OperationKind) (stamp : Stamp) (operation : OperationRef)
    (time : Int) : Task Step :=
  let how := t.announced? kind stamp operation
  let definite := t.openEvents.isEmpty || how.isSome
  let t := match how with
    | some how =>
      let t := t.noteGuess stamp operation how
      { t with openEvents := t.openEvents.tail }
    | none => t
  match t.slots with
  | [] => return ⟨t, some .missingSlot⟩
  | slot :: slots =>
    recording { t with slots } ⟨kind, operation, slot, stamp.timestamp, time, !definite⟩

/-- `endOperation` as a task. -/
def endingOperation (t : Tracker) (kind : OperationKind) (time : Int) (operation : OperationRef) :
    Task Step :=
  match t.openEvents with
  | .before openKind stamp opened :: below =>
    if openKind ≠ kind then
      return ⟨t, some (.unopened kind operation.signature (t.openEvents.head?.map Event.typeName))⟩
    else if opened ≠ operation then return ⟨t, some (.mismatched opened operation)⟩
    else closingInnermost { t with openEvents := below } kind stamp opened time
  | openEvents =>
    return ⟨t, some (.unopened kind operation.signature (openEvents.head?.map Event.typeName))⟩

/-- `leave` as a task. -/
def leaving (t : Tracker) (kind : OperationKind) (time : Int) (operation : OperationRef) :
    Task Step := do
  let s ← t.closingCalls operation.signature time
  s.proceed (·.endingOperation kind time operation)

/-- `step` as a task. -/
def stepping (t : Tracker) (e : Event) : Task Step :=
  match e with
  | .call _ stamp caller _ => do
    let s ← t.closingCalls caller.signature stamp.timestamp
    s.proceed fun t => return ⟨t.pushOpen e, none⟩
  | .before kind stamp operation => t.entering kind stamp operation
  | .after kind stamp operation => t.leaving kind stamp.timestamp operation
  | .afterFailed kind stamp operation _ => t.leaving kind stamp.timestamp operation
  | .split stamp => return ⟨t.note (.unhandled stamp.traceId stamp.orderIndex e.typeName), none⟩
  | .unknown _ stamp => return ⟨t.note (.unhandled stamp.traceId stamp.orderIndex e.typeName), none⟩

/-- `feed` as a task. -/
def feeding (t : Tracker) (place : Nat) : List Event → Task Step
  | [] => return ⟨t, none⟩
  | e :: rest =>
    match checkSequence e t.trace.traceId place with
    | .error why => .access Shared.countDrop fun _ =>
      feeding (t.note (.dropped t.trace.traceId e.orderIndex why)) (place + 1) rest
    | .ok () => do
      let s ← t.stepping e
      s.proceed (feeding · (place + 1) rest)

end Tracker

/-- The outcome of a batch as a task. -/
def concluding (settings : Settings) (selection : Selection) (batch : Batch) : Task Outcome :=
  if selection.contains batch.traceId then do
    let s ← (Tracker.start batch.trace settings.matching {}).feeding 0 batch.events
    return match s.fault with
      | some fault => .failed batch.traceId fault
      | none => s.tracker.finish.conclude.1
  else return .skipped batch.traceId

/-- `reconstruct` as a task. -/
def reconstructing (settings : Settings) (selection : Selection) (batch : Batch) :
    Task Outcome := do
  let outcome ← concluding settings selection batch
  .access (Shared.countOutcome outcome) fun _ => .done outcome

end Retrace
