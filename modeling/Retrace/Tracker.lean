import Retrace.Batch
import Retrace.Notice
import Retrace.Settings

/-! Following one trace from event to event. A tracker keeps the events that still wait for their
end, call markers and beginnings of operations, and a slot for each invocation that they opened;
both lists have the innermost one first. A beginning that its call marker announced shares the
marker's slot, every other open event has a slot of its own.

When the caller goes on after a call marker, the callee has not been observed. All markers above and
including the caller's own are then closed as assumed executions of their callees, oldest first,
which end at the event that made the caller known. An operation whose beginning no marker announced
is recorded as assumed, unless nothing is open around it. Markers that are open when the trace ends
are forgotten. -/

namespace Retrace

/-- Rank in opening order, and depth, of an open invocation. -/
structure Slot where
  eoi : Nat
  ess : Nat
  deriving DecidableEq, Repr

/-- How a call marker announces an operation. -/
inductive CallMatch where
  | exact
  | guessed
  deriving DecidableEq, Repr

namespace Matching

/-- Does the event announce the operation whose beginning is given? It has to be a call marker of
the same kind right before it, and name the operation exactly or, if calls are guessed, on the same
class with an equal signature. -/
def announces? (m : Matching) (previous : Event) (kind : OperationKind) (stamp : Stamp)
    (operation : OperationRef) : Option CallMatch :=
  match previous with
  | .call callKind callStamp _ callee =>
    if callKind ≠ kind ∨ callStamp.orderIndex + 1 ≠ stamp.orderIndex then none
    else if callee = operation then some .exact
    else if m.guessCalls ∧
        signaturesAgree callee.signature callee.owner operation.signature operation.owner
          (kind = .constructor ∧ m.normaliseConstructors) then some .guessed
    else none
  | _ => none

end Matching

/-- An open call marker with its slot. -/
structure OpenCall where
  kind : OperationKind
  stamp : Stamp
  callee : OperationRef
  slot : Slot
  deriving DecidableEq, Repr

/-- An invocation that has ended. -/
structure Invocation where
  kind : OperationKind
  operation : OperationRef
  slot : Slot
  entryTime : Int
  exitTime : Int
  assumed : Bool
  deriving DecidableEq, Repr

namespace OpenCall

/-- The execution of the callee that is assumed when the caller goes on. -/
def assumedUntil (time : Int) (c : OpenCall) : Invocation :=
  ⟨c.kind, c.callee, c.slot, c.stamp.timestamp, time, true⟩

end OpenCall

/-- The call markers on top of the open events down to the first one issued by an operation. -/
inductive CallRun where
  /-- The markers, oldest first, and what is open below them. -/
  | found (calls : List OpenCall) (openEvents : List Event) (slots : List Slot)
  /-- No marker on top was issued by the operation. -/
  | absent
  /-- The slots run out first. -/
  | missingSlot
  deriving DecidableEq, Repr

/-- Goes down the call markers on top to the first one issued by an operation of this signature. -/
def callsDownTo (signature : String) : List Event → List Slot → CallRun
  | .call kind stamp caller callee :: below, slots =>
    match slots with
    | [] => .missingSlot
    | slot :: slotsBelow =>
      if caller.signature = signature then .found [⟨kind, stamp, callee, slot⟩] below slotsBelow
      else
        match callsDownTo signature below slotsBelow with
        | .found calls openEvents slots =>
          .found (calls ++ [⟨kind, stamp, callee, slot⟩]) openEvents slots
        | .absent => .absent
        | .missingSlot => .missingSlot
  | _, _ => .absent

structure Tracker where
  trace : TraceInfo
  matching : Matching
  executions : ExecutionTrace
  openEvents : List Event := []
  slots : List Slot := []
  nextEoi : Nat := 0
  model : Model := {}
  notices : List Notice := []
  deriving DecidableEq, Repr

/-- The tracker that an event leaves behind, and what is wrong with the trace if the event shows it.
A tracker is not used after a fault. -/
structure Step where
  tracker : Tracker
  fault : Option TraceFault := none

namespace Step

def andThen (s : Step) (next : Tracker → Step) : Step :=
  match s.fault with
  | none => next s.tracker
  | some _ => s

end Step

namespace Tracker

def start (trace : TraceInfo) (matching : Matching) (model : Model) : Tracker :=
  { trace, matching, model, executions := ⟨trace.traceId, trace.sessionId, []⟩ }

def note (t : Tracker) (notice : Notice) : Tracker :=
  { t with notices := t.notices ++ [notice] }

/-- Records an ended invocation. Its context is the class that the probe named, or the one in its
signature if the probe named none. -/
def record (t : Tracker) (i : Invocation) : Step :=
  let operation := QualifiedSignature.parse i.operation.signature
    (i.kind = .constructor ∧ t.matching.normaliseConstructors)
  let context := if i.operation.owner.isEmpty then operation.owner else i.operation.owner
  let (resolved, model) := t.model.resolve t.trace.hostname context operation
  let execution : Execution :=
    { allocation := resolved.allocation
      operation := resolved.operation
      traceId := t.trace.traceId
      sessionId := t.trace.sessionId
      eoi := i.slot.eoi
      ess := i.slot.ess
      entryTime := i.entryTime
      exitTime := i.exitTime
      assumed := i.assumed
      isConstructor := i.kind = .constructor }
  match t.executions.add execution with
  | .ok executions => ⟨{ t with model, executions }, none⟩
  | .error why => ⟨{ t with model }, some (.rejected why)⟩

def recordAll (t : Tracker) : List Invocation → Step
  | [] => ⟨t, none⟩
  | i :: rest => (t.record i).andThen (recordAll · rest)

/-- Closes the call markers above and including the topmost one issued by an operation of this
signature. Without such a marker nothing happens. -/
def closeCalls (t : Tracker) (signature : String) (time : Int) : Step :=
  match callsDownTo signature t.openEvents t.slots with
  | .found calls openEvents slots =>
    recordAll { t with openEvents, slots } (calls.map (·.assumedUntil time))
  | .absent => ⟨t, none⟩
  | .missingSlot => ⟨t, some .missingSlot⟩

/-- Opens an event with a slot of its own. -/
def pushOpen (t : Tracker) (e : Event) : Tracker :=
  { t with
    openEvents := e :: t.openEvents
    slots := ⟨t.nextEoi, t.slots.length⟩ :: t.slots
    nextEoi := t.nextEoi + 1 }

/-- How the innermost open event announces an operation, if it does. -/
def announced? (t : Tracker) (kind : OperationKind) (stamp : Stamp) (operation : OperationRef) :
    Option CallMatch :=
  t.openEvents.head?.bind fun e => t.matching.announces? e kind stamp operation

/-- Notes that the innermost open event is taken to call an operation, if that was a guess. -/
def noteGuess (t : Tracker) (stamp : Stamp) (operation : OperationRef) : CallMatch → Tracker
  | .exact => t
  | .guessed =>
    match t.openEvents.head?.bind Event.callee? with
    | some callee => t.note (.guessedCall stamp.traceId callee.signature operation.signature)
    | none => t

def enter (t : Tracker) (kind : OperationKind) (stamp : Stamp) (operation : OperationRef) : Step :=
  let e := Event.before kind stamp operation
  match t.announced? kind stamp operation with
  | some how =>
    let t := t.noteGuess stamp operation how
    ⟨{ t with openEvents := e :: t.openEvents }, none⟩
  | none =>
    (t.closeCalls operation.signature stamp.timestamp).andThen fun t => ⟨t.pushOpen e, none⟩

/-- Ends the innermost open operation, whose beginning has just been taken off the open events. Its
call marker goes with it. -/
def closeInnermost (t : Tracker) (kind : OperationKind) (stamp : Stamp) (operation : OperationRef)
    (time : Int) : Step :=
  let how := t.announced? kind stamp operation
  let definite := t.openEvents.isEmpty || how.isSome
  let t := match how with
    | some how =>
      let t := t.noteGuess stamp operation how
      { t with openEvents := t.openEvents.tail }
    | none => t
  match t.slots with
  | [] => ⟨t, some .missingSlot⟩
  | slot :: slots =>
    record { t with slots } ⟨kind, operation, slot, stamp.timestamp, time, !definite⟩

/-- Ends an operation at the innermost open event, which has to be its beginning. -/
def endOperation (t : Tracker) (kind : OperationKind) (time : Int) (operation : OperationRef) :
    Step :=
  match t.openEvents with
  | .before openKind stamp opened :: below =>
    if openKind ≠ kind then
      ⟨t, some (.unopened kind operation.signature (t.openEvents.head?.map Event.typeName))⟩
    else if opened ≠ operation then ⟨t, some (.mismatched opened operation)⟩
    else closeInnermost { t with openEvents := below } kind stamp opened time
  | openEvents =>
    ⟨t, some (.unopened kind operation.signature (openEvents.head?.map Event.typeName))⟩

def leave (t : Tracker) (kind : OperationKind) (time : Int) (operation : OperationRef) : Step :=
  (t.closeCalls operation.signature time).andThen (·.endOperation kind time operation)

/-- Takes in the next event. -/
def step (t : Tracker) (e : Event) : Step :=
  match e with
  | .call _ stamp caller _ =>
    (t.closeCalls caller.signature stamp.timestamp).andThen fun t => ⟨t.pushOpen e, none⟩
  | .before kind stamp operation => t.enter kind stamp operation
  | .after kind stamp operation => t.leave kind stamp.timestamp operation
  | .afterFailed kind stamp operation _ => t.leave kind stamp.timestamp operation
  | .split stamp => ⟨t.note (.unhandled stamp.traceId stamp.orderIndex e.typeName), none⟩
  | .unknown _ stamp => ⟨t.note (.unhandled stamp.traceId stamp.orderIndex e.typeName), none⟩

/-- Takes in events up to the first one that shows a fault. -/
def run (t : Tracker) : List Event → Step
  | [] => ⟨t, none⟩
  | e :: rest => (t.step e).andThen (run · rest)

/-- The tracker at the end of its trace: what is still open is forgotten. -/
def finish (t : Tracker) : Tracker :=
  if t.openEvents.isEmpty then t
  else t.note (.leftOpen t.trace.traceId t.openEvents.length)

end Tracker

end Retrace
