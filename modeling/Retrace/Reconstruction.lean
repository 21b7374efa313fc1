import Retrace.Selection
import Retrace.Tracker

/-! Reconstructing traces from batches. The events of a batch are numbered from zero. An event that
does not have its own place as its order index, or belongs to another trace, is dropped; the
numbering goes on with the place, so an event that is missing costs all that follow it. The first
fault ends a trace. A trace whose executions do not nest has executions but no messages.

Batches share the model of the system, and nothing else. -/

namespace Retrace

inductive Outcome where
  | success (traceId : Int) (executions : ExecutionTrace) (messages : MessageTrace)
  | partly (traceId : Int) (executions : ExecutionTrace) (fault : TraceFault)
  | failed (traceId : Int) (fault : TraceFault)
  | skipped (traceId : Int)
  deriving DecidableEq, Repr

namespace Outcome

def traceId : Outcome → Int
  | success traceId _ _ => traceId
  | partly traceId _ _ => traceId
  | failed traceId _ => traceId
  | skipped traceId => traceId

def executions? : Outcome → Option ExecutionTrace
  | success _ executions _ => some executions
  | partly _ executions _ => some executions
  | _ => none

def messages? : Outcome → Option MessageTrace
  | success _ _ messages => some messages
  | _ => none

def fault? : Outcome → Option TraceFault
  | partly _ _ fault => some fault
  | failed _ fault => some fault
  | _ => none

def isFailed : Outcome → Bool
  | failed .. => true
  | _ => false

def label : Outcome → String
  | success .. => "success"
  | partly .. => "partial"
  | failed .. => "failed"
  | skipped .. => "skipped"

end Outcome

/-- How many traces came to which outcome, and how many events were dropped. -/
structure Tallies where
  succeeded : Nat := 0
  partly : Nat := 0
  failed : Nat := 0
  skipped : Nat := 0
  dropped : Nat := 0
  deriving DecidableEq, Repr

namespace Tallies

def total (t : Tallies) : Nat :=
  t.succeeded + t.partly + t.failed + t.skipped

/-- Counts an outcome with the events that were dropped on the way to it. -/
def count (t : Tallies) (dropped : Nat) : Outcome → Tallies
  | .success .. => { t with succeeded := t.succeeded + 1, dropped := t.dropped + dropped }
  | .partly .. => { t with partly := t.partly + 1, dropped := t.dropped + dropped }
  | .failed .. => { t with failed := t.failed + 1, dropped := t.dropped + dropped }
  | .skipped .. => { t with skipped := t.skipped + 1, dropped := t.dropped + dropped }

end Tallies

/-- Is the event at its place, and in its trace? -/
def checkSequence (e : Event) (traceId expected : Int) : Except SequenceError Unit :=
  if e.orderIndex ≠ expected then .error (.wrongOrderIndex traceId e.orderIndex expected)
  else if e.traceId ≠ traceId then .error (.wrongTraceId e.traceId traceId)
  else .ok ()

/-- How far the events of a batch have brought a tracker. -/
structure Progress where
  tracker : Tracker
  dropped : Nat
  fault : Option TraceFault

namespace Tracker

/-- Takes in the events of a batch from a place on, dropping those out of sequence. -/
def feed (t : Tracker) (place : Nat) (dropped : Nat) : List Event → Progress
  | [] => ⟨t, dropped, none⟩
  | e :: rest =>
    match checkSequence e t.trace.traceId place with
    | .error why =>
      feed (t.note (.dropped t.trace.traceId e.orderIndex why)) (place + 1) (dropped + 1) rest
    | .ok () =>
      let s := t.step e
      match s.fault with
      | none => feed s.tracker (place + 1) dropped rest
      | some fault => ⟨s.tracker, dropped, some fault⟩

/-- The outcome of a trace at its end, and the notice that it gives rise to. -/
def conclude (t : Tracker) : Outcome × List Notice :=
  match t.executions.toMessages with
  | .ok messages => (.success t.trace.traceId t.executions messages, [])
  | .error why =>
    (.partly t.trace.traceId t.executions (.badNesting why),
      [.notConverted t.trace.traceId (.badNesting why)])

end Tracker

/-- What one batch came to. -/
structure BatchResult where
  outcome : Outcome
  dropped : Nat
  model : Model
  notices : List Notice

/-- Reconstructs one batch, with the entities of a model and new ones. -/
def reconstruct (settings : Settings) (selection : Selection) (model : Model) (batch : Batch) :
    BatchResult :=
  if selection.contains batch.traceId then
    let progress := (Tracker.start batch.trace settings.matching model).feed 0 0 batch.events
    match progress.fault with
    | some fault =>
      ⟨.failed batch.traceId fault, progress.dropped, progress.tracker.model,
        progress.tracker.notices ++ [.failed batch.traceId fault]⟩
    | none =>
      let t := progress.tracker.finish
      let (outcome, notices) := t.conclude
      ⟨outcome, progress.dropped, t.model, t.notices ++ notices⟩
  else ⟨.skipped batch.traceId, 0, model, [.notSelected batch.traceId]⟩

/-- What a list of batches came to, in their order. -/
structure Reconstruction where
  outcomes : List Outcome := []
  tallies : Tallies := {}
  model : Model := {}
  notices : List Notice := []
  deriving DecidableEq, Repr

namespace Reconstruction

/-- Reconstructs one more batch. -/
def extend (settings : Settings) (selection : Selection) (r : Reconstruction) (batch : Batch) :
    Reconstruction :=
  let result := reconstruct settings selection r.model batch
  { outcomes := r.outcomes ++ [result.outcome]
    tallies := r.tallies.count result.dropped result.outcome
    model := result.model
    notices := r.notices ++ result.notices }

def ofBatches (settings : Settings) (selection : Selection) (batches : List Batch) :
    Reconstruction :=
  batches.foldl (extend settings selection) {}

end Reconstruction

end Retrace
