import Retrace.Event
import Retrace.Json.Printer
import Retrace.Json.Record
import Retrace.Text.Cut

/-! Batches. A batch is one trace as it was delivered: what its events share, and the events in the
order in which they arrived. Batches are written as JSON, all of them in one array or each on a line
of its own, with blank lines between them or not. -/

namespace Retrace

structure TraceInfo where
  traceId : Int
  threadId : Int := 0
  sessionId : String := ""
  hostname : String := ""
  parentTraceId : Option Int := none
  parentOrderId : Option Int := none
  deriving DecidableEq, Repr

namespace TraceInfo

def put (info : TraceInfo) (name : String) (value : Json.Draft) : Except JsonFault TraceInfo :=
  if name = "trace_id" then (value.signed 64).map fun n => { info with traceId := n }
  else if name = "thread_id" then (value.signed 64).map fun n => { info with threadId := n }
  else if name = "session_id" then value.string.map fun s => { info with sessionId := s }
  else if name = "hostname" then value.string.map fun s => { info with hostname := s }
  else if name = "parent_trace_id" then
    (value.optional (·.signed 64)).map fun n => { info with parentTraceId := n }
  else (value.optional (·.signed 32)).map fun n => { info with parentOrderId := n }

def shape : Json.RecordShape TraceInfo where
  names := ["trace_id", "thread_id", "session_id", "hostname", "parent_trace_id",
    "parent_order_id"]
  required := ["trace_id"]
  least := 1
  blank := { traceId := 0 }
  put := put

/-- Parents that a trace does not have are left out. -/
def toJson (info : TraceInfo) : Json :=
  .object ([("trace_id", .int info.traceId), ("thread_id", .int info.threadId),
      ("session_id", .str info.sessionId), ("hostname", .str info.hostname)] ++
    (info.parentTraceId.map fun n => ("parent_trace_id", Json.int n)).toList ++
    (info.parentOrderId.map fun n => ("parent_order_id", Json.int n)).toList)

end TraceInfo

structure Batch where
  trace : TraceInfo
  events : List Event := []
  deriving DecidableEq, Repr

/-- Why a text holds no batches. -/
inductive BatchError where
  | array (fault : JsonFault)
  | line (number : Nat) (fault : JsonFault)
  deriving DecidableEq, Repr

namespace BatchError

def message : BatchError → String
  | array _ => "Failed to parse JSON array of traces"
  | line number _ => s!"Failed to parse trace on line {number}"

def fault : BatchError → JsonFault
  | array fault => fault
  | line _ fault => fault

end BatchError

namespace Batch

def traceId (b : Batch) : Int := b.trace.traceId

/-- Reads events, all of them as values first. -/
def readEvents (room : Nat) (value : Json.Draft) : Except JsonFault (List Event) :=
  match value.list (·.value room) with
  | .error fault => .error fault
  | .ok values =>
    match values.mapM Event.ofJson? with
    | some events => .ok events
    | none => .error .mismatched

def put (room : Nat) (batch : Batch) (name : String) (value : Json.Draft) :
    Except JsonFault Batch :=
  if name = "trace" then (TraceInfo.shape.read value).map fun t => { batch with trace := t }
  else (readEvents (room - 2) value).map fun es => { batch with events := es }

/-- A batch, which with the values in it may be nested as deep as `room` says. -/
def shape (room : Nat) : Json.RecordShape Batch where
  names := ["trace", "events"]
  required := ["trace"]
  least := 1
  blank := { trace := { traceId := 0 } }
  put := put room

/-- The batches on numbered lines. -/
def readLines : List (List Char × Nat) → Except BatchError (List Batch)
  | [] => .ok []
  | (line, number) :: rest =>
    if Text.allBlank line then readLines rest
    else
      match Json.decode (shape Json.maxDepth).read line with
      | .error fault => .error (.line number fault)
      | .ok batch => (readLines rest).map (batch :: ·)

/-- Text whose first character that is not blank is a bracket is read as an array. -/
def readAll (content : String) : Except BatchError (List Batch) :=
  if (Text.trimStart content.toList).head? = some '[' then
    match Json.decode (·.list (shape (Json.maxDepth - 1)).read) content.toList with
    | .error fault => .error (.array fault)
    | .ok batches => .ok batches
  else readLines ((Text.lines content.toList).zipIdx 1)

/-- A batch with an event of an unknown type cannot be written. -/
def toJson? (b : Batch) : Option Json :=
  (b.events.mapM Event.toJson?).map fun events =>
    .object [("trace", b.trace.toJson), ("events", .array events)]

/-- The batch on one line. -/
def write? (b : Batch) : Option String :=
  b.toJson?.map Json.compact

end Batch

end Retrace
