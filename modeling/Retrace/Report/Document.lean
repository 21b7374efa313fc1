import Retrace.Reconstruction

/-! Reports for programs. A document lists what was reconstructed of each trace and sums up the
outcomes. Written as JSON, it leaves out what goes without saying: flags that are off, lists that
are empty, and the error of a trace that has none. Reading puts them back. -/

namespace Retrace.Report

structure ExecutionEntry where
  eoi : Int
  ess : Int
  host : String
  className : String
  operation : String
  entryTime : Int
  exitTime : Int
  assumed : Bool := false
  isConstructor : Bool := false
  deriving DecidableEq, Repr

structure MessageEntry where
  kind : String
  timestamp : Int
  /-- The `eoi` of the sender, -1 for the root execution. -/
  sender : Int
  receiver : Int
  deriving DecidableEq, Repr

structure TraceEntry where
  traceId : Int
  outcome : String
  error : Option String := none
  executions : List ExecutionEntry := []
  messages : List MessageEntry := []
  gaps : List Int := []
  deriving DecidableEq, Repr

structure Summary where
  total : Nat := 0
  succeeded : Nat := 0
  partly : Nat := 0
  failed : Nat := 0
  skipped : Nat := 0
  dropped : Nat := 0
  deriving DecidableEq, Repr

structure Document where
  version : String
  format : String
  traces : List TraceEntry := []
  summary : Summary := {}
  deriving DecidableEq, Repr

namespace ExecutionEntry

def ofExecution (e : Execution) : ExecutionEntry :=
  { eoi := e.eoi, ess := e.ess, host := e.host, className := e.className, operation := e.signature
    entryTime := e.entryTime, exitTime := e.exitTime, assumed := e.assumed
    isConstructor := e.isConstructor }

def toJson (e : ExecutionEntry) : Json :=
  .object ([("eoi", .int e.eoi), ("ess", .int e.ess), ("host", .str e.host),
      ("class", .str e.className), ("operation", .str e.operation),
      ("entry_time", .int e.entryTime), ("exit_time", .int e.exitTime)] ++
    (if e.assumed then [("assumed", .bool true)] else []) ++
    (if e.isConstructor then [("constructor", .bool true)] else []))

def put (e : ExecutionEntry) (name : String) (value : Json.Draft) :
    Except JsonFault ExecutionEntry :=
  if name = "eoi" then (value.signed 32).map fun n => { e with eoi := n }
  else if name = "ess" then (value.signed 32).map fun n => { e with ess := n }
  else if name = "host" then value.string.map fun s => { e with host := s }
  else if name = "class" then value.string.map fun s => { e with className := s }
  else if name = "operation" then value.string.map fun s => { e with operation := s }
  else if name = "entry_time" then (value.signed 64).map fun n => { e with entryTime := n }
  else if name = "exit_time" then (value.signed 64).map fun n => { e with exitTime := n }
  else if name = "assumed" then value.flag.map fun b => { e with assumed := b }
  else value.flag.map fun b => { e with isConstructor := b }

def shape : Json.RecordShape ExecutionEntry where
  names := ["eoi", "ess", "host", "class", "operation", "entry_time", "exit_time", "assumed",
    "constructor"]
  required := ["eoi", "ess", "host", "class", "operation", "entry_time", "exit_time"]
  least := 7
  blank := ⟨0, 0, "", "", "", 0, 0, false, false⟩
  put := put

end ExecutionEntry

namespace MessageEntry

def ofMessage (m : Message) : MessageEntry :=
  ⟨m.kind.name, m.timestamp, m.sender.eoi, m.receiver.eoi⟩

def toJson (m : MessageEntry) : Json :=
  .object [("kind", .str m.kind), ("timestamp", .int m.timestamp), ("sender", .int m.sender),
    ("receiver", .int m.receiver)]

def put (m : MessageEntry) (name : String) (value : Json.Draft) : Except JsonFault MessageEntry :=
  if name = "kind" then value.string.map fun s => { m with kind := s }
  else if name = "timestamp" then (value.signed 64).map fun n => { m with timestamp := n }
  else if name = "sender" then (value.signed 32).map fun n => { m with sender := n }
  else (value.signed 32).map fun n => { m with receiver := n }

def shape : Json.RecordShape MessageEntry where
  names := ["kind", "timestamp", "sender", "receiver"]
  required := ["kind", "timestamp", "sender", "receiver"]
  least := 4
  blank := ⟨"", 0, 0, 0⟩
  put := put

end MessageEntry

namespace TraceEntry

def ofOutcome (o : Outcome) : TraceEntry :=
  { traceId := o.traceId
    outcome := o.label
    error := o.fault?.map (·.reason)
    executions := (o.executions?.map fun t => t.executions.map .ofExecution).getD []
    messages := (o.messages?.map fun t => t.messages.map .ofMessage).getD []
    gaps := (o.executions?.map (·.gaps)).getD [] }

/-- A member that is left out if its list is empty. -/
def listMember (name : String) (items : List Json) : List (String × Json) :=
  if items.isEmpty then [] else [(name, .array items)]

def toJson (t : TraceEntry) : Json :=
  .object ([("trace_id", .int t.traceId), ("outcome", .str t.outcome)] ++
    (t.error.map fun e => ("error", Json.str e)).toList ++
    listMember "executions" (t.executions.map (·.toJson)) ++
    listMember "messages" (t.messages.map (·.toJson)) ++
    listMember "eoi_gaps" (t.gaps.map .int))

def put (t : TraceEntry) (name : String) (value : Json.Draft) : Except JsonFault TraceEntry :=
  if name = "trace_id" then (value.signed 64).map fun n => { t with traceId := n }
  else if name = "outcome" then value.string.map fun s => { t with outcome := s }
  else if name = "error" then (value.optional (·.string)).map fun s => { t with error := s }
  else if name = "executions" then
    (value.list ExecutionEntry.shape.read).map fun es => { t with executions := es }
  else if name = "messages" then
    (value.list MessageEntry.shape.read).map fun ms => { t with messages := ms }
  else (value.list (·.signed 32)).map fun ns => { t with gaps := ns }

def shape : Json.RecordShape TraceEntry where
  names := ["trace_id", "outcome", "error", "executions", "messages", "eoi_gaps"]
  required := ["trace_id", "outcome"]
  least := 3
  blank := { traceId := 0, outcome := "" }
  put := put

end TraceEntry

namespace Summary

def ofTallies (t : Tallies) : Summary :=
  ⟨t.total, t.succeeded, t.partly, t.failed, t.skipped, t.dropped⟩

def toJson (s : Summary) : Json :=
  .object [("total_traces", .int s.total), ("succeeded", .int s.succeeded),
    ("partial", .int s.partly), ("failed", .int s.failed), ("skipped", .int s.skipped),
    ("dropped_events", .int s.dropped)]

def put (s : Summary) (name : String) (value : Json.Draft) : Except JsonFault Summary :=
  (value.unsigned 64).map fun n =>
    if name = "total_traces" then { s with total := n }
    else if name = "succeeded" then { s with succeeded := n }
    else if name = "partial" then { s with partly := n }
    else if name = "failed" then { s with failed := n }
    else if name = "skipped" then { s with skipped := n }
    else { s with dropped := n }

def shape : Json.RecordShape Summary where
  names := ["total_traces", "succeeded", "partial", "failed", "skipped", "dropped_events"]
  required := ["total_traces", "succeeded", "partial", "failed", "skipped", "dropped_events"]
  least := 6
  blank := {}
  put := put

end Summary

/-- The version of the program that writes the document. -/
def programVersion : String := "0.1.0"

namespace Document

/-- The document of a reconstruction, with its traces or only their summary. -/
def ofReconstruction (r : Reconstruction) (withTraces : Bool) : Document :=
  { version := programVersion
    format := "flowtrace-json-v1"
    traces := if withTraces then r.outcomes.map .ofOutcome else []
    summary := .ofTallies r.tallies }

def toJson (d : Document) : Json :=
  .object [("version", .str d.version), ("format", .str d.format),
    ("traces", .array (d.traces.map (·.toJson))), ("summary", d.summary.toJson)]

def write (d : Document) : String :=
  d.toJson.pretty

def put (d : Document) (name : String) (value : Json.Draft) : Except JsonFault Document :=
  if name = "version" then value.string.map fun s => { d with version := s }
  else if name = "format" then value.string.map fun s => { d with format := s }
  else if name = "traces" then
    (value.list TraceEntry.shape.read).map fun ts => { d with traces := ts }
  else (Summary.shape.read value).map fun s => { d with summary := s }

def shape : Json.RecordShape Document where
  names := ["version", "format", "traces", "summary"]
  required := ["version", "format", "traces", "summary"]
  least := 4
  blank := { version := "", format := "" }
  put := put

def read (text : String) : Except JsonFault Document :=
  Json.decode shape.read text.toList

end Document

end Retrace.Report
