import Retrace.Reconstruction

/-! Reports for people. The report of a trace is a line with its outcome, a line for each execution,
indented by its depth, a line for the places at which calls stayed unresolved, and a line for each
message if messages are wanted. -/

namespace Retrace.Report

/-- The executions' indentation: two spaces, and two more for each level of depth. -/
def indentation (ess : Int) : String :=
  String.ofList (List.replicate (2 * (ess.toNat + 1)) ' ')

def executionLine (e : Execution) : String :=
  s!"{indentation e.ess}[{e.eoi}] {e.host}::{e.component}  {e.signature}  " ++
    s!"{e.entryTime}..{e.exitTime}" ++ (if e.assumed then "  (assumed)" else "")

def gapLines (gaps : List Int) : List String :=
  if gaps.isEmpty then []
  else
    let places := ", ".intercalate (gaps.map toString)
    [s!"  unresolved calls at eoi [{places}]"]

def messageLine (m : Message) : String :=
  s!"  {m.render}"

/-- The lines of a trace that has executions. -/
def traceLines (o : Outcome) (executions : ExecutionTrace) (withMessages : Bool) : List String :=
  let messages := match o.messages? with
    | some t => t.messages
    | none => []
  [s!"trace {o.traceId}: {o.label} ({executions.size} executions, {messages.length} messages)"] ++
    (o.fault?.map fun fault => s!"  conversion failed: {fault.reason}").toList ++
    executions.executions.map executionLine ++
    gapLines executions.gaps ++
    if withMessages then messages.map messageLine else []

def lines (o : Outcome) (withMessages : Bool) : List String :=
  match o with
  | .skipped traceId => [s!"trace {traceId}: skipped"]
  | .failed traceId fault => [s!"trace {traceId}: failed: {fault.reason}"]
  | .success _ executions _ => traceLines o executions withMessages
  | .partly _ executions _ => traceLines o executions withMessages

/-- The lines of an outcome, each with its line end. -/
def text (o : Outcome) (withMessages : Bool) : String :=
  String.join ((lines o withMessages).map (· ++ "\n"))

def summary (t : Tallies) : String :=
  s!"{t.total} traces: {t.succeeded} succeeded, {t.partly} partial, {t.failed} failed, " ++
    s!"{t.skipped} skipped ({t.dropped} events dropped)"

end Retrace.Report
