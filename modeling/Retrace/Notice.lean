import Retrace.Fault

/-! Notices. While traces are reconstructed, what is guessed, dropped, ignored or given up is told,
at a level that says how much it matters, as a message with named details. -/

namespace Retrace

inductive Notice where
  | notSelected (traceId : Int)
  | guessedCall (traceId : Int) (callee before : String)
  | unhandled (traceId orderIndex : Int) (typeName : String)
  | leftOpen (traceId : Int) (count : Nat)
  | dropped (traceId orderIndex : Int) (why : SequenceError)
  | failed (traceId : Int) (fault : TraceFault)
  | notConverted (traceId : Int) (fault : TraceFault)
  deriving DecidableEq, Repr

namespace Notice

inductive Level where
  | debug
  | warn
  | error
  deriving DecidableEq, Repr

def Level.name : Level → String
  | debug => "DEBUG"
  | warn => "WARN"
  | error => "ERROR"

def level : Notice → Level
  | notSelected _ => .debug
  | guessedCall _ _ _ => .debug
  | unhandled _ _ _ => .warn
  | leftOpen _ _ => .debug
  | dropped _ _ _ => .error
  | failed _ _ => .error
  | notConverted _ _ => .warn

def message : Notice → String
  | notSelected _ => "trace not selected"
  | guessedCall _ _ _ => "guessed call"
  | unhandled _ _ typeName => s!"events of type '{typeName}' are currently not handled and ignored"
  | leftOpen _ _ => "trace ended with unresolved events"
  | dropped _ _ why => why.message
  | failed _ _ => "failed to reconstruct trace"
  | notConverted _ _ => "failed to convert to message trace"

/-- The named details besides the message. -/
def details : Notice → List (String × String)
  | notSelected traceId => [("trace_id", toString traceId)]
  | guessedCall traceId callee before =>
    [("trace_id", toString traceId), ("call", callee), ("before", before)]
  | unhandled traceId orderIndex _ =>
    [("trace_id", toString traceId), ("order_index", toString orderIndex)]
  | leftOpen traceId count => [("trace_id", toString traceId), ("open_events", toString count)]
  | dropped traceId orderIndex _ =>
    [("trace_id", toString traceId), ("order_index", toString orderIndex)]
  | failed traceId fault => [("trace_id", toString traceId), ("reason", fault.reason)]
  | notConverted traceId fault => [("trace_id", toString traceId), ("reason", fault.reason)]

end Notice

end Retrace
