import Retrace.Event
import Retrace.Message

/-! What can be wrong with a trace. A sequence error concerns one event, which is then dropped. A
trace fault concerns the whole trace: its events do not nest, or what was reconstructed of it cannot
be turned into messages. -/

namespace Retrace

/-- Why an event is not at its place. -/
inductive SequenceError where
  | wrongOrderIndex (traceId found expected : Int)
  | wrongTraceId (found expected : Int)
  deriving DecidableEq, Repr

namespace SequenceError

def message : SequenceError → String
  | wrongOrderIndex traceId found expected =>
    s!"trace {traceId}: found event with wrong order index {found}, expected {expected}"
  | wrongTraceId found expected =>
    s!"found event with wrong trace id {found}, expected {expected}"

end SequenceError

inductive TraceFault where
  /-- An operation ends whose beginning is not the innermost open event; that is of another type, or
  there is none. -/
  | unopened (kind : OperationKind) (signature : String) (found : Option String)
  /-- The innermost open event is the beginning of another operation. -/
  | mismatched (before after : OperationRef)
  /-- An open event has no slot left. -/
  | missingSlot
  /-- An execution cannot be recorded. -/
  | rejected (why : Rejection)
  /-- An execution is not one deeper than its caller. -/
  | badNesting (why : NestingFault)
  deriving DecidableEq, Repr

namespace TraceFault

def reason : TraceFault → String
  | unopened kind signature found =>
    let innermost := found.getD "nothing"
    s!"missing matching before-event for after-event of {kind.name} '{signature}' " ++
      s!"(found: {innermost})"
  | mismatched before after =>
    s!"components of before ('{before.signature}' in '{before.owner}') and after " ++
      s!"('{after.signature}' in '{after.owner}') events do not match"
  | missingSlot => "execution stack is out of sync"
  | rejected why => s!"failed to add execution to trace: {why.reason}"
  | badNesting why => why.reason

end TraceFault

/-- The full message of a reason for which a trace is invalid. -/
def invalidTrace (traceId : Int) (reason : String) : String :=
  s!"invalid trace {traceId}: {reason}"

end Retrace
