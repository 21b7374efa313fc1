import Retrace.Execution

/-! Messages. An execution trace tells who called whom: walking it by `eoi` with the executions that
are still open, an execution first answers for all open ones that are as deep as it or deeper, and
is then called by the innermost one that is left, or by the root execution if none is. Every call is
answered once, to its sender. The walk fails at an execution that is not exactly one deeper than its
caller. -/

namespace Retrace

inductive MessageKind where
  | call
  | reply
  deriving DecidableEq, Repr

namespace MessageKind

def name : MessageKind → String
  | call => "call"
  | reply => "reply"

end MessageKind

structure Message where
  kind : MessageKind
  timestamp : Int
  sender : Execution
  receiver : Execution
  deriving DecidableEq, Repr

namespace Message

def isCall (m : Message) : Bool :=
  m.kind == .call

def render (m : Message) : String :=
  s!"{m.kind.name} {m.sender.component}.{m.sender.operationName} -> " ++
    s!"{m.receiver.component}.{m.receiver.operationName} @ {m.timestamp}"

end Message

structure MessageTrace where
  traceId : Int
  sessionId : String
  messages : List Message
  deriving DecidableEq, Repr

namespace MessageTrace

def calls (t : MessageTrace) : List Message :=
  t.messages.filter (·.isCall)

end MessageTrace

/-- An execution that is not one deeper than the execution that would have called it. -/
structure NestingFault where
  execution : Execution
  callerEss : Int
  deriving DecidableEq, Repr

namespace NestingFault

def reason (f : NestingFault) : String :=
  s!"execution {f.execution.render} has ess {f.execution.ess} but its caller has ess {f.callerEss}"

end NestingFault

namespace ExecutionTrace

/-- The caller of an execution under the open ones, innermost first. -/
def callerOf (root : Execution) (openOnes : List Execution) : Execution :=
  openOnes.head?.getD root

/-- Replies of the open executions that are at least as deep as `ess`, and those still open. -/
def settle (root : Execution) (ess : Int) : List Execution → List Message × List Execution
  | [] => ([], [])
  | top :: below =>
    if top.ess < ess then ([], top :: below)
    else
      let (replies, left) := settle root ess below
      (⟨.reply, top.exitTime, top, callerOf root below⟩ :: replies, left)

/-- Replies of all the open executions. -/
def settleAll (root : Execution) : List Execution → List Message
  | [] => []
  | top :: below => ⟨.reply, top.exitTime, top, callerOf root below⟩ :: settleAll root below

/-- The messages from the next execution on, under the open ones. -/
def exchange (root : Execution) (openOnes : List Execution) :
    List Execution → Except NestingFault (List Message)
  | [] => .ok (settleAll root openOnes)
  | e :: rest =>
    let (replies, left) := settle root e.ess openOnes
    let caller := callerOf root left
    if caller.ess = e.ess - 1 then
      (exchange root (e :: left) rest).map fun later =>
        replies ++ ⟨.call, e.entryTime, caller, e⟩ :: later
    else .error ⟨e, caller.ess⟩

def toMessages (t : ExecutionTrace) : Except NestingFault MessageTrace :=
  (exchange (Execution.root t.traceId t.sessionId) [] t.executions).map fun messages =>
    ⟨t.traceId, t.sessionId, messages⟩

end ExecutionTrace

end Retrace
