import Retrace.Decimal
import Retrace.Model

/-! Executions, and the traces that they make up. An execution is one invocation of an operation:
where and when it ran, its rank among the trace's invocations in the order in which they opened
(`eoi`), and how many were open when it opened (`ess`). It is assumed if its beginning or end was
inferred and not observed.

An execution trace keeps its executions in ascending `eoi`. Inner invocations end before the ones
around them, so executions arrive in any order. `add` refuses an execution of another trace, one
that ends before it begins, and one whose `eoi` is taken. -/

namespace Retrace

structure Execution where
  allocation : Allocation
  operation : Operation
  traceId : Int
  sessionId : String
  eoi : Int
  ess : Int
  entryTime : Int
  exitTime : Int
  assumed : Bool := false
  isConstructor : Bool := false
  deriving DecidableEq, Repr

namespace Execution

/-- The caller of every execution that no recorded execution calls. -/
def root (traceId : Int) (sessionId : String) : Execution :=
  { allocation := Model.rootAllocation, operation := Model.rootOperation, traceId, sessionId
    eoi := -1, ess := -1, entryTime := -1, exitTime := -1 }

def isRoot (e : Execution) : Bool :=
  e.eoi == -1 && e.operation.signature.name == Model.rootName

def host (e : Execution) : String :=
  e.allocation.container.name

/-- The context that the execution ran in. -/
def component (e : Execution) : String :=
  e.allocation.assembly.name

def className (e : Execution) : String :=
  e.operation.componentType.fullName

def operationName (e : Execution) : String :=
  e.operation.signature.name

def signature (e : Execution) : String :=
  e.operation.signature.render

/-- The time from entry to exit. It is kept in 64 bits, as the times are, and wraps around if it does
not fit. -/
def duration (e : Execution) : Int :=
  wrapSigned 64 (e.exitTime - e.entryTime)

def render (e : Execution) : String :=
  s!"<{e.host}::{e.component}.{e.operationName}> eoi={e.eoi} ess={e.ess} " ++
    s!"[{e.entryTime}, {e.exitTime}]" ++ (if e.assumed then " (assumed)" else "")

end Execution

/-- Why an execution is not added to a trace. -/
inductive Rejection where
  | foreign (execution : Execution)
  | backwards (execution : Execution)
  | occupied (eoi : Int)
  deriving DecidableEq, Repr

namespace Rejection

def reason : Rejection → String
  | foreign e => s!"execution {e.render} belongs to trace {e.traceId}"
  | backwards e => s!"execution {e.render} exits before it enters"
  | occupied eoi => s!"trace already contains an execution with eoi {eoi}"

end Rejection

structure ExecutionTrace where
  traceId : Int
  sessionId : String
  executions : List Execution := []
  deriving DecidableEq, Repr

namespace ExecutionTrace

/-- Puts an execution before the first one of a larger `eoi`. -/
def insert (e : Execution) : List Execution → List Execution
  | [] => [e]
  | d :: rest => if e.eoi < d.eoi then e :: d :: rest else d :: insert e rest

def get? (t : ExecutionTrace) (eoi : Int) : Option Execution :=
  t.executions.find? (·.eoi == eoi)

def add (t : ExecutionTrace) (e : Execution) : Except Rejection ExecutionTrace :=
  if e.traceId ≠ t.traceId then .error (.foreign e)
  else if e.exitTime < e.entryTime then .error (.backwards e)
  else if (t.get? e.eoi).isSome then .error (.occupied e.eoi)
  else .ok { t with executions := insert e t.executions }

def size (t : ExecutionTrace) : Nat :=
  t.executions.length

def isEmpty (t : ExecutionTrace) : Bool :=
  t.executions.isEmpty

def maxEss? (t : ExecutionTrace) : Option Int :=
  (t.executions.map (·.ess)).max?

def minEntryTime? (t : ExecutionTrace) : Option Int :=
  (t.executions.map (·.entryTime)).min?

def maxExitTime? (t : ExecutionTrace) : Option Int :=
  (t.executions.map (·.exitTime)).max?

/-- The time from the first entry to the last exit, zero without executions. It is kept in 64 bits as
well. -/
def duration (t : ExecutionTrace) : Int :=
  match t.minEntryTime?, t.maxExitTime? with
  | some first, some last => wrapSigned 64 (last - first)
  | _, _ => 0

/-- The places from zero below the largest `eoi` at which no execution was recorded. -/
def gaps (t : ExecutionTrace) : List Int :=
  match t.executions.getLast? with
  | none => []
  | some last =>
    ((List.range last.eoi.toNat).map Int.ofNat).filter fun eoi => (t.get? eoi).isNone

end ExecutionTrace

end Retrace
