import Retrace.Reconstruction

/-! Likeness. Which entities an execution refers to depends on what the model held when it was
recorded. Everything else about a trace does not: with the entities taken out, what is added, what
is refused and what is sent are the same. -/

namespace Retrace

/-! ## Taking the entities out -/

/-- The execution, with the entities of the root execution in the place of its own. -/
def Execution.bare (e : Execution) : Execution :=
  { e with allocation := Model.rootAllocation, operation := Model.rootOperation }

def ExecutionTrace.bare (t : ExecutionTrace) : ExecutionTrace :=
  { t with executions := t.executions.map Execution.bare }

def Message.bare (m : Message) : Message :=
  { m with sender := m.sender.bare, receiver := m.receiver.bare }

def MessageTrace.bare (t : MessageTrace) : MessageTrace :=
  { t with messages := t.messages.map Message.bare }

def Rejection.bare : Rejection → Rejection
  | foreign e => foreign e.bare
  | backwards e => backwards e.bare
  | occupied eoi => occupied eoi

def NestingFault.bare (f : NestingFault) : NestingFault :=
  { f with execution := f.execution.bare }

def TraceFault.bare : TraceFault → TraceFault
  | rejected why => rejected why.bare
  | badNesting why => badNesting why.bare
  | fault => fault

def Outcome.bare : Outcome → Outcome
  | success traceId executions messages => success traceId executions.bare messages.bare
  | partly traceId executions fault => partly traceId executions.bare fault.bare
  | failed traceId fault => failed traceId fault.bare
  | skipped traceId => skipped traceId

/-- The tracker without any entities. -/
def Tracker.bare (t : Tracker) : Tracker :=
  { t with model := {}, executions := t.executions.bare }

def Step.bare (s : Step) : Step :=
  ⟨s.tracker.bare, s.fault.map TraceFault.bare⟩

/-! ## Executions -/

namespace Execution

variable (e : Execution)

@[simp] theorem bare_traceId : e.bare.traceId = e.traceId := rfl
@[simp] theorem bare_eoi : e.bare.eoi = e.eoi := rfl
@[simp] theorem bare_ess : e.bare.ess = e.ess := rfl
@[simp] theorem bare_entryTime : e.bare.entryTime = e.entryTime := rfl
@[simp] theorem bare_exitTime : e.bare.exitTime = e.exitTime := rfl

end Execution

namespace ExecutionTrace

theorem insert_bare (e : Execution) (es : List Execution) :
    insert e.bare (es.map Execution.bare) = (insert e es).map Execution.bare := by
  induction es with
  | nil => rfl
  | cons d rest ih =>
    simp only [List.map_cons, insert, Execution.bare_eoi, ih]
    split <;> rfl

theorem get?_bare (t : ExecutionTrace) (eoi : Int) :
    t.bare.get? eoi = (t.get? eoi).map Execution.bare :=
  List.find?_map

theorem add_bare (t : ExecutionTrace) (e : Execution) :
    t.bare.add e.bare = ((t.add e).mapError Rejection.bare).map ExecutionTrace.bare := by
  simp only [add, get?_bare, Option.isSome_map, Execution.bare_traceId, Execution.bare_eoi,
    Execution.bare_entryTime, Execution.bare_exitTime]
  change (if e.traceId ≠ t.traceId then _ else _) = _
  split
  · rfl
  · split
    · rfl
    · split
      · rfl
      · simp only [bare, insert_bare]
        rfl

/-! ## Messages -/

section Exchange

variable {root : Execution}

theorem callerOf_bare (hroot : root.bare = root) (openOnes : List Execution) :
    callerOf root (openOnes.map Execution.bare) = (callerOf root openOnes).bare := by
  cases openOnes with
  | nil => exact hroot.symm
  | cons top below => rfl

theorem settle_bare (hroot : root.bare = root) (ess : Int) (openOnes : List Execution) :
    settle root ess (openOnes.map Execution.bare) =
      ((settle root ess openOnes).1.map Message.bare,
        (settle root ess openOnes).2.map Execution.bare) := by
  induction openOnes with
  | nil => rfl
  | cons top below ih =>
    simp only [List.map_cons, settle, ih, callerOf_bare hroot, Execution.bare_ess]
    split <;> rfl

theorem settleAll_bare (hroot : root.bare = root) (openOnes : List Execution) :
    settleAll root (openOnes.map Execution.bare) = (settleAll root openOnes).map Message.bare := by
  induction openOnes with
  | nil => rfl
  | cons top below ih =>
    simp only [List.map_cons, settleAll, ih, callerOf_bare hroot]
    rfl

theorem exchange_bare (hroot : root.bare = root) (openOnes es : List Execution) :
    exchange root (openOnes.map Execution.bare) (es.map Execution.bare) =
      ((exchange root openOnes es).mapError NestingFault.bare).map (List.map Message.bare) := by
  induction es generalizing openOnes with
  | nil =>
    simp only [List.map_nil, exchange, settleAll_bare hroot]
    rfl
  | cons e rest ih =>
    simp only [List.map_cons, exchange, settle_bare hroot, callerOf_bare hroot,
      Execution.bare_ess, Execution.bare_entryTime]
    rw [← List.map_cons, ih]
    split
    · cases exchange root (e :: (settle root e.ess openOnes).2) rest with
      | error why => rfl
      | ok later =>
        refine congrArg Except.ok ?_
        simp only [List.map_append, List.map_cons]
        rfl
    · rfl

theorem toMessages_bare (t : ExecutionTrace) :
    t.bare.toMessages = (t.toMessages.mapError NestingFault.bare).map MessageTrace.bare := by
  have hwalk := @exchange_bare (Execution.root t.traceId t.sessionId) rfl [] t.executions
  unfold toMessages
  change (exchange (Execution.root t.traceId t.sessionId) [] (t.executions.map _)).map _ = _
  rw [show exchange (Execution.root t.traceId t.sessionId) [] (t.executions.map _) = _ from hwalk]
  cases exchange (Execution.root t.traceId t.sessionId) [] t.executions <;> rfl

end Exchange

end ExecutionTrace

/-! ## Outcomes -/

theorem Tracker.conclude_bare (t : Tracker) : t.bare.conclude.1 = t.conclude.1.bare := by
  have hmessages : t.bare.executions.toMessages = _ := t.executions.toMessages_bare
  unfold conclude
  rw [hmessages]
  cases t.executions.toMessages <;> rfl

theorem Tallies.count_bare (t : Tallies) (dropped : Nat) (outcome : Outcome) :
    t.count dropped outcome.bare = t.count dropped outcome := by
  cases outcome <;> rfl

theorem Outcome.traceId_bare (outcome : Outcome) : outcome.bare.traceId = outcome.traceId := by
  cases outcome <;> rfl

end Retrace
