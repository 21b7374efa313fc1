import Retrace.Proofs.Arrival
import Retrace.Tracker

/-! Recording. An ended invocation becomes one execution, with its own place, depth and times. Which
entities it refers to depends on the model, and nothing else does, so what happened is told by the
intervals of the executions alone. Recording touches neither the open events nor their slots. -/

namespace Retrace

/-- Where and when an invocation ran. -/
structure Interval where
  eoi : Int
  ess : Int
  entryTime : Int
  exitTime : Int
  deriving DecidableEq, Repr

def Execution.interval (e : Execution) : Interval :=
  ⟨e.eoi, e.ess, e.entryTime, e.exitTime⟩

namespace Invocation

def interval (i : Invocation) : Interval :=
  ⟨i.slot.eoi, i.slot.ess, i.entryTime, i.exitTime⟩

/-- The execution that an invocation is recorded as, and the model with its entities. -/
def execution (i : Invocation) (trace : TraceInfo) (matching : Matching) (model : Model) :
    Execution × Model :=
  let operation := QualifiedSignature.parse i.operation.signature
    (i.kind = .constructor ∧ matching.normaliseConstructors)
  let context := if i.operation.owner.isEmpty then operation.owner else i.operation.owner
  let (resolved, model) := model.resolve trace.hostname context operation
  ({ allocation := resolved.allocation
     operation := resolved.operation
     traceId := trace.traceId
     sessionId := trace.sessionId
     eoi := i.slot.eoi
     ess := i.slot.ess
     entryTime := i.entryTime
     exitTime := i.exitTime
     assumed := i.assumed
     isConstructor := i.kind = .constructor }, model)

theorem interval_execution (i : Invocation) (trace : TraceInfo) (matching : Matching)
    (model : Model) : (i.execution trace matching model).1.interval = i.interval := rfl

end Invocation

namespace Step

theorem andThen_of_fault {s : Step} {next : Tracker → Step} (h : (s.andThen next).fault = none) :
    s.fault = none ∧ s.andThen next = next s.tracker := by
  unfold andThen at h ⊢
  cases hs : s.fault with
  | none => exact ⟨rfl, rfl⟩
  | some fault => rw [hs] at h; simp only at h; rw [hs] at h; cases h

theorem eq_of_fault {s : Step} (h : s.fault = none) : s = ⟨s.tracker, none⟩ := by
  obtain ⟨t, fault⟩ := s
  cases h
  rfl

@[simp] theorem andThen_ok (t : Tracker) (next : Tracker → Step) :
    Step.andThen ⟨t, none⟩ next = next t := rfl

theorem andThen_assoc (s : Step) (next after : Tracker → Step) :
    (s.andThen next).andThen after = s.andThen fun t => (next t).andThen after := by
  obtain ⟨t, fault⟩ := s
  cases fault <;> rfl

end Step

namespace Tracker
open scoped List

/-- The tracker with one more execution. -/
def recorded (t : Tracker) (i : Invocation) : Tracker :=
  let (execution, model) := i.execution t.trace t.matching t.model
  { t with model, executions :=
      { t.executions with executions :=
          ExecutionTrace.insert execution t.executions.executions } }

def recordedAll (t : Tracker) (is : List Invocation) : Tracker :=
  is.foldl recorded t

/-- The tracker with other open invocations. -/
def holding (t : Tracker) (openEvents : List Event) (slots : List Slot) (nextEoi : Nat) :
    Tracker :=
  { t with openEvents, slots, nextEoi }

section Holding

variable (t : Tracker) (openEvents : List Event) (slots : List Slot) (nextEoi : Nat)

@[simp] theorem holding_openEvents :
    (t.holding openEvents slots nextEoi).openEvents = openEvents := rfl

@[simp] theorem holding_slots : (t.holding openEvents slots nextEoi).slots = slots := rfl

@[simp] theorem holding_nextEoi : (t.holding openEvents slots nextEoi).nextEoi = nextEoi := rfl

@[simp] theorem holding_matching :
    (t.holding openEvents slots nextEoi).matching = t.matching := rfl

@[simp] theorem holding_holding (otherEvents : List Event) (otherSlots : List Slot)
    (otherEoi : Nat) :
    (t.holding openEvents slots nextEoi).holding otherEvents otherSlots otherEoi =
      t.holding otherEvents otherSlots otherEoi := rfl

@[simp] theorem recorded_holding (i : Invocation) :
    (t.holding openEvents slots nextEoi).recorded i =
      (t.recorded i).holding openEvents slots nextEoi := rfl

end Holding

/-- The intervals of the recorded executions, by `eoi`. -/
def intervals (t : Tracker) : List Interval :=
  t.executions.executions.map (·.interval)

theorem record_eq (t : Tracker) (i : Invocation) :
    t.record i =
      match t.executions.add (i.execution t.trace t.matching t.model).1 with
      | .ok executions =>
        ⟨{ t with model := (i.execution t.trace t.matching t.model).2, executions }, none⟩
      | .error why =>
        ⟨{ t with model := (i.execution t.trace t.matching t.model).2 }, some (.rejected why)⟩ :=
  rfl

/-- Recorded or refused, an invocation touches the executions and the model only. -/
theorem exists_record (t : Tracker) (i : Invocation) :
    ∃ executions model, (t.record i).tracker = { t with executions, model } := by
  rw [record_eq]
  split <;> exact ⟨_, _, rfl⟩

theorem record_eq_ok {t : Tracker} {i : Invocation} (h : (t.record i).fault = none) :
    t.record i = ⟨t.recorded i, none⟩ ∧ i.entryTime ≤ i.exitTime := by
  rw [record_eq] at h ⊢
  cases hadd : t.executions.add (i.execution t.trace t.matching t.model).1 with
  | error why => rw [hadd] at h; cases h
  | ok executions =>
    obtain ⟨_, htime, _, rfl⟩ := ExecutionTrace.add_eq_ok hadd
    exact ⟨rfl, htime⟩

/-- An invocation is recorded if its place is free and it does not end before it begins. -/
theorem record_of_fresh {t : Tracker} {i : Invocation}
    (hid : t.executions.traceId = t.trace.traceId) (htime : i.entryTime ≤ i.exitTime)
    (hfree : ∀ x ∈ t.intervals, x.eoi ≠ i.slot.eoi) : t.record i = ⟨t.recorded i, none⟩ := by
  have hadd := @ExecutionTrace.add_of_fresh t.executions
    (i.execution t.trace t.matching t.model).1 hid.symm htime
    (fun d hd => hfree d.interval (List.mem_map.mpr ⟨d, hd, rfl⟩))
  rw [record_eq, hadd]
  rfl

/-- An invocation that ends before it begins is refused. -/
theorem record_of_backwards {t : Tracker} {i : Invocation}
    (hid : t.executions.traceId = t.trace.traceId) (hback : i.exitTime < i.entryTime) :
    ∃ x : Execution, x.interval = i.interval ∧
      (t.record i).fault = some (.rejected (.backwards x)) := by
  refine ⟨(i.execution t.trace t.matching t.model).1, rfl, ?_⟩
  have hadd := @ExecutionTrace.add_of_backwards t.executions
    (i.execution t.trace t.matching t.model).1 hid.symm hback
  rw [record_eq, hadd]

theorem recordAll_eq_ok {t : Tracker} {is : List Invocation}
    (h : (t.recordAll is).fault = none) :
    t.recordAll is = ⟨t.recordedAll is, none⟩ ∧ ∀ i ∈ is, i.entryTime ≤ i.exitTime := by
  induction is generalizing t with
  | nil => exact ⟨rfl, by simp⟩
  | cons i rest ih =>
    obtain ⟨hone, heq⟩ := Step.andThen_of_fault h
    obtain ⟨hrecord, htime⟩ := record_eq_ok hone
    have hnext : (t.recordAll (i :: rest)) = (t.recorded i).recordAll rest := by
      rw [recordAll, heq, hrecord]
    rw [hnext] at h ⊢
    obtain ⟨hrest, htimes⟩ := ih h
    exact ⟨hrest, by simpa using ⟨htime, htimes⟩⟩

/-! ## What recording leaves alone -/

section Frame

variable (t : Tracker) (is : List Invocation)

theorem recordedAll_append (js : List Invocation) :
    t.recordedAll (is ++ js) = (t.recordedAll is).recordedAll js :=
  List.foldl_append

@[simp] theorem recordedAll_holding (openEvents : List Event) (slots : List Slot) (nextEoi : Nat) :
    (t.holding openEvents slots nextEoi).recordedAll is =
      (t.recordedAll is).holding openEvents slots nextEoi := by
  induction is generalizing t with
  | nil => rfl
  | cons i rest ih => exact ih (t.recorded i)

@[simp] theorem recordedAll_noting (notices : List Notice) :
    Tracker.recordedAll { t with notices } is = { t.recordedAll is with notices } := by
  induction is generalizing t with
  | nil => rfl
  | cons i rest ih => exact ih (t.recorded i)

/-- What recording one invocation keeps, recording several keeps. -/
theorem recordedAll_keeps {α : Type} {part : Tracker → α}
    (h : ∀ u i, part (recorded u i) = part u) : part (t.recordedAll is) = part t := by
  induction is generalizing t with
  | nil => rfl
  | cons i rest ih => exact (ih (t.recorded i)).trans (h t i)

@[simp] theorem recordedAll_matching : (t.recordedAll is).matching = t.matching :=
  recordedAll_keeps t is fun _ _ => rfl

@[simp] theorem recordedAll_trace : (t.recordedAll is).trace = t.trace :=
  recordedAll_keeps t is fun _ _ => rfl

@[simp] theorem recordedAll_notices : (t.recordedAll is).notices = t.notices :=
  recordedAll_keeps t is fun _ _ => rfl

@[simp] theorem recordedAll_traceId :
    (t.recordedAll is).executions.traceId = t.executions.traceId :=
  @recordedAll_keeps t is _ (·.executions.traceId) fun _ _ => rfl

@[simp] theorem recordedAll_sessionId :
    (t.recordedAll is).executions.sessionId = t.executions.sessionId :=
  @recordedAll_keeps t is _ (·.executions.sessionId) fun _ _ => rfl

theorem sorted_recordedAll
    (h : t.executions.executions.Pairwise fun d e => d.eoi ≤ e.eoi) :
    (t.recordedAll is).executions.executions.Pairwise fun d e => d.eoi ≤ e.eoi := by
  induction is generalizing t with
  | nil => exact h
  | cons i rest ih => exact ih (t.recorded i) (ExecutionTrace.insert_sorted h)

theorem intervals_recordedAll :
    (t.recordedAll is).intervals ~ is.map (·.interval) ++ t.intervals := by
  induction is generalizing t with
  | nil => exact List.Perm.refl _
  | cons i rest ih =>
    have hone : (t.recorded i).intervals ~ i.interval :: t.intervals :=
      (ExecutionTrace.insert_perm _ _).map _
    calc ((t.recorded i).recordedAll rest).intervals
      _ ~ rest.map (·.interval) ++ (t.recorded i).intervals := ih (t.recorded i)
      _ ~ rest.map (·.interval) ++ i.interval :: t.intervals := hone.append_left _
      _ ~ i.interval :: (rest.map (·.interval) ++ t.intervals) := List.perm_middle

end Frame

end Tracker

end Retrace
