import Mathlib.Algebra.Group.Defs
import Retrace.Proofs.Likeness
import Retrace.Proofs.Sequencing
import Retrace.Task

/-! Interference. Whatever others do to what is shared between two accesses, a task comes to the
outcome that its trace would have alone, up to the entities, and counts as much. So what others do
need not be known: it is enough to say what a task comes to from any state that it may find. -/

namespace Retrace

/-! ## Adding tallies up -/

attribute [ext] Tallies

namespace Tallies

instance : Zero Tallies := ⟨{}⟩

instance : Add Tallies where
  add a b := ⟨a.succeeded + b.succeeded, a.partly + b.partly, a.failed + b.failed,
    a.skipped + b.skipped, a.dropped + b.dropped⟩

instance : AddCommMonoid Tallies where
  add_assoc a b c := Tallies.ext (Nat.add_assoc ..) (Nat.add_assoc ..) (Nat.add_assoc ..)
    (Nat.add_assoc ..) (Nat.add_assoc ..)
  zero_add a := Tallies.ext (Nat.zero_add _) (Nat.zero_add _) (Nat.zero_add _) (Nat.zero_add _)
    (Nat.zero_add _)
  add_zero a := rfl
  add_comm a b := Tallies.ext (Nat.add_comm ..) (Nat.add_comm ..) (Nat.add_comm ..)
    (Nat.add_comm ..) (Nat.add_comm ..)
  nsmul := nsmulRec

/-- The tallies of some dropped events. -/
def drops (n : Nat) : Tallies :=
  { dropped := n }

theorem drops_add (m n : Nat) : drops (m + n) = drops m + drops n := rfl

theorem total_add (a b : Tallies) : (a + b).total = a.total + b.total := by
  change a.succeeded + b.succeeded + (a.partly + b.partly) + (a.failed + b.failed) +
    (a.skipped + b.skipped) = _
  unfold total
  omega

/-- Counting an outcome adds the tallies of it and of the dropped events. -/
theorem count_eq_add (t : Tallies) (dropped : Nat) (outcome : Outcome) :
    t.count dropped outcome = t + (drops dropped + (0 : Tallies).count 0 outcome) := by
  cases outcome <;> rfl

end Tallies

/-! ## What a task comes to -/

namespace Task

variable {α β : Type} {P : α → Prop} {Q : β → Prop} {owed more : Tallies}

/-- Whatever is shared is when the task accesses it, does it come to a result with the property, and
count exactly what is owed? -/
def Ends (P : α → Prop) : Task α → Tallies → Prop
  | done result, owed => P result ∧ owed = 0
  | access act next, owed => ∃ paid left, owed = paid + left ∧
      (∀ s, (act s).tallies = s.tallies + paid) ∧ ∀ s, (next s).Ends P left

theorem Ends.bind {task : Task α} {next : α → Task β} (h : task.Ends P owed)
    (hnext : ∀ result, P result → (next result).Ends Q more) :
    (task >>= next).Ends Q (owed + more) := by
  induction task generalizing owed with
  | done result =>
    obtain ⟨hresult, rfl⟩ := h
    rw [zero_add]
    exact hnext result hresult
  | access act rest ih =>
    obtain ⟨paid, left, rfl, hpaid, hrest⟩ := h
    exact ⟨paid, left + more, add_assoc .., hpaid, fun s => ih s (hrest s)⟩

theorem Ends.mono {R : α → Prop} {task : Task α} (h : task.Ends P owed)
    (hPR : ∀ result, P result → R result) : task.Ends R owed := by
  induction task generalizing owed with
  | done result => exact ⟨hPR result h.1, h.2⟩
  | access act rest ih =>
    obtain ⟨paid, left, howed, hpaid, hrest⟩ := h
    exact ⟨paid, left, howed, hpaid, fun s => ih s (hrest s)⟩

/-- A task that owes nothing leaves what is owed to the next one. -/
theorem Ends.free {task : Task α} {next : α → Task β} (h : task.Ends P 0)
    (hnext : ∀ result, P result → (next result).Ends Q more) : (task >>= next).Ends Q more := by
  have hboth := h.bind hnext
  rwa [zero_add] at hboth

theorem Ends.map {task : Task α} {f : α → β} (h : task.Ends P owed)
    (hf : ∀ result, P result → Q (f result)) :
    (task >>= fun result => pure (f result)).Ends Q owed := by
  have hboth := @Ends.bind _ _ _ Q _ 0 _ (fun result => pure (f result)) h fun result hresult =>
    ⟨hf result hresult, rfl⟩
  rwa [add_zero] at hboth

/-- Alone, too, a task comes to a result with the property, and counts what is owed. -/
theorem Ends.alone {task : Task α} (h : task.Ends P owed) (s : Shared) :
    P (task.alone s).1 ∧ (task.alone s).2.tallies = s.tallies + owed := by
  induction task generalizing owed s with
  | done result =>
    obtain ⟨hresult, rfl⟩ := h
    exact ⟨hresult, (add_zero _).symm⟩
  | access act rest ih =>
    obtain ⟨paid, left, rfl, hpaid, hrest⟩ := h
    obtain ⟨hresult, htallies⟩ := ih s (hrest s) (act s)
    exact ⟨hresult, by rw [Task.alone, htallies, hpaid, add_assoc]⟩

theorem ends_interning (find? : Model → Option α) (intern : Model → α × Model) :
    (interning find? intern).Ends (fun _ => True) 0 := by
  refine ⟨0, 0, (add_zero 0).symm, fun s => (add_zero _).symm, fun s => ?_⟩
  cases hfind : find? s.model with
  | some entity =>
    simp only [hfind]
    exact ⟨trivial, rfl⟩
  | none =>
    simp only [hfind]
    exact ⟨0, 0, (add_zero 0).symm, fun s => (add_zero _).symm, fun s => ⟨trivial, rfl⟩⟩

theorem ends_resolving (host context : String) (operation : QualifiedSignature) :
    (resolving host context operation).Ends (fun _ => True) 0 :=
  (ends_interning _ _).free fun _ _ => (ends_interning _ _).free fun _ _ =>
    (ends_interning _ _).free fun _ _ => (ends_interning _ _).free fun _ _ =>
      (ends_interning _ _).free fun _ _ => ⟨trivial, rfl⟩

/-- Does the task come to a step like the given one, up to the entities, and count nothing? -/
def Mirrors (task : Task Step) (s : Step) : Prop :=
  task.Ends (fun r => r.bare = s.bare) 0

/-- What is done unless there is a fault is mirrored if it is from trackers that are alike. -/
theorem Mirrors.proceed {task : Task Step} {s : Step} {next : Tracker → Task Step}
    {next' : Tracker → Step} (h : task.Mirrors s)
    (hnext : ∀ t u, t.bare = u.bare → (next t).Mirrors (next' u)) :
    (task >>= (·.proceed next)).Mirrors (s.andThen next') := by
  refine Ends.free h fun r hr => ?_
  obtain ⟨t, fault⟩ := r
  obtain ⟨u, fault'⟩ := s
  obtain ⟨hbare, hfault⟩ := Step.mk.inj hr
  cases fault with
  | none =>
    cases fault' with
    | none => exact hnext t u hbare
    | some why => cases hfault
  | some why =>
    cases fault' with
    | none => cases hfault
    | some why' => exact ⟨hr, rfl⟩

end Task

/-! ## Trackers that are alike -/

namespace Tracker
open Retrace.Task

section Alike

variable {t u : Tracker}

theorem note_alike (h : t.bare = u.bare) (notice : Notice) :
    (t.note notice).bare = (u.note notice).bare :=
  (congrArg (·.note notice) h :)

theorem pushOpen_alike (h : t.bare = u.bare) (e : Event) :
    (t.pushOpen e).bare = (u.pushOpen e).bare :=
  (congrArg (·.pushOpen e) h :)

theorem noteGuess_alike (h : t.bare = u.bare) (stamp : Stamp) (operation : OperationRef)
    (how : CallMatch) :
    (t.noteGuess stamp operation how).bare = (u.noteGuess stamp operation how).bare := by
  obtain ⟨guesses, hnote⟩ := exists_guesses t.openEvents stamp operation how
  rw [hnote t rfl, hnote u (congrArg Tracker.openEvents h.symm :)]
  exact (congrArg (fun v : Tracker => { v with notices := v.notices ++ guesses }) h :)

theorem mirrors_pure (h : t.bare = u.bare) (fault : Option TraceFault) :
    (pure ⟨t, fault⟩ : Task Step).Mirrors ⟨u, fault⟩ :=
  ⟨(congrArg (Step.mk · (fault.map TraceFault.bare)) h :), rfl⟩

theorem enroll_bare (t : Tracker) (e : Execution) : (t.enroll e).bare = t.bare.enroll e.bare := by
  unfold enroll
  rw [show t.bare.executions = t.executions.bare from rfl, ExecutionTrace.add_bare]
  cases t.executions.add e <;> rfl

theorem mirrors_recording (h : t.bare = u.bare) (i : Invocation) :
    (t.recording i).Mirrors (u.record i) := by
  refine Ends.free (ends_resolving _ _ _) fun resolved _ => ⟨?_, rfl⟩
  have htrace : t.trace = u.trace := (congrArg Tracker.trace h :)
  have hexecution : (i.executed t.trace resolved).bare =
      (i.execution u.trace u.matching u.model).1.bare := by rw [htrace]; rfl
  let model := (i.execution u.trace u.matching u.model).2
  calc (t.enroll (i.executed t.trace resolved)).bare
    _ = t.bare.enroll (i.executed t.trace resolved).bare := enroll_bare t _
    _ = u.bare.enroll (i.execution u.trace u.matching u.model).1.bare := by rw [h, hexecution]
    _ = (u.record i).bare := (enroll_bare { u with model } _).symm

theorem mirrors_recordingAll (h : t.bare = u.bare) (is : List Invocation) :
    (t.recordingAll is).Mirrors (u.recordAll is) := by
  induction is generalizing t u with
  | nil => exact mirrors_pure h none
  | cons i rest ih => exact (mirrors_recording h i).proceed fun t u hnext => ih hnext

theorem mirrors_closingCalls (h : t.bare = u.bare) (signature : String) (time : Int) :
    (t.closingCalls signature time).Mirrors (u.closeCalls signature time) := by
  have hevents : t.openEvents = u.openEvents := (congrArg Tracker.openEvents h :)
  have hslots : t.slots = u.slots := (congrArg Tracker.slots h :)
  unfold closingCalls closeCalls
  rw [hevents, hslots]
  cases callsDownTo signature u.openEvents u.slots with
  | found calls openEvents slots =>
    exact mirrors_recordingAll (congrArg (fun v : Tracker => { v with openEvents, slots }) h :) _
  | absent => exact mirrors_pure h none
  | missingSlot => exact mirrors_pure h _

/-- An event that gets a slot opens once calls are closed. -/
theorem mirrors_opening (h : t.bare = u.bare) (signature : String) (time : Int) (e : Event) :
    (t.closingCalls signature time >>= (·.proceed fun t => pure ⟨t.pushOpen e, none⟩)).Mirrors
      ((u.closeCalls signature time).andThen fun t => ⟨t.pushOpen e, none⟩) :=
  (mirrors_closingCalls h signature time).proceed fun _ _ hnext =>
    mirrors_pure (pushOpen_alike hnext e) none

theorem mirrors_entering (h : t.bare = u.bare) (kind : OperationKind) (stamp : Stamp)
    (operation : OperationRef) :
    (t.entering kind stamp operation).Mirrors (u.enter kind stamp operation) := by
  have hsame : t.announced? kind stamp operation = u.announced? kind stamp operation :=
    congrArg (·.announced? kind stamp operation) h
  unfold entering enter
  rw [hsame]
  cases u.announced? kind stamp operation with
  | none => exact mirrors_opening h _ _ _
  | some how =>
    have hnoted := noteGuess_alike h stamp operation how
    let e := Event.before kind stamp operation
    exact mirrors_pure
      (congrArg (fun v : Tracker => { v with openEvents := e :: v.openEvents }) hnoted :) none

theorem mirrors_closingInnermost (h : t.bare = u.bare) (kind : OperationKind) (stamp : Stamp)
    (operation : OperationRef) (time : Int) :
    (t.closingInnermost kind stamp operation time).Mirrors
      (u.closeInnermost kind stamp operation time) := by
  have hsame : t.announced? kind stamp operation = u.announced? kind stamp operation :=
    congrArg (·.announced? kind stamp operation) h
  have hevents : t.openEvents = u.openEvents := (congrArg Tracker.openEvents h :)
  unfold closingInnermost closeInnermost
  rw [hsame, hevents]
  cases u.announced? kind stamp operation with
  | none =>
    have hslots : t.slots = u.slots := (congrArg Tracker.slots h :)
    simp only [hslots]
    cases u.slots with
    | nil => exact mirrors_pure h _
    | cons slot slots =>
      exact mirrors_recording (congrArg (fun v : Tracker => { v with slots }) h :) _
  | some how =>
    have hnoted := noteGuess_alike h stamp operation how
    simp only
    generalize t.noteGuess stamp operation how = v at hnoted ⊢
    generalize u.noteGuess stamp operation how = w at hnoted ⊢
    simp only [show v.slots = w.slots from (congrArg Tracker.slots hnoted :)]
    have htaken : ∀ slots, bare { v with openEvents := v.openEvents.tail, slots } =
        bare { w with openEvents := w.openEvents.tail, slots } := fun slots =>
      (congrArg (fun v : Tracker => { v with openEvents := v.openEvents.tail, slots }) hnoted :)
    cases w.slots with
    | nil => exact mirrors_pure (htaken []) _
    | cons slot slots => exact mirrors_recording (htaken slots) _

theorem mirrors_endingOperation (h : t.bare = u.bare) (kind : OperationKind) (time : Int)
    (operation : OperationRef) :
    (t.endingOperation kind time operation).Mirrors (u.endOperation kind time operation) := by
  have hevents : t.openEvents = u.openEvents := (congrArg Tracker.openEvents h :)
  unfold endingOperation endOperation
  rw [hevents]
  cases u.openEvents with
  | nil => exact mirrors_pure h _
  | cons d below =>
    cases d with
    | before openKind stamp opened =>
      by_cases hkind : openKind ≠ kind
      · simp only [if_pos hkind]
        exact mirrors_pure h _
      · by_cases hop : opened ≠ operation
        · simp only [if_neg hkind, if_pos hop]
          exact mirrors_pure h _
        · simp only [if_neg hkind, if_neg hop]
          exact mirrors_closingInnermost
            (congrArg (fun v : Tracker => { v with openEvents := below }) h :) _ _ _ _
    | _ => exact mirrors_pure h _

theorem mirrors_leaving (h : t.bare = u.bare) (kind : OperationKind) (time : Int)
    (operation : OperationRef) :
    (t.leaving kind time operation).Mirrors (u.leave kind time operation) :=
  (mirrors_closingCalls h _ _).proceed fun _ _ hnext => mirrors_endingOperation hnext _ _ _

/-- Taking in an event is mirrored, whatever others do to the model meanwhile. -/
theorem mirrors_stepping (h : t.bare = u.bare) (e : Event) : (t.stepping e).Mirrors (u.step e) := by
  cases e with
  | call kind stamp caller callee => exact mirrors_opening h _ _ _
  | before kind stamp operation => exact mirrors_entering h _ _ _
  | after kind stamp operation => exact mirrors_leaving h _ _ _
  | afterFailed kind stamp operation cause => exact mirrors_leaving h _ _ _
  | split stamp => exact mirrors_pure (note_alike h _) none
  | unknown name stamp => exact mirrors_pure (note_alike h _) none

/-- What is fed is mirrored, and each event that is dropped is counted. -/
theorem ends_feeding (h : t.bare = u.bare) (place : Nat) (es : List Event) :
    (t.feeding place es).Ends
      (fun r => r.bare = (Step.mk (u.feed place 0 es).tracker (u.feed place 0 es).fault).bare)
      (Tallies.drops (u.feed place 0 es).dropped) := by
  induction es generalizing t u place with
  | nil => exact mirrors_pure h none
  | cons e rest ih =>
    have htrace : t.trace = u.trace := (congrArg Tracker.trace h :)
    unfold feed feeding
    rw [htrace]
    cases checkSequence e u.trace.traceId place with
    | error why =>
      simp only
      rw [feed_eq]
      simp only [Nat.zero_add, Tallies.drops_add]
      exact ⟨Tallies.drops 1, _, rfl, fun s => rfl, fun _ => ih (note_alike h _) (place + 1)⟩
    | ok _ =>
      refine (mirrors_stepping h e).free fun r hr => ?_
      obtain ⟨hbare, hfault⟩ := Step.mk.inj hr
      obtain ⟨v, fault⟩ := r
      cases hend : (u.step e).fault with
      | none =>
        rw [hend] at hfault
        obtain rfl := Option.map_eq_none_iff.mp hfault
        simp only [hend]
        exact ih hbare (place + 1)
      | some why =>
        rw [hend] at hfault
        obtain ⟨why', rfl, halike⟩ := Option.map_eq_some_iff.mp hfault
        simp only [hend]
        refine ⟨?_, rfl⟩
        simp only [Step.bare, Option.map_some, halike]
        exact (congrArg (Step.mk · _) hbare :)

theorem finish_bare (t : Tracker) : t.finish.bare = t.bare.finish := by
  change (if t.openEvents.isEmpty then t else _).bare = if t.openEvents.isEmpty then _ else _
  split <;> rfl

/-- The outcomes of trackers that are alike at the end of their traces are the same. -/
theorem conclude_alike (h : t.bare = u.bare) :
    t.finish.conclude.1.bare = u.finish.conclude.1.bare := by
  rw [← conclude_bare, finish_bare, h, ← finish_bare, conclude_bare]

end Alike

end Tracker

/-! ## Batches -/

open Retrace.Task

variable (settings : Settings) (selection : Selection)

/-- Reconstructing a batch among others comes to the outcome that it has with any model. -/
theorem ends_concluding (model : Model) (batch : Batch) :
    (concluding settings selection batch).Ends
      (fun o => o.bare = (reconstruct settings selection model batch).outcome.bare)
      (Tallies.drops (reconstruct settings selection model batch).dropped) := by
  unfold concluding reconstruct
  split
  · have hfed := @Tracker.ends_feeding (Tracker.start batch.trace settings.matching {})
      (Tracker.start batch.trace settings.matching model) rfl 0 batch.events
    generalize (Tracker.start batch.trace settings.matching model).feed 0 0 batch.events =
      progress at hfed ⊢
    obtain ⟨u, dropped, fault⟩ := progress
    cases fault with
    | none =>
      refine hfed.map fun r hr => ?_
      obtain ⟨t, fault⟩ := r
      obtain ⟨hbare, hfault⟩ := Step.mk.inj hr
      obtain rfl := Option.map_eq_none_iff.mp hfault
      exact Tracker.conclude_alike hbare
    | some why =>
      refine hfed.map fun r hr => ?_
      obtain ⟨t, fault⟩ := r
      obtain ⟨_, hfault⟩ := Step.mk.inj hr
      obtain ⟨why', rfl, halike⟩ := Option.map_eq_some_iff.mp hfault
      exact congrArg (Outcome.failed batch.traceId) halike
  · exact ⟨rfl, rfl⟩

theorem ends_reconstructing (model : Model) (batch : Batch) :
    (reconstructing settings selection batch).Ends
      (fun o => o.bare = (reconstruct settings selection model batch).outcome.bare)
      ((0 : Tallies).count (reconstruct settings selection model batch).dropped
        (reconstruct settings selection model batch).outcome) := by
  rw [Tallies.count_eq_add, zero_add]
  refine (ends_concluding settings selection model batch).bind fun o ho => ?_
  refine ⟨_, 0, (add_zero _).symm, fun s => ?_, fun _ => ⟨ho, rfl⟩⟩
  rw [← Tallies.count_bare _ _ (reconstruct settings selection model batch).outcome, ← ho,
    Tallies.count_bare]
  exact (Tallies.count_eq_add s.tallies 0 o).trans (congrArg _ (zero_add _))

end Retrace
