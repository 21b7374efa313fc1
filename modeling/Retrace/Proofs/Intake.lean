import Retrace.Proofs.Insertion

/-! Intake. A tracker is given just the events of a batch that are at their own places, in order and
up to the first one that shows a fault. Each other event that comes before that is counted, and leaves
nothing behind but a notice. What a tracker does next never depends on its notices, so a batch comes
to what a run over the events at their places comes to, whatever stands between them. -/

namespace Retrace

/-! ## Notices are given and not read -/

/-- The tracker with more notices before its own. -/
def Tracker.telling (t : Tracker) (earlier : List Notice) : Tracker :=
  { t with notices := earlier ++ t.notices }

def Step.telling (s : Step) (earlier : List Notice) : Step :=
  ⟨s.tracker.telling earlier, s.fault⟩

theorem Step.telling_andThen {s : Step} {next : Tracker → Step} {earlier : List Notice}
    (h : ∀ t, next (t.telling earlier) = (next t).telling earlier) :
    (s.telling earlier).andThen next = (s.andThen next).telling earlier := by
  obtain ⟨t, fault⟩ := s
  cases fault with
  | none => exact h t
  | some fault => rfl

namespace Tracker

section Telling

variable (t : Tracker) (earlier : List Notice)

theorem record_telling (i : Invocation) :
    (t.telling earlier).record i = (t.record i).telling earlier := by
  rw [record_eq, record_eq]
  simp only [telling]
  split <;> rfl

theorem recordAll_telling (is : List Invocation) :
    (t.telling earlier).recordAll is = (t.recordAll is).telling earlier := by
  induction is generalizing t with
  | nil => rfl
  | cons i rest ih =>
    rw [recordAll, record_telling]
    exact Step.telling_andThen ih

theorem closeCalls_telling (signature : String) (time : Int) :
    (t.telling earlier).closeCalls signature time = (t.closeCalls signature time).telling earlier := by
  unfold closeCalls
  have hsame : callsDownTo signature (t.telling earlier).openEvents (t.telling earlier).slots =
    callsDownTo signature t.openEvents t.slots := rfl
  rw [hsame]
  split
  · exact recordAll_telling { t with openEvents := _, slots := _ } earlier _
  · rfl
  · rfl

theorem note_telling (notice : Notice) :
    (t.telling earlier).note notice = (t.note notice).telling earlier := by
  simp [telling, note]

theorem noteGuess_telling (stamp : Stamp) (operation : OperationRef) (how : CallMatch) :
    (t.telling earlier).noteGuess stamp operation how =
      (t.noteGuess stamp operation how).telling earlier := by
  cases how with
  | exact => rfl
  | guessed =>
    simp only [noteGuess]
    cases h : t.openEvents.head?.bind Event.callee? with
    | none =>
      have hsame : (t.telling earlier).openEvents.head?.bind Event.callee? = none := h
      simp only [hsame]
    | some callee =>
      have hsame : (t.telling earlier).openEvents.head?.bind Event.callee? = some callee := h
      simp only [hsame]
      exact note_telling t earlier _

theorem enter_telling (kind : OperationKind) (stamp : Stamp) (operation : OperationRef) :
    (t.telling earlier).enter kind stamp operation =
      (t.enter kind stamp operation).telling earlier := by
  have hannounced : (t.telling earlier).announced? kind stamp operation =
    t.announced? kind stamp operation := rfl
  unfold enter
  rw [hannounced]
  cases t.announced? kind stamp operation with
  | some how =>
    simp only [noteGuess_telling]
    rfl
  | none =>
    simp only [closeCalls_telling]
    exact Step.telling_andThen fun _ => rfl

theorem recordInnermost_telling (i : Slot → Invocation) :
    (t.telling earlier).recordInnermost i = (t.recordInnermost i).telling earlier := by
  unfold recordInnermost
  have hsame : (t.telling earlier).slots = t.slots := rfl
  rw [hsame]
  cases t.slots with
  | nil => rfl
  | cons slot left => exact record_telling { t with slots := left } earlier (i slot)

theorem closeInnermost_telling (kind : OperationKind) (stamp : Stamp) (operation : OperationRef)
    (time : Int) :
    (t.telling earlier).closeInnermost kind stamp operation time =
      (t.closeInnermost kind stamp operation time).telling earlier := by
  have hannounced : (t.telling earlier).announced? kind stamp operation =
    t.announced? kind stamp operation := rfl
  unfold closeInnermost
  rw [hannounced]
  cases t.announced? kind stamp operation with
  | none => exact recordInnermost_telling t earlier _
  | some how =>
    simp only [noteGuess_telling]
    exact recordInnermost_telling
      { t.noteGuess stamp operation how with
        openEvents := (t.noteGuess stamp operation how).openEvents.tail } earlier _

theorem endOperation_telling (kind : OperationKind) (time : Int) (operation : OperationRef) :
    (t.telling earlier).endOperation kind time operation =
      (t.endOperation kind time operation).telling earlier := by
  unfold endOperation
  simp only [telling]
  split
  · split
    · rfl
    · split
      · rfl
      · exact closeInnermost_telling { t with openEvents := _ } earlier _ _ _ _
  · rfl

theorem leave_telling (kind : OperationKind) (time : Int) (operation : OperationRef) :
    (t.telling earlier).leave kind time operation =
      (t.leave kind time operation).telling earlier := by
  rw [leave, closeCalls_telling]
  exact Step.telling_andThen fun u => endOperation_telling u earlier kind time operation

theorem step_telling (e : Event) :
    (t.telling earlier).step e = (t.step e).telling earlier := by
  cases e with
  | call kind stamp caller callee =>
    simp only [step, closeCalls_telling]
    exact Step.telling_andThen fun _ => rfl
  | before kind stamp operation => exact enter_telling t earlier kind stamp operation
  | after kind stamp operation => exact leave_telling t earlier kind _ operation
  | afterFailed kind stamp operation cause => exact leave_telling t earlier kind _ operation
  | split stamp => exact congrArg (Step.mk · none) (note_telling t earlier _)
  | unknown name stamp => exact congrArg (Step.mk · none) (note_telling t earlier _)

theorem run_telling (es : List Event) :
    (t.telling earlier).run es = (t.run es).telling earlier := by
  induction es generalizing t with
  | nil => rfl
  | cons e rest ih =>
    rw [run, step_telling]
    exact Step.telling_andThen ih

end Telling

end Tracker

/-! ## Without the notices of dropped events -/

/-- Does the notice tell that an event was dropped? -/
def Notice.isDrop : Notice → Bool
  | dropped .. => true
  | _ => false

/-- The notices besides those of dropped events. -/
def undropped (notices : List Notice) : List Notice :=
  notices.filter fun notice => !notice.isDrop

@[simp] theorem undropped_append (earlier later : List Notice) :
    undropped (earlier ++ later) = undropped earlier ++ undropped later :=
  List.filter_append ..

namespace Tracker

/-- The tracker, but for the notices of dropped events. -/
def hushed (t : Tracker) : Tracker :=
  { t with notices := undropped t.notices }

theorem hushed_telling (t : Tracker) (earlier : List Notice) :
    (t.telling earlier).hushed = t.hushed.telling (undropped earlier) := by
  simp [hushed, telling]

theorem hushed_note_dropped (t : Tracker) (traceId orderIndex : Int) (why : SequenceError) :
    (t.note (.dropped traceId orderIndex why)).hushed = t.hushed := by
  simp [hushed, note, undropped, Notice.isDrop]

/-- Trackers that differ in the notices of dropped events stay like that. -/
theorem run_hushed {t u : Tracker} (h : t.hushed = u.hushed) (es : List Event) :
    (t.run es).fault = (u.run es).fault ∧
      (t.run es).tracker.hushed = (u.run es).tracker.hushed := by
  have hnotices : undropped t.notices = undropped u.notices := congrArg Tracker.notices h
  have hrest : { t with notices := [] } = { u with notices := [] } :=
    congrArg (fun s : Tracker => { s with notices := [] }) h
  have happlied : ∀ s : Tracker,
      s.run es = ({ s with notices := [] }.run es).telling s.notices := by
    intro s
    rw [← run_telling]
    simp [telling]
  rw [happlied t, happlied u, hrest]
  refine ⟨rfl, ?_⟩
  simp only [Step.telling, hushed_telling, hnotices]

end Tracker

/-! ## What is examined, and what is taken in of it -/

/-- The events that are at their places, counted from zero, and in their trace. -/
def atPlaces (traceId : Int) (es : List Event) : List Event :=
  (es.zipIdx.filter fun (e, place) => e.orderIndex = place ∧ e.traceId = traceId).map Prod.fst

theorem atPlaces_eq (traceId : Int) (es : List Event) :
    atPlaces traceId es = inSequence traceId 0 es := by
  have hplaces : ∀ place : Nat, ((es.zipIdx place).filter fun (e, place) =>
      e.orderIndex = place ∧ e.traceId = traceId).map Prod.fst = inSequence traceId place es := by
    induction es with
    | nil => exact fun _ => rfl
    | cons e rest ih =>
      intro place
      rw [List.zipIdx_cons, inSequence]
      cases hcheck : checkSequence e traceId place with
      | ok done =>
        have hin := checkSequence_eq_ok_iff.mp hcheck
        simp only [List.filter_cons, hin, and_self, decide_true, if_true, List.map_cons]
        exact congrArg (e :: ·) (ih (place + 1))
      | error why =>
        have hout : ¬ (e.orderIndex = place ∧ e.traceId = traceId) := by
          intro hin
          rw [checkSequence_eq_ok_iff.mpr hin] at hcheck
          cases hcheck
        simp only [List.filter_cons, hout, decide_false, Bool.false_eq_true, if_false]
        exact ih (place + 1)
  exact hplaces 0

namespace Tracker

/-- The events of a batch that are looked at, from a place on: all of them, or those up to the first
one that is taken in and shows a fault. -/
structure Examines (t : Tracker) (place : Nat) (events examined : List Event) : Prop where
  start : ∃ ignored, events = examined ++ ignored
  all_of_ok : (t.run (inSequence t.trace.traceId place examined)).fault = none → examined = events
  last_of_fault : ∀ fault,
    (t.run (inSequence t.trace.traceId place examined)).fault = some fault →
      ∃ before last, examined = before ++ [last] ∧
        last.TakenAt t.trace.traceId (place + before.length : Nat) ∧
        (t.run (inSequence t.trace.traceId place before)).fault = none

theorem Examines.nil (t : Tracker) (place : Nat) : t.Examines place [] [] where
  start := ⟨[], rfl⟩
  all_of_ok := fun _ => rfl
  last_of_fault := fun _ h => nomatch h

section First

variable {t : Tracker} {place dropped : Nat} {e : Event} {rest : List Event} {why : SequenceError}
  {fault : TraceFault}

theorem inSequence_cons_dropped (hcheck : checkSequence e t.trace.traceId place = .error why)
    (es : List Event) : inSequence t.trace.traceId place (e :: es) =
      inSequence t.trace.traceId (place + 1) es := by
  simp only [inSequence, hcheck]

theorem inSequence_cons_taken (htaken : e.TakenAt t.trace.traceId place) (es : List Event) :
    inSequence t.trace.traceId place (e :: es) =
      e :: inSequence t.trace.traceId (place + 1) es := by
  rw [inSequence, htaken]

theorem feed_cons_dropped (hcheck : checkSequence e t.trace.traceId place = .error why) :
    t.feed place dropped (e :: rest) =
      (t.note (.dropped t.trace.traceId e.orderIndex why)).feed (place + 1) (dropped + 1) rest := by
  simp only [feed, hcheck]

variable (htaken : e.TakenAt t.trace.traceId place)
include htaken

theorem feed_cons_taken (hok : (t.step e).fault = none) :
    t.feed place dropped (e :: rest) = (t.step e).tracker.feed (place + 1) dropped rest := by
  rw [feed, htaken]
  simp only [hok]

theorem feed_cons_faulty (hfault : (t.step e).fault = some fault) :
    t.feed place dropped (e :: rest) = ⟨(t.step e).tracker, dropped, some fault⟩ := by
  rw [feed, htaken]
  simp only [hfault]

theorem run_cons_taken (hok : (t.step e).fault = none) (es : List Event) :
    t.run (inSequence t.trace.traceId place (e :: es)) =
      (t.step e).tracker.run (inSequence t.trace.traceId (place + 1) es) := by
  rw [inSequence_cons_taken htaken, run, Step.andThen, hok]

theorem run_faulty (hfault : (t.step e).fault = some fault) :
    t.run (inSequence t.trace.traceId place [e]) = t.step e := by
  rw [inSequence_cons_taken htaken, run, Step.andThen, hfault]

end First

/-- One more event is looked at, if another tracker shows the same faults without it. -/
theorem Examines.cons {t u : Tracker} {place : Nat} {e : Event} {rest examined : List Event}
    (htrace : u.trace = t.trace)
    (hfault : ∀ es, (t.run (inSequence t.trace.traceId place (e :: es))).fault =
      (u.run (inSequence u.trace.traceId (place + 1) es)).fault)
    (h : u.Examines (place + 1) rest examined) : t.Examines place (e :: rest) (e :: examined) := by
  refine ⟨?_, ?_, ?_⟩
  · obtain ⟨ignored, hrest⟩ := h.start
    exact ⟨ignored, congrArg (e :: ·) hrest⟩
  · intro hok
    rw [hfault] at hok
    exact congrArg (e :: ·) (h.all_of_ok hok)
  · intro fault hfaulty
    rw [hfault] at hfaulty
    obtain ⟨before, last, hexamined, hlast, hbefore⟩ := h.last_of_fault fault hfaulty
    refine ⟨e :: before, last, congrArg (e :: ·) hexamined, ?_, (hfault before).trans hbefore⟩
    have hplace : place + 1 + before.length = place + (e :: before).length := by
      rw [List.length_cons]
      omega
    rwa [htrace, hplace] at hlast

/-- What comes after an event out of sequence is looked at as if that one were not there. -/
theorem Examines.dropped {t u : Tracker} {place : Nat} {e : Event} {rest examined : List Event}
    {why : SequenceError} (hcheck : checkSequence e t.trace.traceId place = .error why)
    (hu : u.hushed = t.hushed) (h : u.Examines (place + 1) rest examined) :
    t.Examines place (e :: rest) (e :: examined) := by
  have htrace : u.hushed.trace = t.hushed.trace := congrArg Tracker.trace hu
  change u.trace = t.trace at htrace
  refine h.cons htrace fun es => ?_
  rw [inSequence_cons_dropped hcheck, htrace]
  exact (run_hushed hu.symm _).1

/-- What comes after an event that is taken in is looked at from the tracker that it leaves. -/
theorem Examines.taken {t : Tracker} {place : Nat} {e : Event} {rest examined : List Event}
    (htaken : e.TakenAt t.trace.traceId place) (hok : (t.step e).fault = none)
    (h : (t.step e).tracker.Examines (place + 1) rest examined) :
    t.Examines place (e :: rest) (e :: examined) := by
  refine h.cons (t.step_trace e) fun es => ?_
  rw [step_trace, run_cons_taken htaken hok]

/-- What comes after an event that shows a fault is not looked at. -/
theorem Examines.faulty {t : Tracker} {place : Nat} {e : Event} {fault : TraceFault}
    (htaken : e.TakenAt t.trace.traceId place) (hfault : (t.step e).fault = some fault)
    (rest : List Event) : t.Examines place (e :: rest) [e] where
  start := ⟨rest, rfl⟩
  all_of_ok := by
    intro hok
    rw [run_faulty htaken hfault, hfault] at hok
    cases hok
  last_of_fault := by
    intro _ _
    exact ⟨[], e, rfl, htaken, rfl⟩

/-- A batch is fed to a tracker by a run over the events at their places among those that are looked
at. The others among them are counted. -/
theorem feed_examines (t : Tracker) (place dropped : Nat) (es : List Event) :
    ∃ examined, t.Examines place es examined ∧
      (t.feed place dropped es).fault =
        (t.run (inSequence t.trace.traceId place examined)).fault ∧
      (t.feed place dropped es).tracker.hushed =
        (t.run (inSequence t.trace.traceId place examined)).tracker.hushed ∧
      (t.feed place dropped es).dropped +
          (inSequence t.trace.traceId place examined).length = dropped + examined.length := by
  induction es generalizing t place dropped with
  | nil => exact ⟨[], .nil t place, rfl, rfl, rfl⟩
  | cons e rest ih =>
    cases hcheck : checkSequence e t.trace.traceId place with
    | error why =>
      -- The notice of the drop is all that the later events could see of this one.
      have hnoted := hushed_note_dropped t t.trace.traceId e.orderIndex why
      obtain ⟨examined, hexamines, hfault, htracker, hdropped⟩ :=
        ih (t.note (.dropped t.trace.traceId e.orderIndex why)) (place + 1) (dropped + 1)
      have hsame := run_hushed hnoted (inSequence t.trace.traceId (place + 1) examined)
      have hskip := inSequence_cons_dropped hcheck
      refine ⟨e :: examined, .dropped hcheck hnoted hexamines, ?_, ?_, ?_⟩
      · rw [feed_cons_dropped hcheck, hskip, hfault]
        exact hsame.1
      · rw [feed_cons_dropped hcheck, hskip, htracker]
        exact hsame.2
      · rw [feed_cons_dropped hcheck, hskip, List.length_cons]
        exact hdropped.trans (by omega)
    | ok done =>
      have htaken : e.TakenAt t.trace.traceId place := hcheck
      cases hstep : (t.step e).fault with
      | some fault =>
        refine ⟨[e], .faulty htaken hstep rest, ?_, ?_, ?_⟩
        · rw [feed_cons_faulty htaken hstep, run_faulty htaken hstep, hstep]
        · rw [feed_cons_faulty htaken hstep, run_faulty htaken hstep]
        · rw [feed_cons_faulty htaken hstep, inSequence_cons_taken htaken]
          rfl
      | none =>
        obtain ⟨examined, hexamines, hfault, htracker, hdropped⟩ :=
          ih (t.step e).tracker (place + 1) dropped
        rw [step_trace] at hfault htracker hdropped
        refine ⟨e :: examined, .taken htaken hstep hexamines, ?_, ?_, ?_⟩
        · rw [feed_cons_taken htaken hstep, run_cons_taken htaken hstep, hfault]
        · rw [feed_cons_taken htaken hstep, run_cons_taken htaken hstep, htracker]
        · rw [feed_cons_taken htaken hstep, inSequence_cons_taken htaken, List.length_cons,
            List.length_cons]
          omega

/-- What is all out of sequence is counted, and nothing else. -/
theorem feed_of_none_in {t : Tracker} {place : Nat} {es : List Event}
    (h : inSequence t.trace.traceId place es = []) (dropped : Nat) :
    (t.feed place dropped es).fault = none ∧
      (t.feed place dropped es).tracker.hushed = t.hushed ∧
      (t.feed place dropped es).dropped = dropped + es.length := by
  obtain ⟨examined, hexamines, hfault, htracker, hdropped⟩ := t.feed_examines place dropped es
  obtain ⟨ignored, hes⟩ := hexamines.start
  have hnone : inSequence t.trace.traceId place examined = [] := by
    rw [hes, inSequence_append] at h
    exact (List.append_eq_nil_iff.mp h).1
  have hall : examined = es := hexamines.all_of_ok (by rw [hnone]; rfl)
  rw [hnone] at hfault htracker hdropped
  rw [hall] at hdropped
  exact ⟨hfault, htracker, hdropped⟩

theorem hushed_finish (t : Tracker) : t.finish.hushed = t.hushed.finish := by
  unfold finish
  have hsame : t.hushed.openEvents = t.openEvents := rfl
  rw [hsame]
  split
  · rfl
  · simp [hushed, note, undropped, Notice.isDrop]

end Tracker

/-- Events that are all one place behind are out of sequence. -/
theorem inSequence_of_late {traceId : Int} {place : Nat} {es : List Event}
    (h : InPlace traceId (place + 1) es) : inSequence traceId place es = [] := by
  induction es generalizing place with
  | nil => rfl
  | cons e rest ih =>
    obtain ⟨hindex, -, hrest⟩ := h
    rw [inSequence]
    split
    · rename_i hcheck
      have hplace := (checkSequence_eq_ok_iff.mp hcheck).1
      omega
    · exact ih hrest

/-- What stands before and after an event that is at its place. -/
theorem inPlace_around {traceId : Int} {place : Nat} {es : List Event} (h : InPlace traceId 0 es)
    (hplace : place < es.length) :
    InPlace traceId 0 (es.take place) ∧ InPlace traceId (place + 1) (es.drop (place + 1)) := by
  have hfront := h
  have hback := h
  rw [← List.take_append_drop place es, inPlace_append] at hfront
  rw [← List.take_append_drop (place + 1) es, inPlace_append, List.length_take_of_le hplace,
    Nat.zero_add] at hback
  exact ⟨hfront.1, hback.2⟩

theorem atPlaces_eraseIdx {traceId : Int} {place : Nat} {es : List Event}
    (h : InPlace traceId 0 es) (hplace : place < es.length) :
    atPlaces traceId (es.eraseIdx place) = es.take place := by
  obtain ⟨hbefore, hafter⟩ := inPlace_around h hplace
  rw [atPlaces_eq, List.eraseIdx_eq_take_drop_succ, inSequence_append, inSequence_of_inPlace hbefore,
    List.length_take_of_le hplace.le, Nat.zero_add, inSequence_of_late hafter, List.append_nil]

/-! ## What a batch comes to -/

/-- What a batch comes to after the last step of its tracker. -/
def Step.result (s : Step) (traceId : Int) (dropped : Nat) : BatchResult :=
  match s.fault with
  | some fault =>
    ⟨.failed traceId fault, dropped, s.tracker.model, s.tracker.notices ++ [.failed traceId fault]⟩
  | none =>
    ⟨s.tracker.finish.conclude.1, dropped, s.tracker.finish.model,
      s.tracker.finish.notices ++ s.tracker.finish.conclude.2⟩

theorem Step.result_dropped (s : Step) (traceId : Int) (dropped : Nat) :
    (s.result traceId dropped).dropped = dropped := by
  unfold result
  split <;> rfl

/-- The result, but for the notices of dropped events. -/
def BatchResult.hushed (r : BatchResult) : BatchResult :=
  { r with notices := undropped r.notices }

theorem Step.result_hushed {s s' : Step} (hfault : s.fault = s'.fault)
    (htracker : s.tracker.hushed = s'.tracker.hushed) (traceId : Int) (dropped : Nat) :
    (s.result traceId dropped).hushed = (s'.result traceId dropped).hushed := by
  have hread : ∀ s : Step, (s.result traceId dropped).hushed =
      ((Step.mk s.tracker.hushed s.fault).result traceId dropped).hushed := by
    intro s
    obtain ⟨t, fault⟩ := s
    cases fault with
    | some fault => simp [Step.result, BatchResult.hushed, Tracker.hushed, undropped]
    | none =>
      simp only [Step.result, ← Tracker.hushed_finish]
      simp [BatchResult.hushed, Tracker.hushed, undropped, Tracker.conclude]
  rw [hread s, hread s', hfault, htracker]

theorem reconstruct_eq_result {settings : Settings} {selection : Selection} {model : Model}
    {b : Batch} (hselected : selection.contains b.traceId) :
    reconstruct settings selection model b =
      let p := (Tracker.start b.trace settings.matching model).feed 0 0 b.events
      (Step.mk p.tracker p.fault).result b.traceId p.dropped := by
  unfold reconstruct
  rw [if_pos hselected]
  generalize (Tracker.start b.trace settings.matching model).feed 0 0 b.events = p
  obtain ⟨t, dropped, fault⟩ := p
  cases fault <;> rfl

/-- A batch comes to what a run over the events at their places comes to, of those that are
examined. -/
theorem reconstruct_examines {settings : Settings} {selection : Selection} {model : Model}
    {b : Batch} (hselected : selection.contains b.traceId) :
    let start := Tracker.start b.trace settings.matching model
    let result := reconstruct settings selection model b
    ∃ examined, start.Examines 0 b.events examined ∧
      result.dropped + (inSequence b.traceId 0 examined).length = examined.length ∧
      result.hushed =
        ((start.run (inSequence b.traceId 0 examined)).result b.traceId result.dropped).hushed := by
  intro start result
  obtain ⟨examined, hexamines, hfault, htracker, hdropped⟩ := start.feed_examines 0 0 b.events
  have hresult : result = (Step.mk (start.feed 0 0 b.events).tracker
      (start.feed 0 0 b.events).fault).result b.traceId (start.feed 0 0 b.events).dropped :=
    reconstruct_eq_result hselected
  have hcount : result.dropped = (start.feed 0 0 b.events).dropped := by
    rw [hresult, Step.result_dropped]
  refine ⟨examined, hexamines, ?_, ?_⟩
  · rw [hcount]
    exact hdropped.trans (Nat.zero_add _)
  · rw [hcount, hresult]
    exact Step.result_hushed hfault htracker _ _

/-- The batch without its event at a place. -/
def Batch.without (b : Batch) (place : Nat) : Batch :=
  { b with events := b.events.eraseIdx place }

/-- If an event is missing from a batch, what came before it is taken in, and if no fault is found
in that, all that came after it is dropped. -/
theorem reconstruct_without {settings : Settings} {selection : Selection} {model : Model}
    {b : Batch} {place : Nat} (hselected : selection.contains b.traceId)
    (hin : InPlace b.traceId 0 b.events) (hplace : place < b.events.length) :
    let taken := (Tracker.start b.trace settings.matching model).run (b.events.take place)
    let dropped := if taken.fault.isSome then 0 else b.events.length - (place + 1)
    (reconstruct settings selection model (b.without place)).dropped = dropped ∧
      (reconstruct settings selection model (b.without place)).hushed =
        (taken.result b.traceId dropped).hushed := by
  intro taken dropped
  let start := Tracker.start b.trace settings.matching model
  have hsplit : b.events.eraseIdx place = b.events.take place ++ b.events.drop (place + 1) :=
    List.eraseIdx_eq_take_drop_succ b.events place
  have hlength : (b.events.take place).length = place := List.length_take_of_le hplace.le
  obtain ⟨hbefore, hafter⟩ := inPlace_around hin hplace
  have hfront : start.feed 0 0 (b.events.take place) = ⟨taken.tracker, 0, taken.fault⟩ :=
    Tracker.feed_of_inPlace hbefore
  have hresult : reconstruct settings selection model (b.without place) =
      let p := start.feed 0 0 (b.events.eraseIdx place)
      (Step.mk p.tracker p.fault).result b.traceId p.dropped :=
    @reconstruct_eq_result settings selection model (b.without place) hselected
  rw [hsplit, Tracker.feed_append, hfront, hlength, Nat.zero_add] at hresult
  cases hfault : taken.fault with
  | some fault =>
    have hnone : dropped = 0 := by simp [dropped, hfault]
    simp only [hfault] at hresult
    rw [hresult, hnone, ← hfault]
    exact ⟨Step.result_dropped _ _ _, rfl⟩
  | none =>
    have hall : dropped = (b.events.drop (place + 1)).length := by simp [dropped, hfault]
    have htrace : taken.tracker.trace = b.trace := by
      have := Tracker.feed_trace start 0 0 (b.events.take place)
      rwa [hfront] at this
    have hlate : inSequence taken.tracker.trace.traceId place
        (b.events.drop (place + 1)) = [] := by
      rw [htrace]
      exact inSequence_of_late hafter
    obtain ⟨hok, htracker, hdropped⟩ := Tracker.feed_of_none_in hlate 0
    simp only [hfault] at hresult
    rw [hresult, hdropped, hall, Nat.zero_add]
    exact ⟨Step.result_dropped _ _ _, Step.result_hushed (hok.trans hfault.symm) htracker _ _⟩

/-- The handler of a selected batch is given, in their order, exactly the events that are at their
places, up to the first one that shows a fault. Every other event up to there adds one to the dropped
events and does nothing else; what comes after a fault is neither given nor counted. So the order
indices that are given increase, and an event that is missing from a batch without other gaps costs
all that follow it. A batch that is not selected gives nothing and counts nothing. -/
theorem events_given_are_in_place (settings : Settings) (selection : Selection) (model : Model)
    (b : Batch) :
    let start := Tracker.start b.trace settings.matching model
    let result := reconstruct settings selection model b
    (∀ tallies : Tallies,
      (tallies.count result.dropped result.outcome).dropped = tallies.dropped + result.dropped) ∧
    (¬ selection.contains b.traceId →
      result = ⟨.skipped b.traceId, 0, model, [.notSelected b.traceId]⟩) ∧
    (selection.contains b.traceId →
      (∃ examined ignored, b.events = examined ++ ignored ∧
        let given := atPlaces b.traceId examined
        given.Pairwise (fun d e => d.orderIndex < e.orderIndex) ∧
        result.dropped + given.length = examined.length ∧
        result.hushed = ((start.run given).result b.traceId result.dropped).hushed ∧
        match (start.run given).fault with
        | none => ignored = []
        | some _ => ∃ before last, examined = before ++ [last] ∧
            last.orderIndex = (before.length : Int) ∧ last.traceId = b.traceId ∧
            (start.run (atPlaces b.traceId before)).fault = none) ∧
      (InPlace b.traceId 0 b.events → ∀ place < b.events.length,
        let taken := start.run (b.events.take place)
        let short := reconstruct settings selection model (b.without place)
        atPlaces b.traceId (b.without place).events = b.events.take place ∧
        short.dropped = (if taken.fault.isSome then 0 else b.events.length - (place + 1)) ∧
        short.hushed = (taken.result b.traceId short.dropped).hushed)) := by
  intro start result
  refine ⟨?_, ?_, fun hselected => ⟨?_, ?_⟩⟩
  · intro tallies
    cases result.outcome <;> rfl
  · intro hunselected
    exact if_neg hunselected
  · obtain ⟨examined, hexamines, hdropped, hhushed⟩ :=
      @reconstruct_examines settings selection model b hselected
    obtain ⟨ignored, hevents⟩ := hexamines.start
    refine ⟨examined, ignored, hevents, ?_⟩
    simp only [atPlaces_eq]
    refine ⟨inSequence_pairwise _ _ _, hdropped, hhushed, ?_⟩
    cases hfault : (start.run (inSequence b.traceId 0 examined)).fault with
    | none => simpa [hevents] using hexamines.all_of_ok hfault
    | some fault =>
      obtain ⟨before, last, hexamined, hlast, hok⟩ := hexamines.last_of_fault fault hfault
      rw [Nat.zero_add] at hlast
      obtain ⟨hindex, htrace⟩ := checkSequence_eq_ok_iff.mp hlast
      exact ⟨before, last, hexamined, hindex, htrace, hok⟩
  · intro hin place hplace taken short
    obtain ⟨hdropped, hhushed⟩ :=
      @reconstruct_without settings selection model b place hselected hin hplace
    refine ⟨atPlaces_eraseIdx hin hplace, hdropped, ?_⟩
    rw [hdropped]
    exact hhushed

/-- An operation begins, two events are out of sequence, another operation ends, and one more event
follows. -/
def disorderedBatch : Batch where
  trace := { traceId := 7 }
  events :=
    [.before .operation ⟨1, 7, 0⟩ ⟨"void a.A.a()", "a.A"⟩,
     .split ⟨2, 7, 0⟩,
     strayEnd,
     .after .operation ⟨3, 7, 3⟩ ⟨"void b.B.b()", "b.B"⟩,
     .after .operation ⟨4, 7, 5⟩ ⟨"void a.A.a()", "a.A"⟩]

/-- What is out of sequence is dropped up to the fault, what follows a missing event is dropped, and
a batch that is not selected is not looked at. -/
theorem disorderedBatch_given :
    (∃ examined ignored, disorderedBatch.events = examined ++ ignored ∧
      (reconstruct {} .all {} disorderedBatch).dropped + (atPlaces 7 examined).length =
        examined.length ∧ ignored ≠ []) ∧
    (reconstruct {} .all {} disorderedBatch).dropped = 2 ∧
    (reconstruct {} .all {} (answeredCall.without 2)).dropped = 2 ∧
    atPlaces 7 (answeredCall.without 2).events = answeredCall.events.take 2 ∧
    (reconstruct {} (.only [⟨8, 9⟩]) {} disorderedBatch).dropped = 0 := by
  have hdropped : (reconstruct {} .all {} disorderedBatch).dropped = 2 := by decide
  obtain ⟨hexamined, -⟩ :=
    (events_given_are_in_place {} .all {} disorderedBatch).2.2 (by decide)
  obtain ⟨examined, ignored, hevents, -, hcount, -, hstop⟩ := hexamined
  have hignored : ignored ≠ [] := by
    intro hnone
    rw [hnone, List.append_nil] at hevents
    rw [hdropped, ← hevents] at hcount
    exact absurd hcount (by decide)
  have hcomplete : InPlace answeredCall.traceId 0 answeredCall.events :=
    ⟨rfl, rfl, rfl, rfl, rfl, rfl, rfl, rfl, rfl, rfl, trivial⟩
  obtain ⟨hgiven, hlate, -⟩ :=
    ((events_given_are_in_place {} .all {} answeredCall).2.2 (by decide)).2 hcomplete 2 (by decide)
  have hunselected := (events_given_are_in_place {} (.only [⟨8, 9⟩]) {} disorderedBatch).2.1
    (by decide)
  refine ⟨⟨examined, ignored, hevents, hcount, hignored⟩, hdropped, hlate.trans (by decide), hgiven,
    ?_⟩
  rw [hunselected]

end Retrace
