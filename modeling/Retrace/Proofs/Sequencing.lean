import Retrace.Proofs.History
import Retrace.Reconstruction

/-! Sequencing. Of the events of a batch those are taken in that are at their places, so what is
taken in has growing order indices. Dropping the others changes nothing but the notices. A batch
whose trace comes to messages has therefore a history, over the events that were taken in. -/

namespace Retrace

/-- The events from a place on that are at their places and in their trace. -/
def inSequence (traceId : Int) (place : Nat) : List Event → List Event
  | [] => []
  | e :: rest =>
    match checkSequence e traceId place with
    | .ok () => e :: inSequence traceId (place + 1) rest
    | .error _ => inSequence traceId (place + 1) rest

/-- The events of a batch that are taken in unless there is a fault before them. -/
def Batch.inSequence (b : Batch) : List Event :=
  Retrace.inSequence b.traceId 0 b.events

/-- Are all the events at their places, from a place on, and in their trace? -/
def InPlace (traceId : Int) : Nat → List Event → Prop
  | _, [] => True
  | place, e :: rest =>
    e.orderIndex = place ∧ e.traceId = traceId ∧ InPlace traceId (place + 1) rest

theorem inPlace_append {traceId : Int} {place : Nat} {ds es : List Event} :
    InPlace traceId place (ds ++ es) ↔
      InPlace traceId place ds ∧ InPlace traceId (place + ds.length) es := by
  induction ds generalizing place with
  | nil => simp [InPlace]
  | cons d rest ih =>
    simp only [List.cons_append, InPlace, ih, List.length_cons, and_assoc, Nat.add_assoc,
      Nat.add_comm 1]

theorem checkSequence_eq_ok_iff {e : Event} {traceId expected : Int} :
    checkSequence e traceId expected = .ok () ↔ e.orderIndex = expected ∧ e.traceId = traceId := by
  unfold checkSequence
  split
  · simp [*]
  · split <;> simp_all

theorem le_of_mem_inSequence {traceId : Int} {place : Nat} {es : List Event} :
    ∀ e ∈ inSequence traceId place es, place ≤ e.orderIndex := by
  induction es generalizing place with
  | nil => simp [inSequence]
  | cons d rest ih =>
    intro e he
    simp only [inSequence] at he
    split at he
    · rename_i hcheck
      rcases List.mem_cons.mp he with rfl | he
      · exact Int.le_of_eq (checkSequence_eq_ok_iff.mp hcheck).1.symm
      · have := ih e he
        omega
    · have := ih e he
      omega

theorem inSequence_append {traceId : Int} {place : Nat} (ds es : List Event) :
    inSequence traceId place (ds ++ es) =
      inSequence traceId place ds ++ inSequence traceId (place + ds.length) es := by
  induction ds generalizing place with
  | nil => rfl
  | cons d rest ih =>
    simp only [List.cons_append, inSequence, ih, List.length_cons, Nat.add_assoc, Nat.add_comm 1]
    split <;> rfl

/-- What is taken in stands at its place. -/
theorem getElem?_of_mem_inSequence {traceId : Int} {place : Nat} {es : List Event} :
    ∀ e ∈ inSequence traceId place es,
      ∃ k, es[k]? = some e ∧ checkSequence e traceId (place + k : Nat) = .ok () := by
  induction es generalizing place with
  | nil => simp [inSequence]
  | cons d rest ih =>
    intro e he
    have hlater : ∀ k, place + 1 + k = place + (k + 1) := fun k => by omega
    simp only [inSequence] at he
    split at he
    · rename_i hcheck
      rcases List.mem_cons.mp he with rfl | he
      · exact ⟨0, rfl, hcheck⟩
      · obtain ⟨k, hk, hplace⟩ := ih e he
        exact ⟨k + 1, hk, hlater k ▸ hplace⟩
    · obtain ⟨k, hk, hplace⟩ := ih e he
      exact ⟨k + 1, hk, hlater k ▸ hplace⟩

theorem inSequence_subset (traceId : Int) (place : Nat) (es : List Event) :
    inSequence traceId place es ⊆ es := by
  intro e he
  obtain ⟨_, hk, _⟩ := getElem?_of_mem_inSequence e he
  exact List.mem_of_getElem? hk

theorem lt_of_mem_inSequence {traceId : Int} {place : Nat} {es : List Event} :
    ∀ e ∈ inSequence traceId place es, e.orderIndex < (place + es.length : Nat) := by
  intro e he
  obtain ⟨k, hk, hplace⟩ := getElem?_of_mem_inSequence e he
  obtain ⟨hlt, _⟩ := List.getElem?_eq_some_iff.mp hk
  rw [(checkSequence_eq_ok_iff.mp hplace).1]
  omega

theorem inSequence_of_inPlace {traceId : Int} {place : Nat} {es : List Event}
    (h : InPlace traceId place es) : inSequence traceId place es = es := by
  induction es generalizing place with
  | nil => rfl
  | cons e rest ih =>
    obtain ⟨hindex, hid, hrest⟩ := h
    rw [inSequence, checkSequence_eq_ok_iff.mpr ⟨hindex, hid⟩]
    exact congrArg (e :: ·) (ih hrest)

theorem inSequence_pairwise (traceId : Int) (place : Nat) (es : List Event) :
    (inSequence traceId place es).Pairwise fun d e => d.orderIndex < e.orderIndex := by
  induction es generalizing place with
  | nil => exact List.Pairwise.nil
  | cons d rest ih =>
    simp only [inSequence]
    split
    · rename_i hcheck
      refine List.pairwise_cons.mpr ⟨?_, ih (place + 1)⟩
      intro e he
      have hd := (checkSequence_eq_ok_iff.mp hcheck).1
      have := le_of_mem_inSequence e he
      omega
    · exact ih (place + 1)

namespace Tracker

/-! ## What events keep -/

section Keeping

theorem andThen_keeps {P : Tracker → Prop} {s : Step} {next : Tracker → Step} (h : P s.tracker)
    (hnext : ∀ u, P u → P (next u).tracker) : P (s.andThen next).tracker := by
  obtain ⟨t, fault⟩ := s
  cases fault with
  | none => exact hnext t h
  | some fault => exact h

variable {P : Tracker → Prop}
  (hholding : ∀ u openEvents slots nextEoi notices, P u →
    P { u with openEvents, slots, nextEoi, notices })
  (hrecord : ∀ u i, P u → P (record u i).tracker)
  {t : Tracker} (h : P t)

include hrecord h in
theorem recordAll_keeps (is : List Invocation) : P (t.recordAll is).tracker := by
  induction is generalizing t with
  | nil => exact h
  | cons i rest ih => exact andThen_keeps (hrecord t i h) fun u hu => ih hu

include hholding hrecord h

theorem closeCalls_keeps (signature : String) (time : Int) :
    P (t.closeCalls signature time).tracker := by
  unfold closeCalls
  split
  · rename_i openEvents slots _
    exact recordAll_keeps hrecord (hholding t openEvents slots t.nextEoi t.notices h) _
  · exact h
  · exact h

theorem closeInnermost_keeps (kind : OperationKind) (stamp : Stamp) (operation : OperationRef)
    (time : Int) : P (t.closeInnermost kind stamp operation time).tracker := by
  obtain ⟨notices, hclose⟩ := closeInnermost_eq t kind stamp operation time
  rw [hclose]
  unfold recordInnermost
  split
  · exact hholding t _ t.slots t.nextEoi notices h
  · rename_i left _
    exact hrecord _ _ (hholding t _ left t.nextEoi notices h)

theorem endOperation_keeps (kind : OperationKind) (time : Int) (operation : OperationRef) :
    P (t.endOperation kind time operation).tracker := by
  unfold endOperation
  split
  · rename_i below _
    split
    · exact h
    · split
      · exact h
      · exact closeInnermost_keeps hholding hrecord
          (hholding t below t.slots t.nextEoi t.notices h) _ _ _ _
  · exact h

/-- What does not depend on the open invocations and is kept when an invocation is recorded, every
event keeps, also one that shows a fault. -/
theorem step_keeps (e : Event) : P (t.step e).tracker := by
  have hpush : ∀ signature time, P ((t.closeCalls signature time).andThen fun u =>
      ⟨u.pushOpen e, none⟩).tracker := fun signature time =>
    andThen_keeps (closeCalls_keeps hholding hrecord h signature time) fun u hu =>
      hholding u _ _ _ u.notices hu
  have hleave : ∀ kind time operation, P (t.leave kind time operation).tracker :=
    fun kind time operation =>
      andThen_keeps (closeCalls_keeps hholding hrecord h _ _) fun u hu =>
        endOperation_keeps hholding hrecord hu kind time operation
  have hnote : ∀ notice, P (t.note notice) := fun notice =>
    hholding t t.openEvents t.slots t.nextEoi _ h
  cases e with
  | call kind stamp caller callee => exact hpush _ _
  | before kind stamp operation =>
    simp only [step, enter]
    split
    · rename_i how _
      obtain ⟨notices, hguess⟩ := noteGuess_eq t stamp operation how
      simp only [hguess]
      exact hholding t _ t.slots t.nextEoi notices h
    · exact hpush _ _
  | after kind stamp operation => exact hleave _ _ _
  | afterFailed kind stamp operation cause => exact hleave _ _ _
  | split stamp => exact hnote _
  | unknown name stamp => exact hnote _

theorem run_keeps (es : List Event) : P (t.run es).tracker := by
  induction es generalizing t with
  | nil => exact h
  | cons e rest ih =>
    exact andThen_keeps (step_keeps hholding hrecord h e) fun u hu => ih hu

end Keeping

theorem record_trace (t : Tracker) (i : Invocation) : (t.record i).tracker.trace = t.trace := by
  obtain ⟨_, _, hrecord⟩ := exists_record t i
  rw [hrecord]

theorem exists_recordAll (t : Tracker) (is : List Invocation) :
    ∃ executions model, (t.recordAll is).tracker = { t with executions, model } := by
  refine @recordAll_keeps (fun u => ∃ executions model, u = { t with executions, model })
    (fun u i hu => ?_) t ⟨t.executions, t.model, rfl⟩ is
  obtain ⟨_, _, rfl⟩ := hu
  exact exists_record _ i

/-- No event moves a tracker to another trace. -/
theorem step_trace (t : Tracker) (e : Event) : (t.step e).tracker.trace = t.trace :=
  @step_keeps (fun u => u.trace = t.trace) (fun _ _ _ _ _ hu => hu)
    (fun u i hu => (record_trace u i).trans hu) t rfl e

/-! ## What is taken in -/

/-- After an event at its place, what came is below the next place. -/
theorem orderIndex_lt_next {past : List Event} {e : Event} {place : Nat}
    (hpast : ∀ d ∈ past, d.orderIndex < place) (hplace : e.orderIndex = place) :
    ∀ d ∈ past ++ [e], d.orderIndex < (place + 1 : Nat) := by
  intro d hd
  rcases List.mem_append.mp hd with hd | hd
  · have := hpast d hd
    omega
  · rw [List.mem_singleton.mp hd, hplace]
    omega

/-- What a notice and a step with a newer event keep, along with the events that came, a batch
without a fault keeps, along with the events that are taken in. -/
theorem feed_follows {Q : List Event → Tracker → Prop}
    (hnote : ∀ past t notice, Q past t → Q past (t.note notice))
    (hstep : ∀ past t e, Q past t → (∀ d ∈ past, d.orderIndex < e.orderIndex) →
      (t.step e).fault = none → Q (past ++ [e]) (t.step e).tracker)
    {past es : List Event} {t : Tracker} {place dropped : Nat} (h : Q past t)
    (hpast : ∀ d ∈ past, d.orderIndex < place) (hok : (t.feed place dropped es).fault = none) :
    Q (past ++ inSequence t.trace.traceId place es) (t.feed place dropped es).tracker := by
  induction es generalizing past t place dropped with
  | nil => simpa [Tracker.feed, inSequence] using h
  | cons e rest ih =>
    simp only [Tracker.feed, inSequence] at hok ⊢
    cases hcheck : checkSequence e t.trace.traceId place with
    | error why =>
      rw [hcheck] at hok
      exact ih (hnote past t _ h) (fun d hd => Int.lt_trans (hpast d hd) (by omega)) hok
    | ok done =>
      rw [hcheck] at hok
      cases hfault : (t.step e).fault with
      | some fault => simp [hfault] at hok
      | none =>
        simp only [hfault] at hok ⊢
        have hplace := (checkSequence_eq_ok_iff.mp hcheck).1
        have hnext := hstep past t e h (fun d hd => hplace ▸ hpast d hd) hfault
        simpa [step_trace] using ih hnext (orderIndex_lt_next hpast hplace) hok

/-- An event at its place is newer than all that were taken in before. -/
theorem Reached.taken {trace : TraceInfo} {m : Matching} {past : List Event} {t : Tracker}
    {fs : List Frame} {ended : List Invocation} {place : Nat} {e : Event}
    (h : Reached trace m past t fs ended) (hpast : ∀ d ∈ past, d.orderIndex < place)
    (hcheck : checkSequence e trace.traceId place = .ok ()) (hok : (t.step e).fault = none) :
    ∃ gs all, Reached trace m (past ++ [e]) (t.step e).tracker gs all ∧
      ∀ d ∈ past ++ [e], d.orderIndex < (place + 1 : Nat) := by
  have hplace := (checkSequence_eq_ok_iff.mp hcheck).1
  obtain ⟨gs, more, _, hnext⟩ := h.step (fun d hd => hplace ▸ hpast d hd) hok
  exact ⟨gs, _, hnext, orderIndex_lt_next hpast hplace⟩

theorem Reached.feed {trace : TraceInfo} {m : Matching} {past es : List Event} {t : Tracker}
    {fs : List Frame} {ended : List Invocation} {place dropped : Nat}
    (h : Reached trace m past t fs ended) (hpast : ∀ d ∈ past, d.orderIndex < place)
    (hok : (t.feed place dropped es).fault = none) :
    ∃ gs all, Reached trace m (past ++ inSequence trace.traceId place es)
      (t.feed place dropped es).tracker gs all := by
  have hfollows := @feed_follows (fun es u => ∃ gs all, Reached trace m es u gs all)
    (fun _ _ notice ⟨gs, all, hu⟩ => ⟨gs, all, hu.noted notice⟩)
    (fun _ _ _ ⟨_, _, hu⟩ hnew hstep =>
      have ⟨hs, more, _, hnext⟩ := hu.step hnew hstep
      ⟨hs, _, hnext⟩)
    past es t place dropped ⟨fs, ended, h⟩ hpast hok
  rwa [h.info] at hfollows

/-- What is taken in of a batch without a fault has a history, and what ended in it is on record. -/
theorem exists_recounts_feed (trace : TraceInfo) (m : Matching) (model : Model) {es : List Event}
    (hok : ((start trace m model).feed 0 0 es).fault = none) :
    ∃ fs ended, Recounts (start trace m model) (inSequence trace.traceId 0 es)
      ((start trace m model).feed 0 0 es).tracker fs ended :=
  (@feed_follows
    (fun es u => (es.Pairwise fun d e => d.orderIndex < e.orderIndex) ∧
      ∃ gs all, Recounts (start trace m model) es u gs all)
    (fun _ _ notice ⟨hinc, gs, all, hu⟩ => ⟨hinc, gs, all, hu.note notice⟩)
    (fun past _ e ⟨hinc, _, _, hu⟩ hnew hstep =>
      have hinc' : (past ++ [e]).Pairwise fun d e => d.orderIndex < e.orderIndex :=
        List.pairwise_append.mpr ⟨hinc, List.pairwise_singleton _ _, by simpa using hnew⟩
      have ⟨hs, _, hnext⟩ := hu.step hinc' hstep
      ⟨hinc', hs, _, hnext⟩)
    [] es _ 0 0 ⟨.nil, [], [], recounts_start trace m model⟩ (by simp) hok).2

/-! ## A batch that is complete -/

/-- Events that are all at their places are taken in like a run. -/
theorem feed_of_inPlace {t : Tracker} {es : List Event} {place dropped : Nat}
    (h : InPlace t.trace.traceId place es) :
    t.feed place dropped es = ⟨(t.run es).tracker, dropped, (t.run es).fault⟩ := by
  induction es generalizing t place with
  | nil => rfl
  | cons e rest ih =>
    obtain ⟨hindex, hid, hrest⟩ := h
    have hcheck := checkSequence_eq_ok_iff.mpr ⟨hindex, hid⟩
    simp only [Tracker.feed, hcheck, run, Step.andThen]
    cases hfault : (t.step e).fault with
    | some fault => simp only [hfault]
    | none =>
      rw [← step_trace t e] at hrest
      exact ih hrest

theorem finish_of_closed {t : Tracker} (h : t.openEvents = []) : t.finish = t := by
  rw [finish, h]
  rfl

theorem finish_executions (t : Tracker) : t.finish.executions = t.executions := by
  unfold finish
  split <;> rfl

theorem finish_trace (t : Tracker) : t.finish.trace = t.trace := by
  unfold finish
  split <;> rfl

theorem conclude_of_finish (t : Tracker) : t.finish.conclude.1 = t.conclude.1 := by
  rw [conclude, conclude, finish_executions, finish_trace]

theorem finish_model (t : Tracker) : t.finish.model = t.model := by
  unfold finish
  split <;> rfl

/-- How many events were dropped before changes only how many are dropped in the end. -/
theorem feed_eq (t : Tracker) (place dropped : Nat) (es : List Event) :
    t.feed place dropped es = ⟨(t.feed place 0 es).tracker,
      dropped + (t.feed place 0 es).dropped, (t.feed place 0 es).fault⟩ := by
  induction es generalizing t place dropped with
  | nil => rfl
  | cons e rest ih =>
    simp only [feed]
    cases checkSequence e t.trace.traceId place with
    | error why =>
      simp only
      rw [ih _ _ (dropped + 1), ih _ _ (0 + 1)]
      simp only [Nat.zero_add, Nat.add_assoc]
    | ok _ =>
      simp only
      cases (t.step e).fault with
      | none => exact ih _ _ _
      | some fault => rfl

/-- Events are taken in one part after the other, up to the first fault. -/
theorem feed_append (t : Tracker) (place dropped : Nat) (ds es : List Event) :
    t.feed place dropped (ds ++ es) =
      match (t.feed place dropped ds).fault with
      | none => (t.feed place dropped ds).tracker.feed (place + ds.length)
          (t.feed place dropped ds).dropped es
      | some _ => t.feed place dropped ds := by
  induction ds generalizing t place dropped with
  | nil => rfl
  | cons d rest ih =>
    have hlength : place + (d :: rest).length = place + 1 + rest.length := by
      rw [List.length_cons]
      omega
    rw [hlength]
    simp only [List.cons_append, feed]
    cases checkSequence d t.trace.traceId place with
    | error why => exact ih _ _ _
    | ok _ =>
      cases hstep : (t.step d).fault with
      | none => simpa only [hstep] using ih _ _ _
      | some fault => rfl

/-- What a notice and a step without a fault keep, a batch without a fault keeps. -/
theorem feed_keeps {P : Tracker → Prop} (hnote : ∀ t notice, P t → P (t.note notice))
    (hstep : ∀ t e, P t → (t.step e).fault = none → P (t.step e).tracker) {t : Tracker}
    {place dropped : Nat} {es : List Event} (h : P t) (hok : (t.feed place dropped es).fault = none) :
    P (t.feed place dropped es).tracker := by
  induction es generalizing t place dropped with
  | nil => exact h
  | cons e rest ih =>
    simp only [feed] at hok ⊢
    cases hcheck : checkSequence e t.trace.traceId place with
    | error why =>
      rw [hcheck] at hok
      exact ih (hnote t _ h) hok
    | ok _ =>
      rw [hcheck] at hok
      cases hfault : (t.step e).fault with
      | some fault => simp [hfault] at hok
      | none =>
        simp only [hfault] at hok ⊢
        exact ih (hstep t e h hfault) hok

theorem feed_trace (t : Tracker) (place dropped : Nat) (es : List Event) :
    (t.feed place dropped es).tracker.trace = t.trace := by
  induction es generalizing t place dropped with
  | nil => rfl
  | cons e rest ih =>
    unfold feed
    split
    · exact ih _ _ _
    · simp only
      split
      · exact (ih _ _ _).trans (t.step_trace e)
      · exact t.step_trace e

theorem conclude_executions (t : Tracker) :
    t.conclude.1.isFailed = false ∧ t.conclude.1.executions? = some t.executions := by
  unfold conclude
  split <;> exact ⟨rfl, rfl⟩

theorem conclude_traceId (t : Tracker) : t.conclude.1.traceId = t.trace.traceId := by
  unfold conclude
  split <;> rfl

end Tracker

/-- A batch that has been taken in without a fault comes to what its tracker concludes. -/
theorem reconstruct_of_feed {settings : Settings} {selection : Selection} {model : Model}
    {batch : Batch} {t : Tracker} {dropped : Nat} (hselected : selection.contains batch.traceId)
    (h : (Tracker.start batch.trace settings.matching model).feed 0 0 batch.events =
      ⟨t, dropped, none⟩) :
    reconstruct settings selection model batch =
      ⟨t.finish.conclude.1, dropped, t.finish.model, t.finish.notices ++ t.finish.conclude.2⟩ := by
  unfold reconstruct
  rw [if_pos hselected, h]

/-- A batch that comes to executions has been selected and taken in without a fault, and they are
those that were recorded. -/
theorem exists_feed_of_executions {settings : Settings} {selection : Selection} {model : Model}
    {batch : Batch} {executions : ExecutionTrace}
    (h : (reconstruct settings selection model batch).outcome.executions? = some executions) :
    ∃ t dropped, selection.contains batch.traceId ∧
      (Tracker.start batch.trace settings.matching model).feed 0 0 batch.events =
        ⟨t, dropped, none⟩ ∧ t.executions = executions := by
  have hselected : selection.contains batch.traceId := by
    by_contra hout
    simp [reconstruct, hout, Outcome.executions?] at h
  have hok : ((Tracker.start batch.trace settings.matching model).feed 0 0 batch.events).fault =
      none := by
    by_contra hfault
    obtain ⟨fault, hfault⟩ := Option.ne_none_iff_exists'.mp hfault
    simp [reconstruct, hselected, hfault, Outcome.executions?] at h
  generalize hfeed : (Tracker.start batch.trace settings.matching model).feed 0 0 batch.events =
    progress at hok
  obtain ⟨t, dropped, fault⟩ := progress
  obtain rfl : fault = none := hok
  rw [reconstruct_of_feed hselected hfeed, t.finish.conclude_executions.2, t.finish_executions] at h
  exact ⟨t, dropped, hselected, rfl, Option.some.inj h⟩

/-- What came of a batch that comes to executions has a history in the events in sequence. -/
theorem reconstruct_executions {settings : Settings} {selection : Selection} {model : Model}
    {batch : Batch} {executions : ExecutionTrace}
    (h : (reconstruct settings selection model batch).outcome.executions? = some executions) :
    ∃ t fs ended, Tracker.Reached batch.trace settings.matching batch.inSequence t fs ended ∧
      t.executions = executions ∧
      (reconstruct settings selection model batch).outcome = t.conclude.1 := by
  obtain ⟨t, dropped, hselected, hfeed, hexecutions⟩ := exists_feed_of_executions h
  have hok : ((Tracker.start batch.trace settings.matching model).feed 0 0 batch.events).fault =
      none := by rw [hfeed]
  obtain ⟨fs, ended, hreached⟩ :=
    (Tracker.reached_start batch.trace settings.matching model).feed (by simp) hok
  rw [hfeed] at hreached
  refine ⟨t, fs, ended, hreached, hexecutions, ?_⟩
  rw [reconstruct_of_feed hselected hfeed, t.conclude_of_finish]

/-- The messages of a batch that comes to messages are those of the recorded executions. -/
theorem reconstruct_success {settings : Settings} {selection : Selection} {model : Model}
    {batch : Batch} {traceId : Int} {executions : ExecutionTrace} {messages : MessageTrace}
    (h : (reconstruct settings selection model batch).outcome =
      .success traceId executions messages) : executions.toMessages = .ok messages := by
  obtain ⟨t, _, _, _, rfl, hconclude⟩ := reconstruct_executions
    (show (reconstruct settings selection model batch).outcome.executions? = _ by rw [h]; rfl)
  rw [h, Tracker.conclude] at hconclude
  split at hconclude
  · rename_i messages' hmessages
    cases hconclude
    exact hmessages
  · cases hconclude

end Retrace
