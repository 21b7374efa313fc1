import Retrace.Proofs.Retelling

/-! Insertion. One more event is put into a batch, of a kind that is ignored or out of sequence, and
the events after it are moved up by one place. The batch comes to the same as before. Order indices
count only where a call and the beginning after it are compared, and every two events on the same
side of the new one are as far apart as they were. So all depends on the two between which it is put:
they must not be a call and the beginning that it announces. -/

namespace Retrace

/-- Order indices from a place on are raised by one. -/
def raisedFrom (place : Nat) (i : Int) : Int :=
  if place ≤ i then i + 1 else i

/-- Only an index right before the place and the index at the place are parted. -/
theorem raisedFrom_next {place : Nat} {i j : Int} (h : i + 1 = place → j ≠ place) :
    raisedFrom place i + 1 = raisedFrom place j ↔ i + 1 = j := by
  unfold raisedFrom
  split <;> split <;> omega

theorem raisedFrom_above {place : Nat} {i : Int} (h : place ≤ i) :
    raisedFrom place i = i + (1 : Nat) :=
  if_pos h

theorem raisedFrom_below {place : Nat} {i : Int} (h : i < place) : raisedFrom place i = i :=
  if_neg (by omega)

namespace Matching

/-- Among some events, does no call right before a place announce a beginning at the place? -/
def Apart (m : Matching) (place : Nat) (events : List Event) : Prop :=
  ∀ c ∈ events, ∀ kind stamp operation, Event.before kind stamp operation ∈ events →
    c.orderIndex + 1 = place → stamp.orderIndex = place →
      m.announces? c kind stamp operation = none

theorem announces_raised {m : Matching} {place : Nat} {c : Event} {kind : OperationKind}
    {stamp : Stamp} {operation : OperationRef}
    (h : c.orderIndex + 1 = place → stamp.orderIndex = place →
      m.announces? c kind stamp operation = none) :
    m.announces? (c.renumbered (raisedFrom place)) kind (stamp.renumbered (raisedFrom place))
      operation = m.announces? c kind stamp operation := by
  cases c with
  | call callKind callStamp caller callee =>
    by_cases hparted : callStamp.orderIndex + 1 = place ∧ stamp.orderIndex = place
    · rw [h hparted.1 hparted.2]
      have hraised :
          raisedFrom place callStamp.orderIndex + 1 ≠ raisedFrom place stamp.orderIndex := by
        unfold raisedFrom
        split <;> split <;> omega
      exact if_pos (.inr hraised)
    · have hnext := @raisedFrom_next place callStamp.orderIndex stamp.orderIndex
        fun hbefore hat => hparted ⟨hbefore, hat⟩
      simp only [Event.renumbered_call, announces?, Stamp.renumbered, ne_eq, hnext]
  | _ => rfl

theorem Apart.concursOn {m : Matching} {place : Nat} {events : List Event}
    (h : m.Apart place events) {taken : List Event} (htaken : taken ⊆ events) :
    m.ConcursOn (raisedFrom place) m.guessCalls taken := by
  intro kind stamp operation below hbegun
  have hbefore : .before kind stamp operation ∈ events :=
    htaken (hbegun.subset List.mem_cons_self)
  unfold Concurs
  cases below with
  | nil => rfl
  | cons c rest =>
    have hc : c ∈ events := htaken (hbegun.subset (List.mem_cons_of_mem _ List.mem_cons_self))
    exact congrArg Option.isSome (announces_raised (h c hc kind stamp operation hbefore))

end Matching

/-- Is the event taken in at a place of a trace? -/
def Event.TakenAt (e : Event) (traceId : Int) (place : Nat) : Prop :=
  checkSequence e traceId place = .ok ()

instance (e : Event) (traceId : Int) (place : Nat) : Decidable (e.TakenAt traceId place) :=
  decidable_of_iff _ checkSequence_eq_ok_iff.symm

namespace Tracker

section Reached

variable {trace : TraceInfo} {m : Matching} {past : List Event} {t : Tracker} {fs : List Frame}
  {ended : List Invocation}

/-- Events that are kept apart are the same for a tracker whose events are raised from a place on. -/
theorem Reached.concursAlong {place cut : Nat} {es : List Event}
    (h : Reached trace m past t fs ended) (hpast : ∀ d ∈ past, d.orderIndex < place)
    (hapart : m.Apart cut (past ++ inSequence trace.traceId place es)) :
    t.ConcursAlong (raisedFrom cut) m.guessCalls place es := by
  induction es generalizing past t fs ended place with
  | nil => trivial
  | cons e rest ih =>
    simp only [ConcursAlong, inSequence, h.info] at hapart ⊢
    cases hcheck : checkSequence e trace.traceId place with
    | error why =>
      rw [hcheck] at hapart
      exact ih (h.noted _) (fun d hd => Int.lt_trans (hpast d hd) (by omega)) hapart
    | ok done =>
      rw [hcheck] at hapart
      simp only at hapart ⊢
      refine ⟨?_, fun hok => ?_⟩
      · rw [h.matching]
        refine hapart.concursOn fun d hd => ?_
        rcases List.mem_cons.mp hd with rfl | hd
        · simp
        · exact List.mem_append_left _ (h.openEvents_subset hd)
      · obtain ⟨gs, all, hnext, hpast'⟩ := h.taken hpast hcheck hok
        exact ih hnext hpast' (by simpa using hapart)

/-- What came before a place stays as it is. -/
theorem Reached.retold_below {place : Nat} (h : Reached trace m past t fs ended)
    (hpast : ∀ d ∈ past, d.orderIndex < place) (notices : List Notice) :
    t.retold (raisedFrom place) m.guessCalls notices = { t with notices } := by
  have hopen : t.openEvents.map (·.renumbered (raisedFrom place)) = t.openEvents := by
    refine (List.map_congr_left fun d hd => ?_).trans (List.map_id' _)
    have hbelow := raisedFrom_below (hpast d (h.openEvents_subset hd))
    exact (Event.renumbered_congr _ hbelow).trans d.renumbered_same
  rw [retold, hopen, ← h.matching]
  rfl

/-- An event that is dropped or ignored leaves a notice and nothing else. -/
theorem feed_neutral {place dropped : Nat} {e : Event} {es : List Event}
    (hneutral : e.TakenAt t.trace.traceId place → e.isIgnored) :
    ∃ notices, t.feed place dropped (e :: es) =
      feed { t with notices } (place + 1)
        (dropped + if e.TakenAt t.trace.traceId place then 0 else 1) es := by
  cases hcheck : checkSequence e t.trace.traceId place with
  | error why =>
    have hdropped : ¬ e.TakenAt t.trace.traceId place := fun htaken => by
      rw [htaken] at hcheck; cases hcheck
    simp only [feed, hcheck, if_neg hdropped]
    exact ⟨_, rfl⟩
  | ok done =>
    have htaken : e.TakenAt t.trace.traceId place := hcheck
    simp only [feed, hcheck, if_pos htaken]
    have hignored := hneutral htaken
    cases e with
    | split stamp => exact ⟨_, rfl⟩
    | unknown name stamp => exact ⟨_, rfl⟩
    | _ => cases hignored

theorem Reached.feed_insert {place dropped : Nat} {e : Event} {es : List Event}
    (h : Reached trace m past t fs ended) (hpast : ∀ d ∈ past, d.orderIndex < place)
    (hneutral : e.TakenAt trace.traceId place → e.isIgnored)
    (hapart : m.Apart place (past ++ inSequence trace.traceId place es)) :
    ∃ notices, t.feed place dropped (e :: es.map (·.renumbered (· + 1))) =
      ⟨(t.feed place dropped es).tracker.retold (raisedFrom place) m.guessCalls notices,
        (t.feed place dropped es).dropped + if e.TakenAt trace.traceId place then 0 else 1,
        (t.feed place dropped es).fault⟩ := by
  obtain rfl := h.info
  obtain ⟨old, hfeed⟩ :=
    @feed_neutral t place dropped e (es.map (·.renumbered (· + 1))) hneutral
  have hconcurs := h.concursAlong hpast hapart
  obtain ⟨new, hretold⟩ := feed_retold (fun _ => raisedFrom_above) hconcurs
    (dropped + if e.TakenAt t.trace.traceId place then 0 else 1) old
  rw [h.retold_below hpast] at hretold
  refine ⟨new, hfeed.trans (hretold.trans ?_)⟩
  rw [feed_eq t place (dropped + _), feed_eq t place dropped]
  simp only [Nat.add_right_comm]

end Reached

end Tracker

namespace Batch

/-- The batch with one more event at a place, and those from there on moved up. -/
def insertAt (b : Batch) (place : Nat) (e : Event) : Batch :=
  { b with
    events := b.events.take place ++ e :: (b.events.drop place).map (·.renumbered (· + 1)) }

/-- Is there no fault before a place? -/
def Reaches (b : Batch) (m : Matching) (model : Model) (place : Nat) : Prop :=
  ((Tracker.start b.trace m model).feed 0 0 (b.events.take place)).fault = none

instance (b : Batch) (m : Matching) (model : Model) (place : Nat) :
    Decidable (b.Reaches m model place) :=
  inferInstanceAs (Decidable (_ = none))

/-- Would an event at a place come between a call and the beginning that it announces, if both are
taken in? -/
def Parts (b : Batch) (m : Matching) (model : Model) (place : Nat) : Prop :=
  ∃ before call kind stamp operation, before + 1 = place ∧
    b.events[before]? = some call ∧ call.TakenAt b.traceId before ∧
    b.events[place]? = some (.before kind stamp operation) ∧
    (Event.before kind stamp operation).TakenAt b.traceId place ∧
    b.Reaches m model place ∧ (m.announces? call kind stamp operation).isSome

theorem apart_of_reaches {b : Batch} {m : Matching} {model : Model} {place : Nat}
    (hreaches : b.Reaches m model place) (h : ¬ b.Parts m model place) :
    m.Apart place b.inSequence := by
  intro call hcall kind stamp operation hbegun hbefore hat
  obtain ⟨i, hi, hitaken⟩ := getElem?_of_mem_inSequence call hcall
  obtain ⟨j, hj, hjtaken⟩ := getElem?_of_mem_inSequence _ hbegun
  rw [Nat.zero_add] at hitaken hjtaken
  have hi' := (checkSequence_eq_ok_iff.mp hitaken).1
  have hj' : stamp.orderIndex = j := (checkSequence_eq_ok_iff.mp hjtaken).1
  obtain rfl : j = place := by omega
  by_contra hsome
  exact h ⟨i, call, kind, stamp, operation, by omega, hi, hitaken, hj, hjtaken, hreaches,
    Option.isSome_iff_ne_none.mpr hsome⟩

/-- The batch with one more event is the batch retold, if the event is neutral. -/
theorem feed_insertAt {b : Batch} {m : Matching} {model : Model} {place : Nat} {e : Event}
    (hplace : place ≤ b.events.length) (hneutral : e.TakenAt b.traceId place → e.isIgnored)
    (happart : ¬ b.Parts m model place) :
    ∃ f guess notices, (Tracker.start b.trace m model).feed 0 0 (b.insertAt place e).events =
      let p := (Tracker.start b.trace m model).feed 0 0 b.events
      ⟨p.tracker.retold f guess notices,
        p.dropped + if b.Reaches m model place ∧ ¬ e.TakenAt b.traceId place then 1 else 0,
        p.fault⟩ := by
  have hlength : (b.events.take place).length = place := List.length_take_of_le hplace
  have hsplit : b.events = b.events.take place ++ b.events.drop place :=
    (List.take_append_drop place b.events).symm
  have hwhole := (Tracker.start b.trace m model).feed_append 0 0 (b.events.take place)
  have hevents := hwhole (b.events.drop place)
  rw [← hsplit] at hevents
  have hreaches : b.Reaches m model place ↔
      ((Tracker.start b.trace m model).feed 0 0 (b.events.take place)).fault = none := Iff.rfl
  have hfront := @Tracker.Reached.feed _ _ [] (b.events.take place) _ _ _ 0 0
    (Tracker.reached_start b.trace m model) (by simp)
  rw [insertAt, hwhole, hevents]
  generalize (Tracker.start b.trace m model).feed 0 0 (b.events.take place) = front
    at hreaches hfront ⊢
  obtain ⟨t, dropped, fault⟩ := front
  cases fault with
  | some fault =>
    -- Neither batch gets as far as the place.
    have hfaulty : ¬ b.Reaches m model place := fun h => by cases hreaches.mp h
    refine ⟨fun i => i, t.matching.guessCalls, t.notices, ?_⟩
    rw [if_neg fun h => hfaulty h.1]
    simp only [Tracker.retold_same]
    rfl
  | none =>
    have hapart := apart_of_reaches (hreaches.mpr rfl) happart
    obtain ⟨fs, ended, hreached⟩ := hfront rfl
    rw [Batch.inSequence, hsplit, inSequence_append, hlength, Nat.zero_add] at hapart
    have hpast : ∀ d ∈ Retrace.inSequence b.trace.traceId 0 (b.events.take place),
        d.orderIndex < place := by
      intro d hd
      have := lt_of_mem_inSequence d hd
      rwa [hlength, Nat.zero_add] at this
    obtain ⟨notices, hfeed⟩ := @Tracker.Reached.feed_insert _ _ _ _ _ _ place dropped e _ hreached
      hpast hneutral hapart
    refine ⟨raisedFrom place, m.guessCalls, notices, ?_⟩
    simp only [hlength, Nat.zero_add, hreaches.mpr rfl, true_and, ite_not]
    exact hfeed

end Batch

/-- An event that is ignored or dropped changes no outcome, wherever it is put in, unless it comes
between a call and the beginning that it announces. It adds to the dropped events if it is dropped,
and if there is no fault before it. -/
theorem reconstruct_insertAt {settings : Settings} {model : Model} {b : Batch} {place : Nat}
    {e : Event} (selection : Selection) (hplace : place ≤ b.events.length)
    (hneutral : e.TakenAt b.traceId place → e.isIgnored)
    (happart : ¬ b.Parts settings.matching model place) :
    (reconstruct settings selection model (b.insertAt place e)).outcome =
        (reconstruct settings selection model b).outcome ∧
      (reconstruct settings selection model (b.insertAt place e)).model =
        (reconstruct settings selection model b).model ∧
      (reconstruct settings selection model (b.insertAt place e)).dropped =
        (reconstruct settings selection model b).dropped +
          if selection.contains b.traceId ∧ b.Reaches settings.matching model place ∧
            ¬ e.TakenAt b.traceId place then 1 else 0 := by
  obtain ⟨f, guess, notices, hfeed⟩ := Batch.feed_insertAt hplace hneutral happart
  obtain ⟨houtcome, hmodel, hdropped⟩ :=
    @reconstruct_retold f guess settings settings selection model b (b.insertAt place e) _ notices
      rfl hfeed
  refine ⟨houtcome, hmodel, hdropped.trans ?_⟩
  simp only [ite_and]

/-- An operation calls another one. -/
def answeredCall : Batch where
  trace := { traceId := 7 }
  events :=
    [.before .operation ⟨1, 7, 0⟩ ⟨"void a.A.a()", "a.A"⟩,
     .call .operation ⟨2, 7, 1⟩ ⟨"void a.A.a()", "a.A"⟩ ⟨"void b.B.b()", "b.B"⟩,
     .before .operation ⟨3, 7, 2⟩ ⟨"void b.B.b()", "b.B"⟩,
     .after .operation ⟨4, 7, 3⟩ ⟨"void b.B.b()", "b.B"⟩,
     .after .operation ⟨5, 7, 4⟩ ⟨"void a.A.a()", "a.A"⟩]

/-- An end from another trace, with an order index that would do. -/
def strayEnd : Event :=
  .after .operation ⟨2, 8, 1⟩ ⟨"void a.A.a()", "a.A"⟩

theorem answeredCall_insertAt :
    ¬ strayEnd.TakenAt answeredCall.traceId 1 ∧ ¬ answeredCall.Parts {} {} 1 ∧
      (reconstruct {} .all {} (answeredCall.insertAt 1 strayEnd)).outcome =
        (reconstruct {} .all {} answeredCall).outcome ∧
      (reconstruct {} .all {} (answeredCall.insertAt 1 strayEnd)).dropped = 1 := by
  have hdropped : ¬ strayEnd.TakenAt answeredCall.traceId 1 := by decide
  have happart : ¬ answeredCall.Parts {} {} 1 := by
    rintro ⟨before, call, kind, stamp, operation, hbefore, hcall, _, _, _, _, hann⟩
    obtain rfl : before = 0 := by omega
    cases hcall
    cases hann
  obtain ⟨houtcome, _, hcount⟩ := @reconstruct_insertAt {} {} answeredCall 1 strayEnd .all
    (by decide) (fun htaken => absurd htaken hdropped) happart
  exact ⟨hdropped, happart, houtcome, hcount.trans (by rfl)⟩

/-- A call is not answered any more if something comes between it and the beginning. -/
theorem answeredCall_parted :
    (reconstruct {} .all {} (answeredCall.insertAt 2 (.split ⟨3, 7, 2⟩))).outcome ≠
      (reconstruct {} .all {} answeredCall).outcome := by
  decide

end Retrace
