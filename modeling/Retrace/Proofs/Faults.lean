import Retrace.Proofs.Accounting
import Retrace.Proofs.Closing
import Retrace.Proofs.History

/-! Faults. What fails a trace is wrong with the trace, whatever the order of its events. If order
indices do not grow, the end of an operation may find below its beginning a marker that would have
announced it, and take that away although the beginning had a slot of its own. From then on slots
are not those of the open events any more. But there are never too few of them: what an open event
needs is judged by what lies right below it, as its end will do, and what lies below it stays. -/

namespace Retrace

/-- Does the event need no slot of its own, since the innermost of those below announces it? -/
def Matching.sharesSlot (m : Matching) (below : List Event) : Event → Bool
  | .before kind stamp operation => (m.announcedBy? below kind stamp operation).isSome
  | _ => false

/-- How many slots the open events need. -/
def Matching.demand (m : Matching) : List Event → Nat
  | [] => 0
  | e :: below => m.demand below + if m.sharesSlot below e then 0 else 1

section Demand

variable {m : Matching}

theorem demand_cons_le (e : Event) (below : List Event) :
    m.demand (e :: below) ≤ m.demand below + 1 := by
  rw [Matching.demand]
  split <;> omega

theorem demand_call {e : Event} (h : e.isCall) (below : List Event) :
    m.demand (e :: below) = m.demand below + 1 := by
  cases e with
  | call kind stamp caller callee => rfl
  | _ => cases h

theorem demand_calls {calls : List Event} (h : ∀ e ∈ calls, e.isCall) (below : List Event) :
    m.demand (calls ++ below) = calls.length + m.demand below := by
  induction calls with
  | nil => simp
  | cons e rest ih =>
    have hrest := ih fun d hd => h d (List.mem_cons_of_mem e hd)
    rw [List.cons_append, demand_call (h e List.mem_cons_self), hrest, List.length_cons]
    omega

/-- The slots do not run out before the calls on top do. -/
theorem callsDownTo_enough {es : List Event} {slots : List Slot} (h : m.demand es ≤ slots.length)
    (signature : String) : callsDownTo signature es slots ≠ .missingSlot := by
  induction es generalizing slots with
  | nil => simp [callsDownTo]
  | cons e rest ih =>
    cases e with
    | call kind stamp caller callee =>
      rw [demand_call rfl] at h
      cases slots with
      | nil => simp at h
      | cons slot slots =>
        have hrest := @ih slots (by simpa using h)
        simp only [callsDownTo]
        split
        · simp
        · split <;> simp_all
    | _ => simp [callsDownTo]

end Demand

namespace Tracker

/-- Is every place accounted for, and are there slots enough for the open events? -/
structure Supplied (t : Tracker) : Prop where
  accounted : t.Accounted
  enough : t.matching.demand t.openEvents ≤ t.slots.length

/-- What can be wrong with a trace if the tracker takes in the event. -/
inductive Genuine (t : Tracker) (e : Event) : TraceFault → Prop where
  /-- The operation that ends, once its calls are closed, is not under a beginning of its kind. -/
  | unopened {kind : OperationKind} {stamp : Stamp} {operation : OperationRef} {u : Tracker} :
      e.ending? = some (kind, stamp, operation) →
      t.closeCalls operation.signature stamp.timestamp = ⟨u, none⟩ →
      (∀ begunAt opened, u.openEvents.head? ≠ some (.before kind begunAt opened)) →
      Genuine t e (.unopened kind operation.signature (u.openEvents.head?.map Event.typeName))
  /-- It is under the beginning of another operation. -/
  | mismatched {kind : OperationKind} {stamp begunAt : Stamp} {operation opened : OperationRef}
      {u : Tracker} :
      e.ending? = some (kind, stamp, operation) →
      t.closeCalls operation.signature stamp.timestamp = ⟨u, none⟩ →
      u.openEvents.head? = some (.before kind begunAt opened) → opened ≠ operation →
      Genuine t e (.mismatched opened operation)
  /-- What an open event began would end, at the event, before it began. -/
  | backwards {d : Event} {x : Execution} :
      d ∈ t.openEvents → x.entryTime = d.timestamp → x.exitTime = e.timestamp →
      x.exitTime < x.entryTime → Genuine t e (.rejected (.backwards x))

/-- A step that a supplied tracker may take with an event. -/
structure Fares (t : Tracker) (e : Event) (s : Step) : Prop where
  supplied : s.fault = none →
    s.tracker.Supplied ∧ ∀ d ∈ s.tracker.openEvents, d = e ∨ d ∈ t.openEvents
  genuine : ∀ fault, s.fault = some fault → Genuine t e fault

section Supplied

variable {t : Tracker} {e : Event}

theorem supplied_start (trace : TraceInfo) (matching : Matching) (model : Model) :
    (start trace matching model).Supplied :=
  ⟨accounted_start trace matching model, Nat.le_refl 0⟩

theorem Supplied.pushOpen (h : t.Supplied) (e : Event) : (t.pushOpen e).Supplied where
  accounted := h.accounted.pushOpen e
  enough := Nat.le_trans (demand_cons_le e t.openEvents) (Nat.succ_le_succ h.enough)

theorem Supplied.fares {u : Tracker} (h : u.Supplied)
    (hopen : ∀ d ∈ u.openEvents, d = e ∨ d ∈ t.openEvents) : Fares t e ⟨u, none⟩ :=
  ⟨fun _ => ⟨h, hopen⟩, fun _ hfault => by cases hfault⟩

theorem Genuine.fares {s : Step} {fault : TraceFault} (h : Genuine t e fault)
    (hfault : s.fault = some fault) : Fares t e s := by
  refine ⟨fun hok => ?_, fun other hother => ?_⟩
  · rw [hfault] at hok; cases hok
  · rw [hfault] at hother; cases hother; exact h

/-- Calls are closed, or one of them is found to end before it begins. -/
theorem Supplied.closeCalls (h : t.Supplied) (signature : String) (time : Int) :
    (∃ u, t.closeCalls signature time = ⟨u, none⟩ ∧ u.Supplied ∧ u.openEvents <:+ t.openEvents) ∨
      ∃ d ∈ t.openEvents, ∃ x : Execution, x.entryTime = d.timestamp ∧ x.exitTime = time ∧
        x.exitTime < x.entryTime ∧
        (t.closeCalls signature time).fault = some (.rejected (.backwards x)) := by
  unfold Tracker.closeCalls
  cases hrun : callsDownTo signature t.openEvents t.slots with
  | absent => exact .inl ⟨t, rfl, h, List.suffix_rfl⟩
  | missingSlot => exact absurd hrun (callsDownTo_enough h.enough signature)
  | found calls below left =>
    obtain ⟨markers, hevents, hcalls, hlength, hslots, htimes⟩ := callsDownTo_calls hrun
    have htaken : (calls.map (·.assumedUntil time)).map (·.slot) = calls.map (·.slot) := by
      rw [List.map_map]; rfl
    have howes : (t.holding below left t.nextEoi).Owes (calls.map (·.slot)) :=
      h.accounted.owes (by rw [hslots]; exact (List.reverse_perm _).append_right left) below
    rw [← htaken] at howes
    rcases howes.recordAll with ⟨hrecord, haccounted⟩ | ⟨i, hi, x, hback, hx, hfault⟩
    · rw [recordedAll_holding] at hrecord haccounted
      refine .inl ⟨_, hrecord, ⟨haccounted, ?_⟩, hevents ▸ List.suffix_append markers below⟩
      have henough := h.enough
      rw [hevents, hslots, demand_calls hcalls] at henough
      simp only [holding_matching, recordedAll_matching, holding_openEvents, holding_slots]
      simp only [List.length_append, List.length_reverse, List.length_map] at henough
      omega
    · obtain ⟨c, hc, rfl⟩ := List.mem_map.mp hi
      obtain ⟨d, hd, htime⟩ := htimes c hc
      obtain ⟨_, _, hentry, hexit⟩ := Interval.mk.inj hx
      refine .inr ⟨d, hevents ▸ List.mem_append_left below hd, x, ?_, hexit, ?_, hfault⟩
      · rw [hentry, htime]; rfl
      · rw [hentry, hexit]; exact hback

/-- A step that closes calls first is fared with if what comes after it is. -/
theorem Supplied.closing (h : t.Supplied) {signature : String} {next : Tracker → Step}
    (hnext : ∀ u, t.closeCalls signature e.timestamp = ⟨u, none⟩ → u.Supplied →
      u.openEvents <:+ t.openEvents → Fares t e (next u)) :
    Fares t e ((t.closeCalls signature e.timestamp).andThen next) := by
  rcases h.closeCalls signature e.timestamp with
    ⟨u, hclose, hu, hsuffix⟩ | ⟨d, hd, x, hentry, hexit, hback, hfault⟩
  · rw [hclose, Step.andThen_ok]
    exact hnext u hclose hu hsuffix
  · have hstop : (t.closeCalls signature e.timestamp).andThen next =
        t.closeCalls signature e.timestamp := by
      rw [Step.andThen, hfault]
    rw [hstop]
    exact (Genuine.backwards hd hentry hexit hback).fares hfault

/-- An event that gets a slot opens once calls are closed. -/
theorem Supplied.opens (h : t.Supplied) (signature : String) :
    Fares t e ((t.closeCalls signature e.timestamp).andThen fun u => ⟨u.pushOpen e, none⟩) := by
  refine h.closing fun u _ hu hsuffix => (hu.pushOpen e).fares fun d hd => ?_
  rcases List.mem_cons.mp hd with rfl | hd
  · exact .inl rfl
  · exact .inr (hsuffix.subset hd)

theorem Supplied.enter (h : t.Supplied) {kind : OperationKind} {stamp : Stamp}
    {operation : OperationRef} :
    Fares t (.before kind stamp operation) (t.enter kind stamp operation) := by
  unfold Tracker.enter
  cases hhow : t.announced? kind stamp operation with
  | none => exact h.opens _
  | some how =>
    obtain ⟨notices, hnote⟩ := noteGuess_eq t stamp operation how
    simp only [hnote]
    refine Supplied.fares ⟨⟨h.accounted.ids, h.accounted.places⟩, ?_⟩ ?_
    · have hshares : t.matching.sharesSlot t.openEvents (.before kind stamp operation) = true := by
        rw [Matching.sharesSlot, show t.matching.announcedBy? t.openEvents kind stamp operation = _
          from hhow]
        rfl
      simp only [Matching.demand, hshares, if_true, Nat.add_zero]
      exact h.enough
    · intro d hd
      rcases List.mem_cons.mp hd with rfl | hd
      · exact .inl rfl
      · exact .inr hd

/-- What ends in the innermost slot is recorded, or found to end before it begins. -/
theorem Accounted.recordInnermost (h : t.Accounted) {slot : Slot} {left : List Slot}
    {i : Invocation} (hslots : t.slots = slot :: left) (hslot : i.slot = slot)
    (henough : t.matching.demand t.openEvents ≤ left.length) :
    (∃ u, Tracker.record { t with slots := left } i = ⟨u, none⟩ ∧ u.Supplied ∧
      u.openEvents = t.openEvents) ∨
    ∃ x : Execution, i.exitTime < i.entryTime ∧ x.interval = i.interval ∧
      (Tracker.record { t with slots := left } i).fault = some (.rejected (.backwards x)) := by
  rcases Int.lt_or_le i.exitTime i.entryTime with hback | htime
  · obtain ⟨x, hx, hfault⟩ := @record_of_backwards { t with slots := left } i h.ids hback
    exact .inr ⟨x, hback, hx, hfault⟩
  · obtain ⟨hrecord, haccounted⟩ := h.record hslots hslot htime t.openEvents
    exact .inl ⟨_, hrecord, ⟨haccounted, henough⟩, rfl⟩

/-- The end of an operation of the trace goes on record, or shows that it comes before its
beginning. -/
theorem Accounted.ends {u : Tracker} {d : Event} {slot : Slot} {left : List Slot} {i : Invocation}
    (h : u.Accounted) (hslots : u.slots = slot :: left) (hslot : i.slot = slot)
    (henough : u.matching.demand u.openEvents ≤ left.length)
    (hopen : u.openEvents <:+ t.openEvents) (hd : d ∈ t.openEvents)
    (hentry : i.entryTime = d.timestamp) (hexit : i.exitTime = e.timestamp) :
    Fares t e (Tracker.record { u with slots := left } i) := by
  rcases h.recordInnermost hslots hslot henough with
    ⟨v, hrecord, hv, hevents⟩ | ⟨x, hback, hx, hfault⟩
  · rw [hrecord]
    exact hv.fares fun c hc => .inr (hopen.subset (hevents ▸ hc))
  · obtain ⟨_, _, hin, hout⟩ := Interval.mk.inj hx
    have hgenuine : Genuine t e (.rejected (.backwards x)) :=
      .backwards hd (hin.trans hentry) (hout.trans hexit) (by rw [hin, hout]; exact hback)
    exact hgenuine.fares hfault

/-- The slot that the beginning or its marker needed is still there when it has been taken off. -/
theorem Accounted.closeInnermost {u : Tracker} {kind : OperationKind} {begunAt : Stamp}
    {opened : OperationRef} (h : u.Accounted)
    (henough : u.matching.demand (.before kind begunAt opened :: u.openEvents) ≤ u.slots.length)
    (hopen : u.openEvents <:+ t.openEvents) (hbegun : .before kind begunAt opened ∈ t.openEvents) :
    Fares t e (u.closeInnermost kind begunAt opened e.timestamp) := by
  unfold Tracker.closeInnermost
  rw [Matching.demand, Matching.sharesSlot] at henough
  have hhow : u.announced? kind begunAt opened =
      u.matching.announcedBy? u.openEvents kind begunAt opened := rfl
  cases hann : u.matching.announcedBy? u.openEvents kind begunAt opened with
  | none =>
    rw [hann] at henough hhow
    cases hslots : u.slots with
    | nil => simp [hslots] at henough
    | cons slot left =>
      have hleft : u.matching.demand u.openEvents ≤ left.length := by
        simpa [hslots] using henough
      simp only [hhow, hslots]
      exact Accounted.ends h hslots rfl hleft hopen hbegun rfl rfl
  | some how =>
    rw [hann] at henough hhow
    obtain ⟨marker, hhead, hmarker⟩ := Option.bind_eq_some_iff.mp hann
    obtain ⟨below, hevents⟩ := List.head?_eq_some_iff.mp hhead
    obtain ⟨_, _, _, _, rfl⟩ := Matching.call_of_announces hmarker
    obtain ⟨notices, hnote⟩ := noteGuess_eq u begunAt opened how
    rw [hevents] at hopen
    rw [hevents, demand_call rfl] at henough
    cases hslots : u.slots with
    | nil => simp [hslots] at henough
    | cons slot left =>
      have hleft : u.matching.demand below ≤ left.length := by simpa [hslots] using henough
      simp only [hhow, hnote, hevents, hslots, List.tail_cons]
      exact @Accounted.ends t e { u with openEvents := below, notices := notices } _ slot left _
        ⟨h.ids, h.places⟩ hslots rfl hleft ((List.suffix_cons _ _).trans hopen) hbegun rfl rfl

theorem Supplied.leave (h : t.Supplied) {kind : OperationKind} {stamp : Stamp}
    {operation : OperationRef} (hend : e.ending? = some (kind, stamp, operation))
    (htime : stamp.timestamp = e.timestamp) :
    Fares t e (t.leave kind stamp.timestamp operation) := by
  unfold Tracker.leave
  rw [htime]
  refine h.closing fun u hclose hu hsuffix => ?_
  rw [← htime] at hclose
  unfold endOperation
  split
  · rename_i openKind begunAt opened below hevents
    have hhead : u.openEvents.head? = some (.before openKind begunAt opened) := by rw [hevents]; rfl
    split
    · rename_i hkind
      refine (Genuine.unopened hend hclose fun begunAt' opened' heq => ?_).fares rfl
      rw [hhead] at heq
      cases heq
      exact hkind rfl
    · rename_i hkind
      obtain rfl := not_not.mp hkind
      split
      · rename_i hop
        exact (Genuine.mismatched hend hclose hhead hop).fares rfl
      · have hbegun := hsuffix.subset (hevents ▸ List.mem_cons_self)
        have hbelow : below <:+ t.openEvents :=
          (hevents ▸ List.suffix_cons _ _ : below <:+ u.openEvents).trans hsuffix
        have henough := hu.enough
        rw [hevents] at henough
        exact Accounted.closeInnermost ⟨hu.accounted.ids, hu.accounted.places⟩ henough hbelow hbegun
  · rename_i hnone
    refine (Genuine.unopened hend hclose fun begunAt opened heq => ?_).fares rfl
    obtain ⟨below, hevents⟩ := List.head?_eq_some_iff.mp heq
    exact hnone _ _ _ _ hevents

theorem Supplied.step (h : t.Supplied) (e : Event) : Fares t e (t.step e) := by
  have hnoted : ∀ notice, Fares t e ⟨t.note notice, none⟩ := fun notice =>
    Supplied.fares ⟨⟨h.accounted.ids, h.accounted.places⟩, h.enough⟩ fun _ hd => .inr hd
  cases e with
  | call kind stamp caller callee => exact h.opens caller.signature
  | before kind stamp operation => exact h.enter
  | after kind stamp operation => exact h.leave rfl rfl
  | afterFailed kind stamp operation cause => exact h.leave rfl rfl
  | split stamp => exact hnoted _
  | unknown name stamp => exact hnoted _

/-- As long as nothing is wrong there are slots enough, and only events that came are open. -/
theorem Supplied.run {es : List Event} (h : t.Supplied) (hok : (t.run es).fault = none) :
    (t.run es).tracker.Supplied ∧
      ∀ d ∈ (t.run es).tracker.openEvents, d ∈ es ∨ d ∈ t.openEvents := by
  induction es using List.reverseRecOn with
  | nil => exact ⟨h, fun _ hd => .inr hd⟩
  | append_singleton past e ih =>
    obtain ⟨hpast, hstep, heq⟩ := run_snoc hok
    obtain ⟨hsupplied, hopen⟩ := ih hpast
    obtain ⟨hnext, hnew⟩ := (hsupplied.step e).supplied hstep
    rw [heq]
    refine ⟨hnext, fun d hd => ?_⟩
    rcases hnew d hd with rfl | hold
    · exact .inl (by simp)
    · exact (hopen d hold).imp_left (List.mem_append_left [e])

end Supplied

/-- A fault of a run is the fault of the first event that shows one. -/
theorem exists_step_of_fault {t : Tracker} {es : List Event} {fault : TraceFault}
    (h : (t.run es).fault = some fault) :
    ∃ past e later, es = past ++ e :: later ∧ (t.run past).fault = none ∧
      ((t.run past).tracker.step e).fault = some fault := by
  induction es generalizing t with
  | nil => cases h
  | cons e rest ih =>
    rw [Tracker.run, Step.andThen] at h
    cases hstep : (t.step e).fault with
    | some other =>
      rw [hstep] at h
      exact ⟨[], e, rest, rfl, rfl, h⟩
    | none =>
      rw [hstep] at h
      obtain ⟨past, d, later, hrest, hpast, hd⟩ := ih h
      have hrun : t.run (e :: past) = (t.step e).tracker.run past := by
        rw [Tracker.run, Step.andThen, hstep]
      exact ⟨e :: past, d, later, by rw [hrest]; rfl, by rw [hrun]; exact hpast,
        by rw [hrun]; exact hd⟩

/-- Whatever the order of its events, a trace fails only for what is wrong with it. An end is not
under the beginning of its operation, or something would end before it began, which it never does if
time goes on. No open event is without a slot, no place is taken twice, and no execution belongs to
another trace. -/
theorem only_genuine_faults (trace : TraceInfo) (m : Matching) (model : Model)
    {events : List Event} {fault : TraceFault}
    (h : ((start trace m model).run events).fault = some fault) :
    (∃ past e later, events = past ++ e :: later ∧ ((start trace m model).run past).fault = none ∧
      Genuine ((start trace m model).run past).tracker e fault) ∧
    fault ≠ .missingSlot ∧
    (∀ eoi, fault ≠ .rejected (.occupied eoi)) ∧
    (∀ x, fault ≠ .rejected (.foreign x)) ∧
    ((events.Pairwise fun d e => d.timestamp ≤ e.timestamp) →
      ∀ x, fault ≠ .rejected (.backwards x)) := by
  obtain ⟨past, e, later, hevents, hpast, hstep⟩ := exists_step_of_fault h
  obtain ⟨hsupplied, hopen⟩ := (supplied_start trace m model).run hpast
  have hgenuine := (hsupplied.step e).genuine fault hstep
  refine ⟨⟨past, e, later, hevents, hpast, hgenuine⟩, ?_, ?_, ?_, ?_⟩
  · rintro rfl; cases hgenuine
  · rintro eoi rfl; cases hgenuine
  · rintro x rfl; cases hgenuine
  · rintro htime x rfl
    cases hgenuine with
    | backwards hd hentry hexit hback =>
      rename_i d
      have hcame : d ∈ past := (hopen d hd).resolve_right (by simp [start])
      rw [hevents] at htime
      have hle := (List.pairwise_append.mp htime).2.2 d hcame e List.mem_cons_self
      rw [hentry, hexit] at hback
      omega

/-- A call inside the callee of another one, and only then the beginning of that callee. It gets a
slot of its own, but its end takes the other call away with it. So one slot is left over, and the
operation that ends once more is not open. -/
def beginningCameLate : List Event :=
  [.call .operation ⟨1, 7, 5⟩ ⟨"p()", "P"⟩ ⟨"q()", "Q"⟩,
   .call .operation ⟨2, 7, 7⟩ ⟨"q()", "Q"⟩ ⟨"c()", "C"⟩,
   .before .operation ⟨3, 7, 6⟩ ⟨"q()", "Q"⟩,
   .after .operation ⟨4, 7, 8⟩ ⟨"q()", "Q"⟩,
   .after .operation ⟨5, 7, 8⟩ ⟨"q()", "Q"⟩]

theorem beginningCameLate_unopened :
    ((start { traceId := 7 } {} {}).run beginningCameLate).fault =
        some (.unopened .operation "q()" none) ∧
      ((start { traceId := 7 } {} {}).run (beginningCameLate.take 4)).tracker.openEvents = [] ∧
      ((start { traceId := 7 } {} {}).run (beginningCameLate.take 4)).tracker.slots = [⟨0, 0⟩] ∧
      (beginningCameLate.Pairwise fun d e => d.timestamp ≤ e.timestamp) ∧
      ∃ past e later, beginningCameLate = past ++ e :: later ∧
        ((start { traceId := 7 } {} {}).run past).fault = none ∧
        Genuine ((start { traceId := 7 } {} {}).run past).tracker e
          (.unopened .operation "q()" none) :=
  ⟨by rfl, by rfl, by rfl, by decide, (only_genuine_faults { traceId := 7 } {} {}
    (show ((start { traceId := 7 } {} {}).run beginningCameLate).fault =
      some (.unopened .operation "q()" none) from rfl)).1⟩

end Tracker

end Retrace
