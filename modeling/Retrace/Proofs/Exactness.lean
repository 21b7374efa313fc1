import Retrace.Proofs.Retelling

/-! Exactness. Guessing calls changes nothing about a trace that exact matching takes in without
faults, with nothing left open and every execution observed. Where the two could part for the first
time, a beginning is not announced exactly although something is open around it. It has closed calls
that are then on record as assumed, or it is itself put on record as assumed when it ends. Neither
is undone by any later event, so the trace would not have come out clean. -/

namespace Retrace

/-- What is announced exactly is announced if calls are guessed. -/
theorem Matching.announces_guessing {m : Matching} {previous : Event} {kind : OperationKind}
    {stamp : Stamp} {operation : OperationRef} {how : CallMatch}
    (h : m.announces? previous kind stamp operation = some how) :
    ((m.guessing true).announces? previous kind stamp operation).isSome := by
  unfold announces? at h ⊢
  split at h
  · split at h
    · cases h
    · rename_i hcond
      rw [if_neg hcond]
      split at h
      · rename_i hcallee
        rw [if_pos hcallee]
        rfl
      · rename_i hcallee
        rw [if_neg hcallee]
        split at h
        · rename_i hguess
          rw [if_pos ⟨rfl, hguess.2⟩]
          rfl
        · cases h
  · cases h

theorem Matching.announcedBy_guessing {m : Matching} {events : List Event} {kind : OperationKind}
    {stamp : Stamp} {operation : OperationRef} {how : CallMatch}
    (h : m.announcedBy? events kind stamp operation = some how) :
    ((m.guessing true).announcedBy? events kind stamp operation).isSome := by
  obtain ⟨marker, hhead, hmarker⟩ := Option.bind_eq_some_iff.mp h
  rw [announcedBy?, hhead]
  exact announces_guessing hmarker

/-- A beginning under which nothing is open, or that is announced exactly, is the same for both. -/
theorem Matching.concurs_of_announced {m : Matching} {events : List Event} {kind : OperationKind}
    {stamp : Stamp} {operation : OperationRef}
    (h : events = [] ∨ m.announcedBy? events kind stamp operation ≠ none) :
    m.Concurs (fun i => i) true events kind stamp operation := by
  unfold Concurs
  simp only [Event.renumbered_same, List.map_id']
  rcases h with rfl | h
  · rfl
  · obtain ⟨how, hhow⟩ := Option.ne_none_iff_exists'.mp h
    exact (announcedBy_guessing hhow).trans (by rw [hhow]; rfl)

namespace Tracker

/-- Is an execution on record that was not observed, or an operation open, not at the bottom, whose
beginning was not announced? -/
inductive Spoiled (t : Tracker) : Prop where
  | assumed {x : Execution} : x ∈ t.executions.executions → x.assumed → Spoiled t
  | unannounced {kind : OperationKind} {stamp : Stamp} {operation : OperationRef}
      {below : List Event} :
      .before kind stamp operation :: below <:+ t.openEvents → below ≠ [] →
      t.matching.announcedBy? below kind stamp operation = none → Spoiled t

section Spoiled

variable {t : Tracker}

theorem Spoiled.grow {u : Tracker} (h : t.Spoiled)
    (hexecutions : t.executions.executions ⊆ u.executions.executions)
    (hmatching : u.matching = t.matching) (hopen : t.openEvents <:+ u.openEvents) : u.Spoiled := by
  cases h with
  | assumed hx hassumed => exact .assumed (hexecutions hx) hassumed
  | unannounced hbegun hbelow hnone =>
    exact .unannounced (hbegun.trans hopen) hbelow (by rw [hmatching]; exact hnone)

/-- Calls that are closed stay on record as assumed. -/
theorem closeCalls_spoils {signature : String} {time : Int}
    (hok : (t.closeCalls signature time).fault = none) :
    (t.closeCalls signature time).tracker = t ∨ (t.closeCalls signature time).tracker.Spoiled := by
  obtain ⟨calls, hcloses⟩ := closeCalls_closes hok
  cases calls with
  | nil => exact .inl (hcloses.idle (List.forall₂_nil_right_iff.mp hcloses.marked))
  | cons c calls =>
    exact .inr (.assumed (hcloses.executions.mem_iff.mpr List.mem_cons_self) rfl)

theorem Spoiled.closeCalls (h : t.Spoiled) {signature : String} {time : Int}
    (hok : (t.closeCalls signature time).fault = none) :
    (t.closeCalls signature time).tracker.Spoiled := by
  rcases closeCalls_spoils hok with heq | hspoiled
  · rwa [heq]
  · exact hspoiled

theorem Spoiled.pushOpen (h : t.Spoiled) (e : Event) : (t.pushOpen e).Spoiled :=
  h.grow (fun _ hx => hx) rfl (List.suffix_cons _ _)

theorem recordInnermost_of_ok {i : Slot → Invocation} (hok : (t.recordInnermost i).fault = none) :
    ∃ slot left, t.recordInnermost i = ⟨recorded { t with slots := left } (i slot), none⟩ := by
  unfold recordInnermost at hok ⊢
  split at hok
  · cases hok
  · rename_i slot left _
    exact ⟨slot, left, (record_eq_ok hok).1⟩

/-- An operation that was not announced is on record as assumed when it ends. -/
theorem Spoiled.closeInnermost {kind : OperationKind} {stamp : Stamp} {operation : OperationRef}
    {time : Int} {below : List Event} (h : t.Spoiled)
    (hevents : t.openEvents = .before kind stamp operation :: below)
    (hok : (closeInnermost { t with openEvents := below } kind stamp operation time).fault = none) :
    (closeInnermost { t with openEvents := below } kind stamp operation time).tracker.Spoiled := by
  obtain ⟨notices, hclose⟩ :=
    closeInnermost_eq { t with openEvents := below } kind stamp operation time
  have hhow : announced? { t with openEvents := below } kind stamp operation =
      t.matching.announcedBy? below kind stamp operation := rfl
  rw [hclose, hhow] at hok ⊢
  obtain ⟨slot, left, hrecord⟩ := recordInnermost_of_ok hok
  rw [hrecord]
  have hadded := ExecutionTrace.insert_perm (Invocation.execution ⟨kind, operation, slot,
    stamp.timestamp, time, !(below.isEmpty ||
      (t.matching.announcedBy? below kind stamp operation).isSome)⟩ t.trace t.matching t.model).1
    t.executions.executions
  cases h with
  | assumed hx hassumed => exact .assumed (hadded.mem_iff.mpr (List.mem_cons_of_mem _ hx)) hassumed
  | unannounced hbegun hrest hnone =>
    rw [hevents, List.suffix_cons_iff] at hbegun
    rcases hbegun with heq | hbegun
    · cases heq
      refine .assumed (hadded.mem_iff.mpr List.mem_cons_self) ?_
      simp [Invocation.execution, hnone, hrest]
    · cases hann : t.matching.announcedBy? below kind stamp operation with
      | none => exact .unannounced hbegun hrest hnone
      | some how =>
        -- The marker that goes as well is not the beginning of an operation.
        obtain ⟨marker, hhead, hmarker⟩ := Option.bind_eq_some_iff.mp hann
        obtain ⟨_, _, _, _, rfl⟩ := Matching.call_of_announces hmarker
        obtain ⟨rest, rfl⟩ := List.head?_eq_some_iff.mp hhead
        rcases List.suffix_cons_iff.mp hbegun with heq | hbegun
        · cases heq
        · exact .unannounced hbegun hrest hnone

theorem Spoiled.endOperation {kind : OperationKind} {time : Int} {operation : OperationRef}
    (h : t.Spoiled) (hok : (t.endOperation kind time operation).fault = none) :
    (t.endOperation kind time operation).tracker.Spoiled := by
  unfold Tracker.endOperation at hok ⊢
  cases hevents : t.openEvents with
  | nil => rw [hevents] at hok; cases hok
  | cons d below =>
    rw [hevents] at hok
    cases d with
    | before openKind stamp opened =>
      by_cases hkind : openKind = kind
      · by_cases hop : opened = operation
        · simp only [hkind, hop, ne_eq, not_true_eq_false, if_false] at hok ⊢
          exact h.closeInnermost (hkind ▸ hop ▸ hevents) hok
        · simp [hkind, hop] at hok
      · simp [hkind] at hok
    | _ => cases hok

theorem Spoiled.note (h : t.Spoiled) (notice : Notice) : (t.note notice).Spoiled :=
  h.grow (fun _ hx => hx) rfl (List.suffix_refl _)

/-- A spoiled trace stays so. -/
theorem Spoiled.step {e : Event} (h : t.Spoiled) (hok : (t.step e).fault = none) :
    (t.step e).tracker.Spoiled := by
  have hopened : ∀ signature time, ((t.closeCalls signature time).andThen fun u =>
        ⟨u.pushOpen e, none⟩).fault = none →
      ((t.closeCalls signature time).andThen fun u => ⟨u.pushOpen e, none⟩).tracker.Spoiled := by
    intro signature time hok
    obtain ⟨hclosed, hpush⟩ := Step.andThen_of_fault hok
    rw [hpush]
    exact (h.closeCalls hclosed).pushOpen e
  have hleft : ∀ kind time operation, (t.leave kind time operation).fault = none →
      (t.leave kind time operation).tracker.Spoiled := by
    intro kind time operation hok
    obtain ⟨hclosed, hend⟩ := Step.andThen_of_fault hok
    rw [leave, hend] at hok ⊢
    exact (h.closeCalls hclosed).endOperation hok
  cases e with
  | call kind stamp caller callee => exact hopened _ _ hok
  | before kind stamp operation =>
    simp only [Tracker.step, enter] at hok ⊢
    split
    · rename_i how hhow
      obtain ⟨notices, hnote⟩ := noteGuess_eq t stamp operation how
      simp only [hnote]
      exact h.grow (fun _ hx => hx) rfl (List.suffix_cons _ _)
    · rename_i hhow
      rw [hhow] at hok
      exact hopened _ _ hok
  | after kind stamp operation => exact hleft _ _ _ hok
  | afterFailed kind stamp operation cause => exact hleft _ _ _ hok
  | split stamp => exact h.note _
  | unknown name stamp => exact h.note _

theorem Spoiled.feed {place dropped : Nat} {es : List Event} (h : t.Spoiled)
    (hok : (t.feed place dropped es).fault = none) :
    (t.feed place dropped es).tracker.Spoiled :=
  feed_keeps (fun _ notice ht => ht.note notice) (fun _ _ ht hstep => ht.step hstep) h hok

/-- As long as nothing is spoiled, exact matching and guessing agree. -/
theorem concursOn_of_unspoiled {e : Event} (hok : (t.step e).fault = none)
    (h : ¬ (t.step e).tracker.Spoiled) :
    t.matching.ConcursOn (fun i => i) true (e :: t.openEvents) := by
  intro kind stamp operation below hbegun
  refine Matching.concurs_of_announced ?_
  by_contra hfresh
  obtain ⟨hbelow, hnone⟩ := not_or.mp hfresh
  have hnone := not_ne_iff.mp hnone
  rcases List.suffix_cons_iff.mp hbegun with heq | hbegun
  · -- The beginning is the new event itself.
    cases heq
    have hstep : t.step (.before kind stamp operation) =
        (t.closeCalls operation.signature stamp.timestamp).andThen fun u =>
          ⟨u.pushOpen (.before kind stamp operation), none⟩ := by
      rw [step, enter, show t.announced? kind stamp operation = none from hnone]
    rw [hstep] at hok h
    obtain ⟨hclosed, hpush⟩ := Step.andThen_of_fault hok
    rw [hpush] at h
    rcases closeCalls_spoils hclosed with hidle | hspoiled
    · rw [hidle] at h
      exact h (.unannounced (List.suffix_refl _) hbelow hnone)
    · exact h (hspoiled.pushOpen _)
  · -- It was open already, and would be asked about again at its end.
    exact h (Spoiled.step (.unannounced hbegun hbelow hnone) hok)

theorem concursAlong_of_unspoiled {place dropped : Nat} {es : List Event}
    (hok : (t.feed place dropped es).fault = none)
    (h : ¬ (t.feed place dropped es).tracker.Spoiled) :
    t.ConcursAlong (fun i => i) true place es := by
  induction es generalizing t place dropped with
  | nil => trivial
  | cons e rest ih =>
    simp only [Tracker.feed, ConcursAlong] at hok h ⊢
    cases hcheck : checkSequence e t.trace.traceId place with
    | error why =>
      rw [hcheck] at hok h
      exact ih hok h
    | ok done =>
      rw [hcheck] at hok h
      cases hstep : (t.step e).fault with
      | some fault => simp [hstep] at hok
      | none =>
        simp only [hstep] at hok h
        exact ⟨concursOn_of_unspoiled hstep fun hspoiled => h (hspoiled.feed hok),
          fun _ => ih hok h⟩

end Spoiled

end Tracker

/-- Was a batch taken in without a fault, with nothing left open and every execution observed? -/
structure Progress.Exact (p : Progress) : Prop where
  faultless : p.fault = none
  closed : p.tracker.openEvents = []
  observed : ∀ x ∈ p.tracker.executions.executions, x.assumed = false

theorem Progress.Exact.unspoiled {p : Progress} (h : p.Exact) : ¬ p.tracker.Spoiled := by
  intro hspoiled
  cases hspoiled with
  | assumed hx hassumed => rw [h.observed _ hx] at hassumed; cases hassumed
  | unannounced hbegun _ _ => simp [h.closed] at hbegun

/-- The settings by which calls are guessed, or not. -/
def Settings.guessing (guess : Bool) (s : Settings) : Settings :=
  { s with matching := s.matching.guessing guess }

/-- A batch that exact matching takes in without a fault, with nothing left open and every execution
observed, comes to the same executions and messages if calls are guessed. -/
theorem reconstruct_guessing {settings : Settings} {model : Model} {batch : Batch}
    (selection : Selection)
    (h : ((Tracker.start batch.trace (settings.guessing false).matching model).feed 0 0
      batch.events).Exact) :
    (reconstruct (settings.guessing true) selection model batch).outcome =
        (reconstruct (settings.guessing false) selection model batch).outcome ∧
      (reconstruct (settings.guessing true) selection model batch).model =
        (reconstruct (settings.guessing false) selection model batch).model ∧
      (reconstruct (settings.guessing true) selection model batch).dropped =
        (reconstruct (settings.guessing false) selection model batch).dropped := by
  have hconcurs := Tracker.concursAlong_of_unspoiled h.faultless h.unspoiled
  obtain ⟨notices, hfeed⟩ := @Tracker.feed_retold (fun i => i) true _ 0 0 batch.events
    (fun i _ => (Int.add_zero i).symm) hconcurs 0 []
  have hsame : batch.events.map (·.renumbered (· + ((0 : Nat) : Int))) = batch.events := by simp
  rw [hsame] at hfeed
  obtain ⟨houtcome, hmodel, hdropped⟩ :=
    @reconstruct_retold (fun i => i) true (settings.guessing false) (settings.guessing true)
      selection model batch batch 0 notices rfl hfeed
  exact ⟨houtcome, hmodel, by simpa using hdropped⟩

/-- An operation calls another one, and after both an event of another trace is delivered. -/
def observedCall : Batch where
  trace := { traceId := 7 }
  events :=
    [.before .operation ⟨1, 7, 0⟩ ⟨"void a.A.a()", "a.A"⟩,
     .call .operation ⟨2, 7, 1⟩ ⟨"void a.A.a()", "a.A"⟩ ⟨"void b.B.b()", "b.B"⟩,
     .before .operation ⟨3, 7, 2⟩ ⟨"void b.B.b()", "b.B"⟩,
     .after .operation ⟨4, 7, 3⟩ ⟨"void b.B.b()", "b.B"⟩,
     .after .operation ⟨5, 7, 4⟩ ⟨"void a.A.a()", "a.A"⟩,
     .split ⟨6, 8, 5⟩]

theorem observedCall_guessing :
    ((Tracker.start observedCall.trace (Settings.guessing false {}).matching {}).feed 0 0
        observedCall.events).Exact ∧
      (reconstruct (Settings.guessing true {}) .all {} observedCall).outcome =
        (reconstruct (Settings.guessing false {}) .all {} observedCall).outcome := by
  have hexact : ((Tracker.start observedCall.trace (Settings.guessing false {}).matching {}).feed
      0 0 observedCall.events).Exact := ⟨by rfl, by rfl, by decide⟩
  exact ⟨hexact, (reconstruct_guessing .all hexact).1⟩

end Retrace
