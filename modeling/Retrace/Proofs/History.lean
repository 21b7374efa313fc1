import Retrace.Proofs.Moves

/-! History. A run of a tracker over events whose order indices grow has a history in terms of
frames: the moves that its events make, one after the other, from nothing open. What holds of every
history holds of every such run. -/

namespace Retrace

namespace Frame

/-- The open invocations, the next place and the ended invocations after some events. -/
inductive History (m : Matching) : List Event → List Frame → Nat → List Invocation → Prop where
  | start : History m [] [] 0 []
  | step {es : List Event} {e : Event} {fs gs : List Frame} {n k : Nat}
      {ended more : List Invocation} : History m es fs n ended → Moves m e fs n gs k more →
      History m (es ++ [e]) gs k (ended ++ more)

/-- Only events that came are open. -/
theorem History.openEvents_subset {m : Matching} {es : List Event} {fs : List Frame} {n : Nat}
    {ended : List Invocation} (h : History m es fs n ended) : ∀ d ∈ openEvents fs, d ∈ es := by
  induction h with
  | start => intro d hd; cases hd
  | step _ hmoves ih =>
    intro d hd
    rcases hmoves.openEvents_subset d hd with rfl | hd
    · simp
    · exact List.mem_append_left _ (ih d hd)

theorem History.sound {m : Matching} {es : List Event} {fs : List Frame} {n : Nat}
    {ended : List Invocation} (h : History m es fs n ended)
    (hinc : es.Pairwise fun d e => d.orderIndex < e.orderIndex) : Sound m fs n := by
  induction h with
  | start => exact ⟨trivial, by simp, List.Pairwise.nil⟩
  | step hpast hmoves ih =>
    obtain ⟨hes, _, hnew⟩ := List.pairwise_append.mp hinc
    exact hmoves.sound (ih hes) fun d hd => hnew d (hpast.openEvents_subset d hd) _ (by simp)

end Frame

namespace Tracker
open Retrace.Frame
open scoped List

theorem run_append (t : Tracker) (ds es : List Event) :
    t.run (ds ++ es) = (t.run ds).andThen (·.run es) := by
  induction ds generalizing t with
  | nil => rfl
  | cons d rest ih =>
    simp only [List.cons_append, run, Step.andThen_assoc]
    congr 1
    funext u
    exact ih u

/-- A run over one more event without a fault is a run and a step without one. -/
theorem run_snoc {t : Tracker} {es : List Event} {e : Event}
    (hok : (t.run (es ++ [e])).fault = none) :
    (t.run es).fault = none ∧ ((t.run es).tracker.step e).fault = none ∧
      (t.run (es ++ [e])).tracker = ((t.run es).tracker.step e).tracker := by
  rw [run_append] at hok ⊢
  obtain ⟨hes, heq⟩ := Step.andThen_of_fault hok
  rw [heq] at hok ⊢
  obtain ⟨he, hlast⟩ := Step.andThen_of_fault hok
  refine ⟨hes, he, ?_⟩
  change (Step.andThen _ _).tracker = _
  rw [hlast]
  rfl

/-- Does the tracker come of another one, in which nothing was open, by recording what ended in a
history of the events? Which notices it gave is left open. -/
def Recounts (origin : Tracker) (es : List Event) (t : Tracker) (fs : List Frame)
    (ended : List Invocation) : Prop :=
  ∃ n notices, History origin.matching es fs n ended ∧
    t = { (origin.recordedAll ended).holding (Frame.openEvents fs) (Frame.slots fs) n with notices }

section Recounts

variable {origin t : Tracker} {es : List Event} {fs : List Frame} {ended : List Invocation}

theorem recounts_start (trace : TraceInfo) (m : Matching) (model : Model) :
    Recounts (start trace m model) [] (start trace m model) [] [] :=
  ⟨0, [], .start, rfl⟩

theorem Recounts.openEvents (h : Recounts origin es t fs ended) :
    t.openEvents = Frame.openEvents fs := by
  obtain ⟨_, _, _, rfl⟩ := h
  rfl

theorem Recounts.note (h : Recounts origin es t fs ended) (notice : Notice) :
    Recounts origin es (t.note notice) fs ended := by
  obtain ⟨n, notices, hhistory, rfl⟩ := h
  exact ⟨n, _, hhistory, rfl⟩

theorem Recounts.step {e : Event} (h : Recounts origin es t fs ended)
    (hinc : (es ++ [e]).Pairwise fun d e => d.orderIndex < e.orderIndex)
    (hok : (t.step e).fault = none) :
    ∃ gs more, Recounts origin (es ++ [e]) (t.step e).tracker gs (ended ++ more) := by
  obtain ⟨n, notices, hhistory, htracker⟩ := h
  obtain ⟨hpast, _, hnew⟩ := List.pairwise_append.mp hinc
  have hmatching : t.matching = origin.matching := by
    rw [htracker]; exact recordedAll_matching _ ended
  have htracks : Tracks t fs := by
    have hsound := hhistory.sound hpast
    rw [← hmatching] at hsound
    rw [htracker] at hsound ⊢
    exact ⟨rfl, rfl, hsound⟩
  have hopen : ∀ d ∈ t.openEvents, d.orderIndex < e.orderIndex := by
    rw [htracks.openEvents]
    exact fun d hd => hnew d (hhistory.openEvents_subset d hd) e (by simp)
  obtain ⟨gs, k, more, notices', hmoves, hnext, _⟩ := htracks.step hopen hok
  rw [hmatching, htracker] at hmoves
  refine ⟨gs, more, k, notices', .step hhistory hmoves, ?_⟩
  rw [hnext, htracker, recordedAll_append, recordedAll_noting, recordedAll_holding]
  rfl

theorem exists_recounts (trace : TraceInfo) (m : Matching) (model : Model)
    (hinc : es.Pairwise fun d e => d.orderIndex < e.orderIndex)
    (hok : ((start trace m model).run es).fault = none) :
    ∃ fs ended, Recounts (start trace m model) es ((start trace m model).run es).tracker fs ended := by
  induction es using List.reverseRecOn with
  | nil => exact ⟨[], [], recounts_start trace m model⟩
  | append_singleton past e ih =>
    obtain ⟨hrun, hstep, heq⟩ := run_snoc hok
    obtain ⟨fs, ended, h⟩ := ih (List.pairwise_append.mp hinc).1 hrun
    obtain ⟨gs, more, hnext⟩ := h.step hinc hstep
    exact ⟨gs, ended ++ more, heq ▸ hnext⟩

end Recounts

/-- A tracker that came to its present state without a fault, beside its history: the events that it
took in, its frames and the ended invocations. Which notices it gave is left open. -/
structure Reached (trace : TraceInfo) (m : Matching) (es : List Event) (t : Tracker)
    (fs : List Frame) (ended : List Invocation) : Prop where
  info : t.trace = trace
  matching : t.matching = m
  history : History m es fs t.nextEoi ended
  tracks : Tracks t fs
  ids : t.executions.traceId = trace.traceId ∧ t.executions.sessionId = trace.sessionId
  sorted : t.executions.executions.Pairwise fun d e => d.eoi ≤ e.eoi
  /-- The recorded executions are the ended invocations. -/
  intervals : t.intervals ~ ended.map (·.interval)

section Reached

variable {trace : TraceInfo} {m : Matching} {es : List Event} {t : Tracker} {fs : List Frame}
  {ended : List Invocation}

theorem reached_start (trace : TraceInfo) (m : Matching) (model : Model) :
    Reached trace m [] (start trace m model) [] [] where
  info := rfl
  matching := rfl
  history := .start
  tracks := ⟨rfl, rfl, trivial, by simp, List.Pairwise.nil⟩
  ids := ⟨rfl, rfl⟩
  sorted := List.Pairwise.nil
  intervals := List.Perm.refl _

theorem Reached.noted (h : Reached trace m es t fs ended) (notice : Notice) :
    Reached trace m es (t.note notice) fs ended :=
  { h with tracks := ⟨h.tracks.openEvents, h.tracks.slots, h.tracks.sound⟩ }

theorem Reached.openEvents_subset (h : Reached trace m es t fs ended) : t.openEvents ⊆ es := by
  intro d hd
  rw [h.tracks.openEvents] at hd
  exact h.history.openEvents_subset d hd

theorem Reached.step {e : Event} (h : Reached trace m es t fs ended)
    (hnew : ∀ d ∈ es, d.orderIndex < e.orderIndex) (hok : (t.step e).fault = none) :
    ∃ gs more, Moves m e fs t.nextEoi gs (t.step e).tracker.nextEoi more ∧
      Reached trace m (es ++ [e]) (t.step e).tracker gs (ended ++ more) := by
  have hopen : ∀ d ∈ t.openEvents, d.orderIndex < e.orderIndex :=
    fun d hd => hnew d (h.openEvents_subset hd)
  obtain ⟨gs, n, more, notices, hmoves, hstep, htracks⟩ := h.tracks.step hopen hok
  rw [h.matching] at hmoves
  have hintervals : (t.recordedAll more).intervals ~ (ended ++ more).map (·.interval) := by
    rw [List.map_append]
    calc (t.recordedAll more).intervals
      _ ~ more.map (·.interval) ++ t.intervals := intervals_recordedAll t more
      _ ~ more.map (·.interval) ++ ended.map (·.interval) := h.intervals.append_left _
      _ ~ ended.map (·.interval) ++ more.map (·.interval) := List.perm_append_comm
  rw [hstep] at htracks ⊢
  exact ⟨gs, more, hmoves,
    { info := (recordedAll_trace t more).trans h.info
      matching := (recordedAll_matching t more).trans h.matching
      history := .step h.history hmoves
      tracks := htracks
      ids := ⟨(recordedAll_traceId t more).trans h.ids.1,
        (recordedAll_sessionId t more).trans h.ids.2⟩
      sorted := sorted_recordedAll t more h.sorted
      intervals := hintervals }⟩

end Reached

end Tracker

end Retrace
