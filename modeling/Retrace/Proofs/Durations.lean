import Retrace.Proofs.Origins

/-! Durations. No time is made up: an execution begins and ends at the times of two events. Times
have 64 bits, and the time between two of them may need one more. As nothing ends before it begins,
such a duration comes out negative, and one that is not negative is right. If that of a trace is not
negative, nor is that of any of its executions. -/

namespace Retrace

/-- The time that passes from one integer of a width to a later one fits the width, unless it wraps
around to a negative one. -/
theorem wrapSigned_sub_nonneg_iff {bits : Nat} (hbits : 0 < bits) {first last : Int}
    (hfirst : FitsSigned bits first) (hlast : FitsSigned bits last) (hle : first ≤ last) :
    0 ≤ wrapSigned bits (last - first) ↔ FitsSigned bits (last - first) := by
  constructor
  · intro hnonneg
    by_contra hlong
    have hdouble := capacity_eq_double hbits
    obtain ⟨hlow, _⟩ := hfirst
    obtain ⟨_, hhigh⟩ := hlast
    have hover : (capacity (bits - 1) : Int) ≤ last - first :=
      Int.not_lt.mp fun hlt => hlong ⟨by omega, hlt⟩
    -- One capacity less has the same lowest bits, and fits.
    have hwrapped : wrapSigned bits (last - first) = last - first - capacity bits := by
      unfold wrapSigned
      rw [← Int.sub_bmod_right]
      exact Int.bmod_eq_of_le_mul_two (by omega) (by omega)
    omega
  · intro hfits
    rw [(wrapSigned_eq_self_iff hbits).mpr hfits]
    omega

/-! ## Times -/

namespace Frame

section Moves

variable {m : Matching} {fs gs : List Frame} {n k : Nat} {ended : List Invocation}

theorem exitTime_close {signature : String} {time : Int} {below : List Frame}
    (h : close signature time fs = (ended, below)) : ∀ i ∈ ended, i.exitTime = time := by
  obtain ⟨closed, _, _, hended⟩ := close_split signature time fs
  rw [h] at hended
  intro i hi
  rw [show ended = _ from hended] at hi
  obtain ⟨f, _, rfl⟩ := List.mem_map.mp hi
  exact f.exitTime_endedAt time true

/-- What an event ends, ends at its time. -/
theorem Moves.exitTime {e : Event} (h : Moves m e fs n gs k ended) :
    ∀ i ∈ ended, i.exitTime = e.timestamp := by
  cases h with
  | call hclose => exact exitTime_close hclose
  | announced _ => simp
  | unannounced _ hclose => exact exitTime_close hclose
  | @ended _ _ _ endStamp _ _ _ _ _ _ _ hend hclose =>
    have htime : e.timestamp = endStamp.timestamp := by
      cases e <;> cases hend <;> rfl
    intro i hi
    rw [htime]
    rcases List.mem_append.mp hi with hi | hi
    · exact exitTime_close hclose i hi
    · rw [List.mem_singleton.mp hi, exitTime_endedAt]
  | ignored _ => simp

theorem History.exitTime {past : List Event} (h : History m past fs n ended) :
    ∀ i ∈ ended, ∃ e ∈ past, i.exitTime = e.timestamp := by
  induction h with
  | start => simp
  | step _ hmoves ih =>
    intro i hi
    rcases List.mem_append.mp hi with hi | hi
    · obtain ⟨e, he, htime⟩ := ih i hi
      exact ⟨e, List.mem_append_left _ he, htime⟩
    · exact ⟨_, List.mem_append_right _ List.mem_cons_self, hmoves.exitTime i hi⟩

end Moves

end Frame

/-- In whatever order events come, no execution is recorded that ends before it begins. -/
theorem Tracker.feed_forward {t : Tracker} {place dropped : Nat} {es : List Event}
    (h : ∀ x ∈ t.executions.executions, x.entryTime ≤ x.exitTime)
    (hok : (t.feed place dropped es).fault = none) :
    ∀ x ∈ (t.feed place dropped es).tracker.executions.executions, x.entryTime ≤ x.exitTime := by
  refine feed_keeps (P := fun u => ∀ x ∈ u.executions.executions, x.entryTime ≤ x.exitTime)
    (fun _ _ hu => hu) (fun u e hu _ => ?_) h hok
  refine step_keeps (P := fun u => ∀ x ∈ u.executions.executions, x.entryTime ≤ x.exitTime)
    (fun _ _ _ _ _ hu => hu) (fun u i hu => ?_) hu e
  rw [record_eq]
  split
  · rename_i hadd
    obtain ⟨_, htime, _, rfl⟩ := ExecutionTrace.add_eq_ok hadd
    intro x hx
    rcases ExecutionTrace.mem_insert.mp hx with rfl | hx
    · exact htime
    · exact hu x hx
  · exact hu

section Batch

variable {settings : Settings} {selection : Selection} {model : Model} {batch : Batch}
  {executions : ExecutionTrace}
  (h : (reconstruct settings selection model batch).outcome.executions? = some executions)
include h

/-- Every execution of a batch begins at the time of one of its events, and ends at that of another
one or the same, and not before it begins. -/
theorem reconstruct_times : ∀ x ∈ executions.executions, x.entryTime ≤ x.exitTime ∧
    (∃ d ∈ batch.events, x.entryTime = d.timestamp) ∧
      ∃ e ∈ batch.events, x.exitTime = e.timestamp := by
  intro x hx
  obtain ⟨t, dropped, _, hfeed, rfl⟩ := exists_feed_of_executions h
  have hforward := @Tracker.feed_forward (.start batch.trace settings.matching model) 0 0
    batch.events (fun _ hnone => absurd hnone List.not_mem_nil) (by rw [hfeed])
  rw [hfeed] at hforward
  obtain ⟨u, fs, ended, hreached, hexecutions, _⟩ := reconstruct_executions h
  have hevents : batch.inSequence ⊆ batch.events := inSequence_subset _ _ _
  have hrecorded : x.interval ∈ u.intervals := by
    rw [Tracker.intervals, hexecutions]
    exact List.mem_map_of_mem hx
  obtain ⟨i, hi, hinterval⟩ := List.mem_map.mp (hreached.intervals.mem_iff.mp hrecorded)
  obtain ⟨_, _, hentry, hexit⟩ := Interval.mk.inj hinterval
  obtain ⟨d, hd, hbegun⟩ := (hreached.history.openedIn hevents).2 i hi
  obtain ⟨e, he, hended⟩ := hreached.history.exitTime i hi
  exact ⟨hforward x hx, ⟨d, hd, hentry ▸ hbegun.time⟩, e, hevents he, hexit ▸ hended⟩

end Batch

/-! ## Executions and traces -/

/-- Is the execution over no sooner than it began, at times that fit 64 bits? -/
structure Execution.Timed (x : Execution) : Prop where
  forward : x.entryTime ≤ x.exitTime
  entry : FitsSigned 64 x.entryTime
  exit : FitsSigned 64 x.exitTime

theorem Execution.duration_eq_iff (x : Execution) :
    x.duration = x.exitTime - x.entryTime ↔ FitsSigned 64 (x.exitTime - x.entryTime) :=
  wrapSigned_eq_self_iff (by decide)

theorem Execution.Timed.duration_nonneg_iff {x : Execution} (h : x.Timed) :
    0 ≤ x.duration ↔ FitsSigned 64 (x.exitTime - x.entryTime) :=
  wrapSigned_sub_nonneg_iff (by decide) h.entry h.exit h.forward

/-- The longest span that there is comes out as a duration of minus one. -/
example : Execution.duration { Execution.root 7 "" with
    entryTime := -9223372036854775808, exitTime := 9223372036854775807 } = -1 := by rfl

namespace ExecutionTrace

/-- A trace lasts from the entry of one execution to the exit of one, and all the others lie between
them. -/
theorem exists_bounds {t : ExecutionTrace} {x : Execution} (hx : x ∈ t.executions) :
    ∃ d ∈ t.executions, ∃ e ∈ t.executions,
      t.duration = wrapSigned 64 (e.exitTime - d.entryTime) ∧
      ∀ y ∈ t.executions, d.entryTime ≤ y.entryTime ∧ y.exitTime ≤ e.exitTime := by
  have hentries : x.entryTime ∈ t.executions.map (·.entryTime) := List.mem_map_of_mem hx
  have hexits : x.exitTime ∈ t.executions.map (·.exitTime) := List.mem_map_of_mem hx
  obtain ⟨first, hfirst⟩ := Option.isSome_iff_exists.mp (List.isSome_min?_of_mem hentries)
  obtain ⟨last, hlast⟩ := Option.isSome_iff_exists.mp (List.isSome_max?_of_mem hexits)
  obtain ⟨hentry, hleast⟩ := List.min?_eq_some_iff.mp hfirst
  obtain ⟨hexit, hmost⟩ := List.max?_eq_some_iff.mp hlast
  obtain ⟨d, hd, rfl⟩ := List.mem_map.mp hentry
  obtain ⟨e, he, rfl⟩ := List.mem_map.mp hexit
  refine ⟨d, hd, e, he, ?_, fun y hy => ?_⟩
  · rw [duration, minEntryTime?, maxExitTime?, hfirst, hlast]
  · exact ⟨hleast _ (List.mem_map_of_mem hy), hmost _ (List.mem_map_of_mem hy)⟩

/-- If the duration of a trace is not negative, those of its executions are right, and none is
longer. -/
theorem duration_covers {t : ExecutionTrace} (htimed : ∀ x ∈ t.executions, x.Timed)
    (hnonneg : 0 ≤ t.duration) : ∀ x ∈ t.executions,
      x.duration = x.exitTime - x.entryTime ∧ 0 ≤ x.duration ∧ x.duration ≤ t.duration := by
  intro x hx
  obtain ⟨d, hd, e, he, hduration, hbounds⟩ := exists_bounds hx
  obtain ⟨hentry, hexit⟩ := hbounds x hx
  have hforward := (htimed x hx).forward
  rw [hduration] at hnonneg ⊢
  have hfits := (wrapSigned_sub_nonneg_iff (by decide) (htimed d hd).entry (htimed e he).exit
    (by omega)).mp hnonneg
  rw [(wrapSigned_eq_self_iff (by decide)).mpr hfits]
  have hexact : x.duration = x.exitTime - x.entryTime := by
    obtain ⟨hlow, hhigh⟩ := hfits
    exact x.duration_eq_iff.mpr ⟨by omega, by omega⟩
  exact ⟨hexact, by omega, by omega⟩

end ExecutionTrace

/-- If the times of a batch fit 64 bits, in whatever order they come, an execution's duration is
negative only if the span does not fit, and none is if that of the trace is not. -/
theorem reconstruct_durations {settings : Settings} {selection : Selection} {model : Model}
    {batch : Batch} {executions : ExecutionTrace}
    (hfits : ∀ e ∈ batch.events, FitsSigned 64 e.timestamp)
    (h : (reconstruct settings selection model batch).outcome.executions? = some executions) :
    (∀ x ∈ executions.executions,
      0 ≤ x.duration ↔ FitsSigned 64 (x.exitTime - x.entryTime)) ∧
    (0 ≤ executions.duration → ∀ x ∈ executions.executions,
      x.duration = x.exitTime - x.entryTime ∧ 0 ≤ x.duration ∧
        x.duration ≤ executions.duration) := by
  have htimed : ∀ x ∈ executions.executions, x.Timed := by
    intro x hx
    obtain ⟨hforward, ⟨d, hd, hentry⟩, e, he, hexit⟩ := reconstruct_times h x hx
    exact ⟨hforward, hentry ▸ hfits d hd, hexit ▸ hfits e he⟩
  exact ⟨fun x hx => (htimed x hx).duration_nonneg_iff, ExecutionTrace.duration_covers htimed⟩

end Retrace
