import Retrace.Proofs.Causality
import Retrace.Proofs.Faults
import Retrace.Proofs.Sequencing

/-! Conservation. What the tracker has given a place is on record or still open, and never both.
That holds after every event up to a fault, in whatever order the events come, also after a run of
calls has been closed at once. So the gaps of a trace are what is left of the places of the open
invocations: those below some recorded one. -/

namespace Retrace

theorem ExecutionTrace.gaps_pairwise (t : ExecutionTrace) : t.gaps.Pairwise (· < ·) := by
  unfold gaps
  split
  · exact List.Pairwise.nil
  · refine List.Pairwise.filter _ (List.pairwise_map.mpr (List.pairwise_lt_range.imp ?_))
    exact fun hlt => Int.ofNat_lt.mpr hlt

namespace Tracker

/-- Are the places that were given out shared out between the recorded executions and the open
slots, each once? -/
structure Conserved (t : Tracker) : Prop where
  recorded : (t.executions.executions.map (·.eoi)).Nodup
  waiting : (t.slots.map (·.eoi)).Nodup
  apart : ∀ e ∈ t.executions.executions, ∀ s ∈ t.slots, e.eoi ≠ s.eoi
  places : ∀ eoi : Int, (∃ e ∈ t.executions.executions, e.eoi = eoi) ∨
    (∃ s ∈ t.slots, s.eoi = eoi) ↔ 0 ≤ eoi ∧ eoi < t.nextEoi

section Conserved

variable {t : Tracker}

theorem intervals_eoi (t : Tracker) :
    t.intervals.map (·.eoi) = t.executions.executions.map (·.eoi) := by
  rw [intervals, List.map_map]
  rfl

theorem Accounted.conserved (h : t.Accounted) : t.Conserved := by
  have hnodup := h.nodup
  have hplaces := h.places
  rw [intervals_eoi] at hnodup hplaces
  obtain ⟨hslots, hrecorded, hapart⟩ := List.nodup_append.mp hnodup
  refine ⟨hrecorded, ?_, ?_, fun eoi => ?_⟩
  · rw [show (fun s : Slot => (s.eoi : Int)) = Int.ofNat ∘ (·.eoi) from rfl, ← List.map_map] at hslots
    exact hslots.of_map _
  · intro e he s hs heq
    exact hapart _ (List.mem_map_of_mem hs) _ (List.mem_map_of_mem he) heq.symm
  · have hmem : eoi ∈ t.slots.map (fun s => (s.eoi : Int)) ++ t.executions.executions.map (·.eoi) ↔
        eoi ∈ (List.range t.nextEoi).map Int.ofNat := hplaces.mem_iff
    simp only [List.mem_append, List.mem_map, List.mem_range] at hmem
    rw [or_comm, hmem]
    constructor
    · rintro ⟨k, hk, rfl⟩
      exact ⟨Int.natCast_nonneg k, Int.ofNat_lt.mpr hk⟩
    · rintro ⟨hpos, hlt⟩
      exact ⟨eoi.toNat, by omega, Int.toNat_of_nonneg hpos⟩

/-- A place that was given out and is not on record is that of an open invocation. -/
theorem Conserved.mem_gaps_iff (h : t.Conserved)
    (hsorted : t.executions.executions.Pairwise fun d e => d.eoi ≤ e.eoi) (eoi : Int) :
    eoi ∈ t.executions.gaps ↔ (∃ s ∈ t.slots, s.eoi = eoi) ∧
      ∃ e ∈ t.executions.executions, eoi < e.eoi := by
  rw [ExecutionTrace.mem_gaps (ExecutionTrace.ascending_of_sorted hsorted h.recorded)]
  constructor
  · rintro ⟨hpos, hfree, e, he, hlt⟩
    have hbound := (h.places e.eoi).mp (.inl ⟨e, he, rfl⟩)
    refine ⟨((h.places eoi).mpr ⟨hpos, by omega⟩).resolve_left ?_, e, he, hlt⟩
    rintro ⟨d, hd, heoi⟩
    exact hfree d hd heoi
  · rintro ⟨⟨s, hs, rfl⟩, hlater⟩
    exact ⟨Int.natCast_nonneg _, fun e he => h.apart e he s hs, hlater⟩

end Conserved

/-- In whatever order events come and invocations end, the executions are kept by `eoi`. -/
theorem run_sorted {t : Tracker} (es : List Event)
    (h : t.executions.executions.Pairwise fun d e => d.eoi ≤ e.eoi) :
    (t.run es).tracker.executions.executions.Pairwise fun d e => d.eoi ≤ e.eoi := by
  refine run_keeps (P := fun u => u.executions.executions.Pairwise fun d e => d.eoi ≤ e.eoi)
    (fun _ _ _ _ _ hu => hu) (fun u i hu => ?_) h es
  rw [record_eq]
  split
  · rename_i hadd
    obtain ⟨_, _, _, rfl⟩ := ExecutionTrace.add_eq_ok hadd
    exact ExecutionTrace.insert_sorted hu
  · exact hu

theorem run_fault_of_append {t : Tracker} {ds es : List Event}
    (h : (t.run (ds ++ es)).fault = none) : (t.run ds).fault = none := by
  rw [run_append] at h
  exact (Step.andThen_of_fault h).1

/-- Nothing that was opened is lost or counted twice. After every part of the events of a trace
without a fault, the recorded executions and the open slots share out the places `0, 1, …` that were
given out. In the end the gaps are, in ascending order and each once, the places of what is still
open below the last recorded execution. -/
theorem nothing_lost (trace : TraceInfo) (m : Matching) (model : Model) {events : List Event}
    (h : ((start trace m model).run events).fault = none) :
    (∀ taken, taken <+: events → ((start trace m model).run taken).fault = none ∧
      ((start trace m model).run taken).tracker.Conserved) ∧
    ((start trace m model).run events).tracker.finish.executions.gaps.Pairwise (· < ·) ∧
    ∀ eoi, eoi ∈ ((start trace m model).run events).tracker.finish.executions.gaps ↔
      (∃ s ∈ ((start trace m model).run events).tracker.slots, s.eoi = eoi) ∧
      ∃ e ∈ ((start trace m model).run events).tracker.executions.executions, eoi < e.eoi := by
  have hconserved : ∀ taken, taken <+: events → ((start trace m model).run taken).fault = none ∧
      ((start trace m model).run taken).tracker.Conserved := by
    rintro taken ⟨later, rfl⟩
    have hok := run_fault_of_append h
    exact ⟨hok, ((supplied_start trace m model).run hok).1.accounted.conserved⟩
  refine ⟨hconserved, ExecutionTrace.gaps_pairwise _, fun eoi => ?_⟩
  rw [finish_executions]
  exact (hconserved events List.prefix_rfl).2.mem_gaps_iff (run_sorted events List.Pairwise.nil) eoi

/-- The slot of the late beginning is left over, and is the gap below the other two places. -/
theorem nothing_lost_beginningCameLate :
    ((start { traceId := 7 } {} {}).run (beginningCameLate.take 4)).fault = none ∧
      0 ∈ ((start { traceId := 7 } {} {}).run
        (beginningCameLate.take 4)).tracker.finish.executions.gaps :=
  have hok : ((start { traceId := 7 } {} {}).run (beginningCameLate.take 4)).fault = none := by rfl
  ⟨hok, ((nothing_lost { traceId := 7 } {} {} hok).2.2 0).mpr (by decide)⟩

end Tracker

end Retrace
