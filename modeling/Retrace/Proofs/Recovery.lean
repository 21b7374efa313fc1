import Retrace.Proofs.Conversion
import Retrace.Proofs.Entities
import Retrace.Proofs.Passage
import Retrace.Proofs.Sequencing

/-! Recovery of forests. The batch that reports a forest is taken in without a fault or a loss, and
what it comes to is the forest again: its invocations in the order in which they begin, with the
entities that they have when the batch is over, and its messages. -/

namespace Retrace
open scoped List

/-! ## The places of the events -/

section Places

variable {stamp : Nat → Stamp} {traceId : Int}

theorem leaving_stamp (kind : OperationKind) (s : Stamp) (operation : OperationRef)
    (cause? : Option String) : (Event.leaving kind s operation cause?).stamp = s := by
  cases cause? <;> rfl

variable (hindex : ∀ i, (stamp i).orderIndex = i) (hid : ∀ i, (stamp i).traceId = traceId)
include hindex hid

theorem inPlace_invocation {kind : OperationKind} {operation : OperationRef}
    {cause? : Option String} {place span : Nat} {inner later : List Event}
    (hspan : inner.length = span) (hinner : InPlace traceId (place + 1) inner)
    (hlater : InPlace traceId (place + span + 2) later) :
    InPlace traceId place (.before kind (stamp place) operation ::
      (inner ++ .leaving kind (stamp (place + 1 + span)) operation cause? :: later)) := by
  have hleaving := leaving_stamp kind (stamp (place + 1 + span)) operation cause?
  have hnext : place + 1 + span + 1 = place + span + 2 := by omega
  refine ⟨hindex place, hid place, inPlace_append.mpr ⟨hinner, ?_⟩⟩
  rw [hspan]
  refine ⟨?_, ?_, hnext ▸ hlater⟩
  · rw [Event.orderIndex, hleaving, hindex]
  · rw [Event.traceId, hleaving, hid]

theorem Course.events_inPlace {k : Bool} (c : Course k) (caller : OperationRef) (place : Nat) :
    InPlace traceId place (c.events stamp caller place) := by
  induction c generalizing caller place with
  | done => trivial
  | @observed k kind operation cause? inner rest ihInner ihRest =>
    cases k with
    | true =>
      exact ⟨hindex place, hid place, inPlace_invocation hindex hid (inner.events_length _ _ _)
        (ihInner _ _) (ihRest _ _)⟩
    | false =>
      exact inPlace_invocation hindex hid (inner.events_length _ _ _) (ihInner _ _) (ihRest _ _)
  | unobserved kind operation inner rest ihInner ihRest =>
    refine ⟨hindex place, hid place, inPlace_append.mpr ⟨ihInner _ _, ?_⟩⟩
    rw [inner.events_length]
    exact ihRest _ _

theorem Root.events_inPlace (r : Root) (place : Nat) :
    InPlace traceId place (r.events stamp place) := by
  obtain ⟨announcer?, kind, operation, cause?, inner⟩ := r
  cases announcer? with
  | none =>
    exact inPlace_invocation hindex hid (inner.events_length _ _ _)
      (inner.events_inPlace hindex hid _ _) trivial
  | some announcer =>
    exact ⟨hindex place, hid place, inPlace_invocation hindex hid (inner.events_length _ _ _)
      (inner.events_inPlace hindex hid _ _) trivial⟩

theorem Forest.events_inPlace (roots : List Root) (place : Nat) :
    InPlace traceId place (Forest.events stamp place roots) := by
  induction roots generalizing place with
  | nil => trivial
  | cons r rest ih =>
    refine inPlace_append.mpr ⟨r.events_inPlace hindex hid place, ?_⟩
    rw [Root.events_length]
    exact ih _

end Places

/-! ## What the batch comes to -/

namespace Tracker
open ExecutionTrace

variable {t : Tracker} {nest : Nest}

/-- When nothing is open, every place has an execution. -/
theorem Accounted.ascending (h : t.Accounted) (hslots : t.slots = [])
    (hsorted : t.executions.executions.Pairwise fun d e => d.eoi ≤ e.eoi) :
    Ascending t.executions.executions := by
  refine ascending_of_sorted hsorted ?_
  have hnodup := h.nodup
  rw [hslots, intervals, List.map_map] at hnodup
  exact hnodup

/-- The executions of the invocations that were through are in the order of the nest. -/
theorem executions_passed (hnest : nest.Numbered 0 0) (hopen : t.slots = [])
    (hnone : t.executions.executions = []) (hacc : (t.passed nest).Accounted) :
    (t.passed nest).executions.executions = nest.preorder.map fun i =>
      (i.execution t.trace t.matching (t.passed nest).model).1 := by
  have hperm := executions_recordedAll t nest.postorder
  rw [hnone, List.append_nil] at hperm
  have hleft : Ascending (t.passed nest).executions.executions :=
    hacc.ascending hopen (sorted_recordedAll t nest.postorder (by rw [hnone]; exact .nil))
  have hright : Ascending (nest.preorder.map fun i =>
      (i.execution t.trace t.matching (t.passed nest).model).1) := by
    refine List.pairwise_map.mpr ?_
    have hplaces := @List.pairwise_lt_range nest.size
    rw [List.range_eq_range', ← hnest.places] at hplaces
    exact (List.pairwise_map.mp hplaces).imp fun hlt => Int.ofNat_lt.mpr hlt
  refine List.Perm.eq_of_pairwise (fun a b _ _ hab hba => ?_) hleft hright
    (hperm.trans (nest.postorder_perm.map _))
  exact absurd hab (Int.not_lt.mpr (Int.le_of_lt hba))

/-- Executions that are those of a nest exchange its messages. -/
theorem conclude_of_nest {execution : Invocation → Execution}
    (hexecution : ∀ i, (execution i).interval = i.interval) (hnest : nest.Numbered 0 0)
    (h : t.executions.executions = nest.preorder.map execution) :
    t.conclude = (.success t.trace.traceId t.executions
      ⟨t.executions.traceId, t.executions.sessionId, nest.messages execution
        (Execution.root t.executions.traceId t.executions.sessionId)⟩, []) := by
  have hwalk := hnest.exchange hexecution
    (show callerOf (Execution.root t.executions.traceId t.executions.sessionId) [] = _ from rfl)
    rfl (show ∀ e ∈ ([] : List Execution).head?, e.ess ≤ (0 : Nat) by simp)
  rw [List.append_nil, ← h] at hwalk
  have hmessages : t.executions.toMessages = .ok ⟨t.executions.traceId, t.executions.sessionId,
      nest.messages execution
        (Execution.root t.executions.traceId t.executions.sessionId)⟩ := by
    refine toMessages_eq_ok_iff.mpr ⟨rfl, rfl, ?_⟩
    rw [hwalk]
    exact congrArg Except.ok (List.append_nil _)
  rw [conclude, hmessages]

/-- A new tracker that a nest has passed concludes with the executions and the messages of the
nest. -/
theorem conclude_passed {trace : TraceInfo} {m : Matching} {model : Model}
    (hnest : nest.Numbered 0 0) (hacc : ((start trace m model).passed nest).Accounted) :
    let through := (start trace m model).passed nest
    let execution := fun i => (Invocation.execution i trace m through.model).1
    through.conclude = (.success trace.traceId
      ⟨trace.traceId, trace.sessionId, nest.preorder.map execution⟩
      ⟨trace.traceId, trace.sessionId,
        nest.messages execution (Execution.root trace.traceId trace.sessionId)⟩, []) := by
  intro through execution
  have hexecutions : through.executions.executions = nest.preorder.map execution :=
    executions_passed hnest rfl rfl hacc
  have htrace : through.trace = trace := recordedAll_trace _ nest.postorder
  have hall : through.executions =
      ⟨trace.traceId, trace.sessionId, nest.preorder.map execution⟩ := by
    rw [← hexecutions]
    exact congrArg₂ (ExecutionTrace.mk · · through.executions.executions)
      (recordedAll_traceId _ nest.postorder) (recordedAll_sessionId _ nest.postorder)
  rw [conclude_of_nest (fun _ => rfl) hnest hexecutions, htrace, hall]

end Tracker

/-- The stamps of events that are all at their places. The clock may stop after the last one. -/
def stamps (trace : TraceInfo) (clock : Nat → Int) (place : Nat) : Stamp :=
  ⟨clock place, trace.traceId, place⟩

/-- The batch that reports a forest. -/
def Forest.batch (trace : TraceInfo) (clock : Nat → Int) (roots : List Root) : Batch :=
  ⟨trace, Forest.events (stamps trace clock) 0 roots⟩

/-- A forest is recovered from the batch that reports it: nothing is dropped and nothing is noted,
the executions are those of its invocations in the order in which they begin, one for each place,
and the messages are those that the invocations exchange. -/
theorem forest_recovered (settings : Settings) {selection : Selection} (model : Model)
    (trace : TraceInfo) {clock : Nat → Int} (roots : List Root)
    (hselected : selection.contains trace.traceId)
    (hclock : ∀ i j, i ≤ j → clock i ≤ clock j)
    (hclear : Forest.Clear settings.matching (stamps trace clock) 0 roots) :
    let result := reconstruct settings selection model (Forest.batch trace clock roots)
    let outline := Forest.outline (stamps trace clock) 0 0 roots
    let execution := fun i => (Invocation.execution i trace settings.matching result.model).1
    result.outcome = .success trace.traceId
        ⟨trace.traceId, trace.sessionId, outline.preorder.map execution⟩
        ⟨trace.traceId, trace.sessionId,
          outline.messages execution (Execution.root trace.traceId trace.sessionId)⟩ ∧
      result.dropped = 0 ∧ result.notices = [] ∧
      outline.preorder.map (·.slot.eoi) = List.range outline.size := by
  intro result outline execution
  have hnest : outline.Numbered 0 0 := Forest.outline_numbered _ _ _ _
  obtain ⟨hrun, hacc⟩ := @Forest.passes (stamps trace clock) (fun _ => rfl) hclock roots
    (Tracker.start trace settings.matching model) 0 rfl rfl
    (Tracker.accounted_start trace settings.matching model) hclear
  have hplaces := @Forest.events_inPlace (stamps trace clock) trace.traceId (fun _ => rfl)
    (fun _ => rfl) roots 0
  have hfeed := @Tracker.feed_of_inPlace (Tracker.start trace settings.matching model) _ 0 0
    hplaces
  rw [hrun] at hfeed
  change _ = Progress.mk ((Tracker.start trace settings.matching model).passed outline) 0 none
    at hfeed
  have hresult := @reconstruct_of_feed settings selection model (Forest.batch trace clock roots)
    _ _ hselected hfeed
  have hnotices : ((Tracker.start trace settings.matching model).passed outline).notices = [] :=
    Tracker.recordedAll_notices _ outline.postorder
  rw [Tracker.finish_of_closed rfl, hnotices, Tracker.conclude_passed hnest hacc] at hresult
  have hmodel : result.model =
      ((Tracker.start trace settings.matching model).passed outline).model :=
    congrArg BatchResult.model hresult
  refine ⟨?_, congrArg BatchResult.dropped hresult, congrArg BatchResult.notices hresult, ?_⟩
  · rw [congrArg BatchResult.outcome hresult]
    simp only [execution, hmodel]
  · rw [List.range_eq_range']
    exact hnest.places

/-- An operation that is announced from outside and calls itself, and then something unobserved that
creates an object; after it a constructor that fails. -/
def sampleForest : List Root :=
  let serve : OperationRef := ⟨"void web.Server.serve()", "web.Server"⟩
  let create : OperationRef := ⟨"db.Row.<init>()", "db.Row"⟩
  [⟨some ⟨"void web.Client.run()", "web.Client"⟩, .operation, serve, none,
    .observed .operation serve none .done
      (.unobserved .operation ⟨"void lib.Pool.take()", "lib.Pool"⟩
        (.observed .constructor create none .done .done) .done)⟩,
   ⟨none, .constructor, create, some "timeout", .done⟩]

theorem sampleForest_recovered :
    let trace : TraceInfo := { traceId := 1, sessionId := "s", hostname := "srv" }
    let result := reconstruct {} .all {} (Forest.batch trace (fun place => place) sampleForest)
    result.dropped = 0 ∧ result.notices = [] ∧
      ∃ executions messages, result.outcome = .success 1 executions messages ∧
        executions.executions.map (·.interval) =
          [⟨0, 0, 1, 8⟩, ⟨1, 1, 3, 4⟩, ⟨2, 1, 5, 8⟩, ⟨3, 2, 6, 7⟩, ⟨4, 0, 9, 10⟩] ∧
        executions.executions.map (·.assumed) = [false, false, true, true, false] ∧
        messages.messages.map (·.timestamp) = [1, 3, 4, 5, 6, 7, 8, 8, 9, 10] := by
  intro trace result
  have hclear : Forest.Clear {} (stamps trace fun place => place) 0 sampleForest :=
    ⟨⟨trivial, by decide, by decide, ⟨trivial, trivial⟩, trivial⟩, trivial, trivial⟩
  obtain ⟨houtcome, hdropped, hnotices, _⟩ := @forest_recovered {} .all {} trace
    (fun place => place) sampleForest rfl (fun i j h => Int.ofNat_le.mpr h) hclear
  exact ⟨hdropped, hnotices, _, _, houtcome, by decide +kernel, by decide +kernel,
    by decide +kernel⟩

end Retrace
