import Retrace.Proofs.Balance
import Retrace.Proofs.Conservation
import Retrace.Proofs.Origins
import Retrace.Proofs.Passage

/-! Traces without call markers. The open invocations of such a trace are the beginnings that its
word leaves open, each with the number of beginnings before it and the number of those below it. So
a trace is taken in exactly if its word goes on to a balanced one, and what is recorded are the
invocations that are closed in it. -/

namespace Retrace
open Event Retrace.Frame

namespace Frame

/-- The frames of beginnings that are open. -/
def ofOpenings : List Opening → List Frame
  | [] => []
  | o :: below =>
    .begun o.kind o.stamp o.operation ⟨o.rank, below.length⟩ none :: ofOpenings below

section OfOpenings

variable (opened : List Opening)

theorem length_ofOpenings : (ofOpenings opened).length = opened.length := by
  induction opened with
  | nil => rfl
  | cons o below ih => rw [ofOpenings, List.length_cons, List.length_cons, ih]

theorem openEvents_ofOpenings : openEvents (ofOpenings opened) = opened.map Opening.event := by
  induction opened with
  | nil => rfl
  | cons o below ih => rw [ofOpenings, openEvents_cons, ih]; rfl

/-- There is no call to close. -/
theorem close_ofOpenings (signature : String) (time : Int) :
    close signature time (ofOpenings opened) = ([], ofOpenings opened) := by
  cases opened <;> rfl

/-- The innermost one is assumed unless it is the only one. -/
theorem endedAt_ofOpenings (o : Opening) (time : Int) :
    (begun o.kind o.stamp o.operation ⟨o.rank, opened.length⟩ none).endedAt time
      (!((none : Option Event).isSome || (ofOpenings opened).isEmpty)) =
        o.endedAt opened.length time := by
  cases opened <;> rfl

end OfOpenings

/-- What the frames of a history without call markers are, and what has ended. -/
theorem History.unmarked {m : Matching} {es : List Event} {fs : List Frame} {n : Nat}
    {ended : List Invocation} (h : History m es fs n ended) (hcalls : ∀ e ∈ es, e.isCall = false) :
    ∃ opened, Leaves (word es) opened ∧ fs = ofOpenings opened ∧ n = (word es).countP begins ∧
      ∀ i, i ∈ ended ↔ ClosedIn (word es) i := by
  induction h with
  | start =>
    refine ⟨[], .closed .nil, rfl, rfl, fun i => iff_of_false (List.not_mem_nil) ?_⟩
    rintro ⟨hsplit, _, _⟩
    simp at hsplit
  | @step es e fs gs n k ended more _ hmoves ih =>
    obtain ⟨opened, hleaves, hfs, rfl, hended⟩ :=
      ih fun d hd => hcalls d (List.mem_append_left [e] hd)
    have hcall := hcalls e (by simp)
    rw [word_append, word_singleton]
    cases hmoves with
    | call _ => cases hcall
    | announced _ => cases opened <;> cases hfs
    | @unannounced kind stamp operation _ below _ _ _ hclose =>
      rw [hfs, close_ofOpenings] at hclose
      obtain ⟨rfl, rfl⟩ := Prod.mk.inj hclose
      let o : Opening := ⟨kind, stamp, operation, (word es).countP begins⟩
      rw [if_neg (by simp [isIgnored])]
      refine ⟨o :: opened, hleaves.begin (o := o) rfl, ?_, by simp [begins], fun i => ?_⟩
      · rw [ofOpenings, length_ofOpenings]
      · rw [List.append_nil, hended]
        exact closedIn_begin.symm
    | @ended _ kind stamp endStamp operation slot marker? _ below _ _ hend hclose =>
      rw [hfs, close_ofOpenings] at hclose
      obtain ⟨rfl, htop⟩ := Prod.mk.inj hclose
      cases opened with
      | nil => cases htop
      | cons o below =>
        obtain ⟨hfirst, rfl⟩ := List.cons.inj htop
        obtain ⟨rfl, rfl, rfl, rfl, rfl⟩ := Frame.begun.inj hfirst
        obtain ⟨_, hbegins, hignored⟩ := ends_of_ending hend
        rw [if_neg (by simp [hignored])]
        refine ⟨below, hleaves.close hend, rfl, by simp [hbegins], fun i => ?_⟩
        rw [hleaves.closedIn_close hend, List.nil_append, List.mem_append, hended,
          List.mem_singleton, endedAt_ofOpenings]
    | ignored hignored =>
      rw [if_pos hignored, List.append_nil]
      exact ⟨opened, hleaves, hfs, rfl, by simpa using hended⟩

end Frame

namespace Tracker

/-- An event after which the word still goes on to a balanced one shows no fault, if time goes on. -/
theorem not_genuine_of_leaves {t : Tracker} {w : List Event} {opened others : List Opening}
    {e : Event} (hevents : t.openEvents = opened.map Opening.event) (hleaves : Leaves w opened)
    (hnext : Leaves (w ++ [e]) others) (htime : ∀ d ∈ t.openEvents, d.timestamp ≤ e.timestamp)
    (fault : TraceFault) : ¬ Genuine t e fault := by
  have hquiet : t.Quiet := by
    rw [Quiet, hevents]
    cases opened with
    | nil => simp
    | cons o below => simp [Opening.event, isCall]
  have hhead : ∀ {kind stamp operation u}, e.ending? = some (kind, stamp, operation) →
      t.closeCalls operation.signature stamp.timestamp = ⟨u, none⟩ →
      ∃ begunAt, u.openEvents.head? = some (.before kind begunAt operation) := by
    intro kind stamp operation u hend hclose
    rw [closeCalls_of_quiet hquiet] at hclose
    obtain ⟨rfl, _⟩ := Step.mk.inj hclose
    rw [hevents]
    exact hleaves.head_of_end hnext hend
  rintro (⟨hend, hclose, hnone⟩ | ⟨hend, hclose, hopened, hne⟩ | ⟨hd, hentry, hexit, hback⟩)
  · obtain ⟨begunAt, htop⟩ := hhead hend hclose
    exact hnone begunAt _ htop
  · obtain ⟨begunAt, htop⟩ := hhead hend hclose
    rw [hopened] at htop
    obtain ⟨_, _, rfl⟩ := Event.before.inj (Option.some.inj htop)
    exact hne rfl
  · have := htime _ hd
    omega

section Unmarked

variable (trace : TraceInfo) (m : Matching) (model : Model) {es : List Event}
  (hcalls : ∀ e ∈ es, e.isCall = false)
  (hinc : es.Pairwise fun d e => d.orderIndex < e.orderIndex)
include hcalls hinc

/-- A run without call markers comes to what its word leaves open, with what is closed on record. -/
theorem exists_word (hok : ((start trace m model).run es).fault = none) :
    ∃ opened ended, Leaves (word es) opened ∧ (∀ i, i ∈ ended ↔ ClosedIn (word es) i) ∧
      Recounts (start trace m model) es ((start trace m model).run es).tracker (ofOpenings opened)
        ended := by
  obtain ⟨fs, ended, hrecounts⟩ := exists_recounts trace m model hinc hok
  obtain ⟨n, notices, hhistory, htracker⟩ := hrecounts
  obtain ⟨opened, hleaves, rfl, -, hended⟩ := hhistory.unmarked hcalls
  exact ⟨opened, ended, hleaves, hended, n, notices, hhistory, htracker⟩

/-- Ends that close what is innermost are all that a run without call markers takes. -/
theorem run_unmarked_iff (htime : (word es).Pairwise fun d e => d.timestamp ≤ e.timestamp) :
    ((start trace m model).run es).fault = none ↔ ∃ opened, Leaves (word es) opened := by
  constructor
  · intro hok
    obtain ⟨opened, _, hleaves, _⟩ := exists_word trace m model hcalls hinc hok
    exact ⟨opened, hleaves⟩
  · rintro ⟨opened, hleaves⟩
    by_contra hfault
    obtain ⟨fault, hfault⟩ := Option.ne_none_iff_exists'.mp hfault
    obtain ⟨past, e, later, rfl, hpast, hstep⟩ := exists_step_of_fault hfault
    obtain ⟨hsupplied, hopen⟩ := (supplied_start trace m model).run hpast
    obtain ⟨left, _, hleft, _, hrecounts⟩ := exists_word trace m model
      (fun d hd => hcalls d (List.mem_append_left _ hd)) (List.pairwise_append.mp hinc).1 hpast
    have hevents : ((start trace m model).run past).tracker.openEvents =
        left.map Opening.event := hrecounts.openEvents.trans (openEvents_ofOpenings left)
    have htold : e.isIgnored = false := by
      cases e <;> first | rfl | cases hstep
    have hword : word (past ++ e :: later) = word past ++ [e] ++ word later := by
      simp [word, htold]
    rw [hword] at hleaves htime
    obtain ⟨_, hnext⟩ := hleaves.of_append
    refine not_genuine_of_leaves hevents hleft hnext (fun d hd => ?_) fault
      ((hsupplied.step e).genuine fault hstep)
    have hcame : d ∈ past := (hopen d hd).resolve_right (by simp [start])
    obtain ⟨o, _, rfl⟩ := List.mem_map.mp (hevents ▸ hd)
    have hmem : o.event ∈ word past := List.mem_filter.mpr ⟨hcame, rfl⟩
    exact (List.pairwise_append.mp (List.pairwise_append.mp htime).1).2.2 _ hmem e (by simp)

/-- The executions are the invocations that are closed in the word, each once. -/
theorem executions_unmarked (hok : ((start trace m model).run es).fault = none) :
    let t := ((start trace m model).run es).tracker
    ExecutionTrace.Ascending t.executions.executions ∧
      ∀ x, x ∈ t.executions.executions ↔
        ∃ i, ClosedIn (word es) i ∧ x = (i.execution trace m t.model).1 := by
  intro t
  refine ⟨?_, fun x => ?_⟩
  · have hconserved := ((supplied_start trace m model).run hok).1.accounted.conserved
    exact ExecutionTrace.ascending_of_sorted (run_sorted es List.Pairwise.nil) hconserved.recorded
  · obtain ⟨_, ended, _, hended, hrecounts⟩ := exists_word trace m model hcalls hinc hok
    simp only [hrecounts.mem_executions, hended, t]

end Unmarked

end Tracker

/-- A batch of beginnings and ends at their places, without call markers and with time going on,
fails exactly if its word does not go on to a balanced one. If it does not fail, the executions are
the invocations that are closed in the word, each once. -/
theorem reconstruct_unmarked (settings : Settings) {selection : Selection} (model : Model)
    {batch : Batch} (hselected : selection.contains batch.traceId)
    (hcalls : ∀ e ∈ batch.events, e.isCall = false)
    (hplaces : InPlace batch.traceId 0 batch.events)
    (htime : (word batch.events).Pairwise fun d e => d.timestamp ≤ e.timestamp) :
    let result := reconstruct settings selection model batch
    (result.outcome.isFailed ↔ ¬ ∃ rest, Balanced (word batch.events ++ rest)) ∧
      (result.outcome.isFailed = false → ∃ executions,
        result.outcome.executions? = some executions ∧
        ExecutionTrace.Ascending executions.executions ∧
        ∀ x, x ∈ executions.executions ↔ ∃ i, ClosedIn (word batch.events) i ∧
          x = (i.execution batch.trace settings.matching result.model).1) := by
  intro result
  have hinc : batch.events.Pairwise fun d e => d.orderIndex < e.orderIndex :=
    inSequence_of_inPlace hplaces ▸ inSequence_pairwise batch.traceId 0 batch.events
  have hfeed := @Tracker.feed_of_inPlace (.start batch.trace settings.matching model) _ 0 0 hplaces
  have htaken := Tracker.run_unmarked_iff batch.trace settings.matching model hcalls hinc htime
  rw [exists_balanced_iff, ← htaken]
  cases hfault : ((Tracker.start batch.trace settings.matching model).run batch.events).fault with
  | some fault =>
    have hfailed : result.outcome.isFailed = true := by
      simp only [result, reconstruct, if_pos hselected, hfeed, hfault]
      rfl
    simp [hfailed]
  | none =>
    rw [hfault] at hfeed
    have htold := Tracker.executions_unmarked batch.trace settings.matching model hcalls hinc hfault
    generalize ((Tracker.start batch.trace settings.matching model).run batch.events).tracker = t
      at hfeed htold
    have hresult : result = _ := reconstruct_of_feed hselected hfeed
    obtain ⟨hnot, hexecutions⟩ := t.finish.conclude_executions
    have hmodel : result.model = t.model := by rw [hresult]; exact t.finish_model
    refine ⟨?_, fun _ => ⟨t.executions, ?_, ?_⟩⟩
    · rw [hresult, hnot]
      simp
    · rw [hresult, ← t.finish_executions]
      exact hexecutions
    · rw [hmodel]
      exact htold

/-- An operation that does not end, and in it a constructor that fails and another operation. -/
def unendedBatch : Batch :=
  let serve : OperationRef := ⟨"void web.Server.serve()", "web.Server"⟩
  let create : OperationRef := ⟨"db.Row.<init>()", "db.Row"⟩
  let store : OperationRef := ⟨"int db.Row.store()", "db.Row"⟩
  ⟨{ traceId := 7, sessionId := "s", hostname := "srv" },
    [.before .operation ⟨1, 7, 0⟩ serve, .before .constructor ⟨2, 7, 1⟩ create, .split ⟨0, 7, 2⟩,
      .afterFailed .constructor ⟨4, 7, 3⟩ create "timeout", .before .operation ⟨4, 7, 4⟩ store,
      .after .operation ⟨6, 7, 5⟩ store]⟩

theorem unendedBatch_taken :
    let result := reconstruct {} .all {} unendedBatch
    result.outcome.isFailed = false ∧ ∃ executions,
      result.outcome.executions? = some executions ∧
      (executions.executions.map fun x => (x.interval, x.assumed)) =
        [(⟨1, 1, 2, 4⟩, true), (⟨2, 1, 4, 6⟩, true)] ∧
      ∀ x ∈ executions.executions, ∃ i, ClosedIn (word unendedBatch.events) i ∧
        x.interval = i.interval := by
  intro result
  obtain ⟨hfailed, hclosed⟩ := @reconstruct_unmarked {} .all {} unendedBatch rfl (by decide)
    ⟨rfl, rfl, rfl, rfl, rfl, rfl, rfl, rfl, rfl, rfl, rfl, rfl, trivial⟩ (by decide)
  have hbalanced : ∃ rest, Balanced (word unendedBatch.events ++ rest) :=
    ⟨[.after .operation ⟨7, 7, 6⟩ ⟨"void web.Server.serve()", "web.Server"⟩],
      .pair rfl (.pair rfl .nil (.pair rfl .nil .nil)) .nil⟩
  have hok : result.outcome.isFailed = false :=
    Bool.eq_false_iff.mpr fun h => hfailed.mp h hbalanced
  obtain ⟨executions, hexecutions, _, hmem⟩ := hclosed hok
  have hintervals : (result.outcome.executions?.map fun t => t.executions.map fun x =>
      (x.interval, x.assumed)) = some [(⟨1, 1, 2, 4⟩, true), (⟨2, 1, 4, 6⟩, true)] := by
    decide +kernel
  rw [hexecutions] at hintervals
  refine ⟨hok, executions, hexecutions, Option.some.inj hintervals, fun x hx => ?_⟩
  obtain ⟨i, hi, hexecution⟩ := (hmem x).mp hx
  exact ⟨i, hi, hexecution ▸ i.interval_execution _ _ _⟩

end Retrace
