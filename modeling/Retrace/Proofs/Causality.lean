import Retrace.Proofs.Lifetimes
import Retrace.Proofs.Sequencing
import Retrace.Proofs.Timing

/-! Causality. An invocation that is still open when its trace ends leaves a gap, and what ran
inside it has no caller of its own. If something of the right depth ended before the gap opened,
that is taken for the caller, and then calls although it is over. Without gaps the messages are in
the order of time, and with gaps they are not unless time stands still. The executions themselves
run inside each other or apart, with gaps or without. -/

namespace Retrace
open scoped List

/-- Are the messages in the order of time, and is every call sent while its sender runs? -/
def MessageTrace.Causal (t : MessageTrace) : Prop :=
  (t.messages.map (·.timestamp)).Pairwise (· ≤ ·) ∧
    ∀ m ∈ t.calls, m.sender.isRoot ∨
      m.sender.entryTime ≤ m.timestamp ∧ m.timestamp ≤ m.sender.exitTime

namespace ExecutionTrace

/-- Is there a gap between the sender and the receiver? -/
def AcrossGap (t : ExecutionTrace) (m : Message) : Prop :=
  ∃ eoi ∈ t.gaps, m.sender.eoi < eoi ∧ eoi < m.receiver.eoi

/-- The executions of a tracker: of two of them, the second one runs inside the first one, or it
begins when the first one is over, and something as shallow as the first one opened since. -/
structure Chronicle (pause : Nat) (t : ExecutionTrace) : Prop where
  ascending : Ascending t.executions
  placed : ∀ e ∈ t.executions, 0 ≤ e.eoi
  timed : ∀ e ∈ t.executions, e.entryTime ≤ e.exitTime
  paired : ∀ d ∈ t.executions, ∀ e ∈ t.executions, d.eoi < e.eoi →
    d.entryTime + pause ≤ e.entryTime ∧
      ((d.ess < e.ess ∧ e.exitTime ≤ d.exitTime) ∨
        (d.exitTime ≤ e.entryTime ∧
          ((∃ x ∈ t.executions, d.eoi < x.eoi ∧ x.eoi ≤ e.eoi ∧ x.ess ≤ d.ess) ∨
            ∃ eoi ∈ t.gaps, d.eoi < eoi ∧ eoi < e.eoi)))
  gapped : ∀ eoi ∈ t.gaps, ∀ e ∈ t.executions, eoi < e.eoi → 0 < e.ess ∧
    ∀ d ∈ t.executions, d.eoi < eoi → d.exitTime + pause ≤ e.entryTime

theorem mem_gaps {t : ExecutionTrace} (hasc : Ascending t.executions) {eoi : Int} :
    eoi ∈ t.gaps ↔ 0 ≤ eoi ∧ (∀ e ∈ t.executions, e.eoi ≠ eoi) ∧
      ∃ e ∈ t.executions, eoi < e.eoi := by
  unfold gaps
  cases hlast : t.executions.getLast? with
  | none =>
    have hnil := List.getLast?_eq_none_iff.mp hlast
    simp [hnil]
  | some last =>
    have hmem := List.mem_of_getLast? hlast
    have hmax : ∀ e ∈ t.executions, e.eoi ≤ last.eoi := by
      intro e he
      obtain ⟨before, hsplit⟩ := List.getLast?_eq_some_iff.mp hlast
      rw [hsplit] at he hasc
      rcases List.mem_append.mp he with he | he
      · exact Int.le_of_lt ((List.pairwise_append.mp hasc).2.2 e he last (by simp))
      · exact Int.le_of_eq (congrArg Execution.eoi (List.mem_singleton.mp he))
    simp only [List.mem_filter, List.mem_map, List.mem_range, Option.isNone_iff_eq_none,
      get?_eq_none_iff]
    constructor
    · rintro ⟨⟨k, hk, rfl⟩, hfree⟩
      exact ⟨Int.natCast_nonneg k, hfree, last, hmem, by change (k : Int) < _; omega⟩
    · rintro ⟨hpos, hfree, e, he, hlt⟩
      have := hmax e he
      exact ⟨⟨eoi.toNat, by omega, Int.toNat_of_nonneg hpos⟩, hfree⟩

section Messages

variable {pause : Nat} {t : ExecutionTrace} {messages : MessageTrace}

theorem isRoot_root (traceId : Int) (sessionId : String) :
    (Execution.root traceId sessionId).isRoot = true := rfl

/-- A call comes from the root, at depth zero, or from the caller of its receiver. -/
theorem Chronicle.calls (h : Chronicle pause t) (hmessages : t.toMessages = .ok messages) :
    ∀ m ∈ messages.calls, m.receiver ∈ t.executions ∧ m.timestamp = m.receiver.entryTime ∧
      ((m.sender = Execution.root t.traceId t.sessionId ∧ m.receiver.ess = 0) ∨
        Calls t.executions m.sender m.receiver) := by
  intro m hm
  obtain ⟨hin, hcall⟩ := List.mem_filter.mp hm
  have hfacts := calls_of_exchange (root_ess t.traceId t.sessionId) contiguous_nil
    (toMessages_eq_ok_iff.mp hmessages).2.2 (show Ascending ([] ++ t.executions) from h.ascending)
    (by simp) (by simp) m hin hcall
  exact hfacts

theorem Chronicle.sender_not_root (h : Chronicle pause t) {m : Message}
    (hcalls : Calls t.executions m.sender m.receiver) : m.sender.isRoot = false := by
  have hplace := h.placed m.sender hcalls.1
  have hne : (m.sender.eoi == -1) = false := by
    rw [beq_eq_false_iff_ne]
    omega
  rw [Execution.isRoot, hne]
  rfl

/-- A call across a gap does not come from the root. -/
theorem Chronicle.calls_across (h : Chronicle pause t) (hmessages : t.toMessages = .ok messages)
    {m : Message} (hm : m ∈ messages.calls) (hacross : t.AcrossGap m) :
    Calls t.executions m.sender m.receiver := by
  obtain ⟨hin, _, hfrom⟩ := h.calls hmessages m hm
  refine hfrom.resolve_left fun ⟨_, hess⟩ => ?_
  obtain ⟨eoi, hgap, _, hbefore⟩ := hacross
  have hdeep := (h.gapped eoi hgap m.receiver hin hbefore).1
  omega

/-- The sender of a call across a gap is over. -/
theorem Chronicle.over_across (h : Chronicle pause t) (hmessages : t.toMessages = .ok messages)
    {m : Message} (hm : m ∈ messages.calls) (hacross : t.AcrossGap m) :
    m.sender.exitTime + pause ≤ m.timestamp := by
  obtain ⟨hsender, _⟩ := h.calls_across hmessages hm hacross
  obtain ⟨hin, htime, _⟩ := h.calls hmessages m hm
  obtain ⟨eoi, hgap, hafter, hbefore⟩ := hacross
  rw [htime]
  exact (h.gapped eoi hgap m.receiver hin hbefore).2 m.sender hsender hafter

/-- A caller outlasts what it calls, unless there is a gap between them. -/
theorem Chronicle.outlasts (h : Chronicle pause t) {m : Message} (hin : m.receiver ∈ t.executions)
    (hcalls : Calls t.executions m.sender m.receiver) (hgap : ¬t.AcrossGap m) :
    m.receiver.exitTime ≤ m.sender.exitTime := by
  obtain ⟨hsender, hlt, hess, hbetween⟩ := hcalls
  rcases (h.paired _ hsender _ hin hlt).2 with ⟨_, hinside⟩ | ⟨_, hsince⟩
  · exact hinside
  rcases hsince with ⟨x, hx, hafter, hupto, hshallow⟩ | hacross
  · rcases Int.lt_or_eq_of_le hupto with hbefore | heq
    · have := hbetween x hx hafter hbefore
      omega
    · rw [h.ascending.eq_of_eoi hx hin heq] at hshallow
      omega
  · exact absurd hacross hgap

/-- Something is called across every gap: the first execution after it. -/
theorem Chronicle.exists_across (h : Chronicle pause t) (hmessages : t.toMessages = .ok messages)
    {eoi : Int} (hgap : eoi ∈ t.gaps) : ∃ m ∈ messages.calls, t.AcrossGap m := by
  obtain ⟨_, hfree, e, he, hlt⟩ := (mem_gaps h.ascending).mp hgap
  have hfound : (t.executions.find? fun d => decide (eoi < d.eoi)).isSome := by
    rw [List.find?_isSome]
    exact ⟨e, he, decide_eq_true hlt⟩
  obtain ⟨first, hfirst⟩ := Option.isSome_iff_exists.mp hfound
  obtain ⟨hafter, before, rest, hsplit, hbefore⟩ := List.find?_eq_some_iff_append.mp hfirst
  have hin : first ∈ callees messages.messages := by
    rw [callees_exchange (toMessages_eq_ok_iff.mp hmessages).2.2]
    exact List.mem_of_find?_eq_some hfirst
  obtain ⟨m, hm, rfl⟩ := List.mem_map.mp hin
  refine ⟨m, hm, eoi, hgap, ?_, of_decide_eq_true hafter⟩
  obtain ⟨hreceiver, _, hroot | hcalls⟩ := h.calls hmessages m hm
  · have := (h.gapped eoi hgap m.receiver hreceiver (of_decide_eq_true hafter)).1
    omega
  obtain ⟨hsender, hearlier, _⟩ := hcalls
  have hne := hfree m.sender hsender
  have hasc := h.ascending
  rw [hsplit] at hsender hasc
  obtain ⟨_, hrest, _⟩ := List.pairwise_append.mp hasc
  rcases List.mem_append.mp hsender with hold | hnew
  · have hle := hbefore m.sender hold
    simp only [Bool.not_eq_true', decide_eq_false_iff_not] at hle
    omega
  · rcases List.mem_cons.mp hnew with heq | hnew
    · rw [heq] at hearlier
      exact absurd hearlier (Int.lt_irrefl _)
    · have := (List.pairwise_cons.mp hrest).1 _ hnew
      omega

/-- The time stamps do not decrease if every caller outlasts what it calls. -/
theorem Chronicle.sorted (h : Chronicle pause t) (hmessages : t.toMessages = .ok messages)
    (hcalls : ∀ m ∈ messages.messages, m.isCall →
      m.sender = Execution.root t.traceId t.sessionId ∨
        m.receiver.exitTime ≤ m.sender.exitTime) :
    (messages.messages.map (·.timestamp)).Pairwise (· ≤ ·) := by
  have hwalk := (toMessages_eq_ok_iff.mp hmessages).2.2
  have hpairs : t.executions.Pairwise fun d e =>
      d.entryTime ≤ e.entryTime ∧ (e.ess ≤ d.ess → d.exitTime ≤ e.entryTime) := by
    refine h.ascending.imp_of_mem fun {d e} hd he hlt => ?_
    obtain ⟨hentry, hpair⟩ := h.paired d hd e he hlt
    refine ⟨by omega, fun hess => ?_⟩
    rcases hpair with ⟨hdeeper, _⟩ | ⟨hover, _⟩
    · omega
    · exact hover
  have htimed := h.timed
  cases hes : t.executions with
  | nil =>
    rw [hes] at hwalk
    rw [← Except.ok.inj hwalk]
    exact List.Pairwise.nil
  | cons first rest =>
    rw [hes] at hwalk hpairs htimed
    have hstart : ∀ e ∈ first :: rest, first.entryTime ≤ e.entryTime := by
      intro e he
      rcases List.mem_cons.mp he with rfl | he
      · exact Int.le_refl _
      · exact ((List.pairwise_cons.mp hpairs).1 e he).1
    have hsorted := sorted_of_outlasted (root_ess t.traceId t.sessionId) contiguous_nil hwalk
      List.Pairwise.nil (by simp) hstart (by simp) hpairs htimed hcalls
    exact (List.pairwise_cons.mp hsorted).2

/-- Only calls across gaps can be out of order. -/
theorem Chronicle.causal_iff (h : Chronicle pause t) (hmessages : t.toMessages = .ok messages) :
    messages.Causal ↔ ∀ m ∈ messages.calls, t.AcrossGap m →
      m.receiver.exitTime ≤ m.sender.exitTime := by
  constructor
  · rintro ⟨hsorted, _⟩ m hm hacross
    obtain ⟨hin, hcall⟩ := List.mem_filter.mp hm
    refine (outlasted_of_sorted (toMessages_eq_ok_iff.mp hmessages).2.2 hsorted m hin
      hcall).resolve_left fun hroot => ?_
    have hnot := h.sender_not_root (h.calls_across hmessages hm hacross)
    rw [hroot, isRoot_root] at hnot
    cases hnot
  · intro hacross
    have houtlasts : ∀ m ∈ messages.calls, Calls t.executions m.sender m.receiver →
        m.receiver.exitTime ≤ m.sender.exitTime := by
      intro m hm hcalls
      by_cases hgap : t.AcrossGap m
      · exact hacross m hm hgap
      · exact h.outlasts (h.calls hmessages m hm).1 hcalls hgap
    constructor
    · refine h.sorted hmessages fun m hm hcall => ?_
      have hm : m ∈ messages.calls := List.mem_filter.mpr ⟨hm, hcall⟩
      obtain ⟨_, _, ⟨hroot, _⟩ | hcalls⟩ := h.calls hmessages m hm
      · exact .inl hroot
      · exact .inr (houtlasts m hm hcalls)
    · intro m hm
      obtain ⟨hin, htime, ⟨hroot, _⟩ | hcalls⟩ := h.calls hmessages m hm
      · rw [hroot]
        exact .inl (isRoot_root _ _)
      · have hentry := (h.paired _ hcalls.1 _ hin hcalls.2.1).1
        have htimed := h.timed _ hin
        have hexit := houtlasts m hm hcalls
        exact .inr ⟨by omega, by omega⟩

end Messages

end ExecutionTrace

/-! ## The executions of a tracker -/

theorem exists_after (times : List Int) : ∃ time, ∀ t ∈ times, t < time := by
  induction times with
  | nil => exact ⟨0, by simp⟩
  | cons t rest ih =>
    obtain ⟨time, htime⟩ := ih
    refine ⟨max (t + 1) time, ?_⟩
    intro s hs
    rcases List.mem_cons.mp hs with rfl | hs
    · omega
    · have := htime s hs
      omega

/-- Is this the lifetime of the execution? -/
def Lifetime.IsOf (x : Lifetime) (e : Execution) : Prop :=
  e.eoi = x.eoi ∧ e.ess = x.ess ∧ e.entryTime = x.entryTime ∧ x.exitTime? = some e.exitTime

theorem Lifetime.isOf_of_interval {i : Invocation} {e : Execution}
    (h : e.interval = i.interval) : i.lifetime.IsOf e := by
  obtain ⟨heoi, hess, hentry, hexit⟩ := Interval.mk.inj h
  exact ⟨heoi, hess, hentry, congrArg some hexit.symm⟩

namespace Tracker
open Retrace.Frame Lifetime ExecutionTrace

section Reached

variable {trace : TraceInfo} {m : Matching} {es : List Event} {t : Tracker} {fs : List Frame}
  {ended : List Invocation} {pause n : Nat} {soon : Int}

theorem Reached.exists_lifetime (h : Reached trace m es t fs ended) {e : Execution}
    (he : e ∈ t.executions.executions) : ∃ x ∈ lifetimes fs ended, x.IsOf e := by
  have hmem := h.intervals.mem_iff.mp (List.mem_map_of_mem he)
  obtain ⟨i, hi, hinterval⟩ := List.mem_map.mp hmem
  exact ⟨i.lifetime, List.mem_append_right _ (List.mem_map_of_mem hi),
    isOf_of_interval hinterval.symm⟩

/-- What has ended was recorded. -/
theorem Reached.exists_execution (h : Reached trace m es t fs ended) {x : Lifetime}
    (hx : x ∈ lifetimes fs ended) (hover : x.exitTime? ≠ none) :
    ∃ e ∈ t.executions.executions, x.IsOf e := by
  rcases List.mem_append.mp hx with hx | hx
  · obtain ⟨f, _, rfl⟩ := List.mem_map.mp hx
    exact absurd rfl hover
  · obtain ⟨i, hi, rfl⟩ := List.mem_map.mp hx
    have hmem := h.intervals.mem_iff.mpr (List.mem_map_of_mem hi)
    obtain ⟨e, he, hinterval⟩ := List.mem_map.mp hmem
    exact ⟨e, he, isOf_of_interval hinterval⟩

variable (h : Reached trace m es t fs ended)
  (hlaminar : Laminar pause soon n (lifetimes fs ended))
include h hlaminar

theorem Reached.ascending : Ascending t.executions.executions := by
  refine ascending_of_sorted h.sorted ?_
  have hplaces := hlaminar.places.nodup_iff.mpr List.nodup_range
  rw [lifetimes, List.map_append] at hplaces
  have hended := (List.nodup_append.mp hplaces).2.1
  have hcast := List.Nodup.map (fun _ _ heq => Int.ofNat.inj heq) hended
  have heois := h.intervals.map Interval.eoi
  simp only [Tracker.intervals, List.map_map] at heois hcast
  exact heois.nodup_iff.mpr hcast

/-- A gap is the place of an invocation that has not ended. -/
theorem Reached.mem_gaps_iff {eoi : Int} :
    eoi ∈ t.executions.gaps ↔ (∃ x ∈ lifetimes fs ended, x.exitTime? = none ∧ x.eoi = eoi) ∧
      ∃ e ∈ t.executions.executions, eoi < e.eoi := by
  rw [mem_gaps (h.ascending hlaminar)]
  constructor
  · rintro ⟨hpos, hfree, e, he, hlt⟩
    refine ⟨?_, e, he, hlt⟩
    obtain ⟨y, hy, heoi, _⟩ := h.exists_lifetime he
    have hrange := hlaminar.eoi_lt hy
    have hplace : eoi.toNat ∈ (lifetimes fs ended).map Lifetime.eoi :=
      hlaminar.places.mem_iff.mpr (List.mem_range.mpr (by omega))
    obtain ⟨x, hx, hxeoi⟩ := List.mem_map.mp hplace
    refine ⟨x, hx, ?_, by omega⟩
    by_contra hover
    obtain ⟨d, hd, hdeoi, _⟩ := h.exists_execution hx hover
    exact hfree d hd (by omega)
  · rintro ⟨⟨x, hx, hopen, rfl⟩, e, he, hlt⟩
    refine ⟨Int.natCast_nonneg _, ?_, e, he, hlt⟩
    intro d hd heoi
    obtain ⟨y, hy, hyeoi, _, _, hexit⟩ := h.exists_lifetime hd
    have hsame := hlaminar.eq_of_eoi hx hy (by omega)
    rw [← hsame, hopen] at hexit
    cases hexit

/-- What the lifetimes are, the executions are. -/
theorem Reached.chronicle : Chronicle pause t.executions where
  ascending := h.ascending hlaminar
  placed := by
    intro e he
    obtain ⟨x, _, heoi, _⟩ := h.exists_lifetime he
    omega
  timed := by
    intro e he
    obtain ⟨x, hx, _, _, hentry, hexit⟩ := h.exists_lifetime he
    have := (hlaminar.past x hx).2 e.exitTime hexit
    omega
  paired := by
    intro d hd e he hlt
    obtain ⟨x, hx, hxeoi, hxess, hxentry, hxexit⟩ := h.exists_lifetime hd
    obtain ⟨y, hy, hyeoi, hyess, hyentry, hyexit⟩ := h.exists_lifetime he
    obtain ⟨hentry, hpair⟩ := hlaminar.paired x hx y hy (by omega)
    refine ⟨by omega, ?_⟩
    rcases hpair with ⟨⟨time, htime, hover⟩, z, hz, hafter, hupto, hshallow⟩ | ⟨hdeeper, hinside⟩
    · rw [hxexit] at htime
      obtain rfl := Option.some.inj htime
      refine .inr ⟨by omega, ?_⟩
      by_cases hopen : z.exitTime? = none
      · have hne : z.eoi ≠ y.eoi := by
          intro heq
          rw [hlaminar.eq_of_eoi hz hy heq, hyexit] at hopen
          cases hopen
        have hbefore : (z.eoi : Int) < e.eoi := by omega
        exact .inr ⟨z.eoi, (h.mem_gaps_iff hlaminar).mpr ⟨⟨z, hz, hopen, rfl⟩, e, he, hbefore⟩,
          by omega, hbefore⟩
      · obtain ⟨w, hw, hweoi, hwess, _⟩ := h.exists_execution hz hopen
        exact .inl ⟨w, hw, by omega, by omega, by omega⟩
    · obtain ⟨inner, hinner, hle⟩ := hinside d.exitTime hxexit
      rw [hyexit] at hinner
      obtain rfl := Option.some.inj hinner
      exact .inl ⟨by omega, hle⟩
  gapped := by
    intro eoi hgap e he hlt
    obtain ⟨⟨x, hx, hopen, rfl⟩, _⟩ := (h.mem_gaps_iff hlaminar).mp hgap
    obtain ⟨y, hy, hyeoi, hyess, hyentry, _⟩ := h.exists_lifetime he
    obtain ⟨hentry, hpair⟩ := hlaminar.paired x hx y hy (by omega)
    constructor
    · rcases hpair with ⟨⟨time, htime, _⟩, _⟩ | ⟨hdeeper, _⟩
      · rw [hopen] at htime; cases htime
      · omega
    · intro d hd hbefore
      obtain ⟨w, hw, hweoi, _, _, hwexit⟩ := h.exists_lifetime hd
      rcases (hlaminar.paired w hw x hx (by omega)).2 with ⟨⟨time, htime, hover⟩, _⟩ | ⟨_, hinside⟩
      · rw [hwexit] at htime
        obtain rfl := Option.some.inj htime
        omega
      · obtain ⟨inner, hinner, _⟩ := hinside d.exitTime hwexit
        rw [hopen] at hinner; cases hinner

end Reached

end Tracker

/-- The executions of a batch whose events are a pause apart are a chronicle. -/
theorem executions_chronicle {settings : Settings} {selection : Selection} {model : Model}
    {batch : Batch} {executions : ExecutionTrace} {pause : Nat}
    (h : (reconstruct settings selection model batch).outcome.executions? = some executions)
    (htime : batch.inSequence.Pairwise fun (d e : Event) => d.timestamp + pause ≤ e.timestamp) :
    executions.Chronicle pause := by
  obtain ⟨t, fs, ended, hreached, rfl, _⟩ := reconstruct_executions h
  have hinc := inSequence_pairwise batch.traceId 0 batch.events
  obtain ⟨soon, hsoon⟩ := exists_after (batch.inSequence.map fun e => e.timestamp + pause)
  obtain ⟨index, hindex⟩ := exists_after (batch.inSequence.map Event.orderIndex)
  simp only [List.forall_mem_map] at hsoon hindex
  have hlaminar := (hreached.history.laminar hinc htime
    (fun d hd => Int.le_of_lt (hsoon d hd)) hindex).1
  exact hreached.chronicle hlaminar

/-- The executions of a batch whose events come in the order of time run inside each other or apart.
The one with the smaller `eoi` never begins later, and if it is not over when the other one begins,
then the other one is deeper and ends first. Calls that nothing answers and calls that are closed
when their callers go on make no difference. -/
theorem executions_laminar {settings : Settings} {selection : Selection} {model : Model}
    {batch : Batch} {executions : ExecutionTrace}
    (h : (reconstruct settings selection model batch).outcome.executions? = some executions)
    (htime : batch.inSequence.Pairwise fun d e => d.timestamp ≤ e.timestamp) :
    ExecutionTrace.Ascending executions.executions ∧
      (∀ e ∈ executions.executions, e.entryTime ≤ e.exitTime) ∧
      ∀ d ∈ executions.executions, ∀ e ∈ executions.executions, d.eoi < e.eoi →
        d.entryTime ≤ e.entryTime ∧
          (d.exitTime ≤ e.entryTime ∨ e.exitTime ≤ d.exitTime ∧ d.ess < e.ess) := by
  have hchronicle := @executions_chronicle _ _ _ _ _ 0 h (by simpa using htime)
  refine ⟨hchronicle.ascending, hchronicle.timed, ?_⟩
  intro d hd e he hlt
  obtain ⟨hentry, hpair⟩ := hchronicle.paired d hd e he hlt
  refine ⟨by omega, ?_⟩
  rcases hpair with ⟨hdeeper, hinside⟩ | ⟨hover, _⟩
  · exact .inr ⟨hinside, hdeeper⟩
  · exact .inl hover

/-- A call that nothing answers. Under it an operation calls something that calls something else,
both of which are closed when the operation ends, and then a constructor runs. -/
def unansweredCall : Batch where
  trace := { traceId := 1, sessionId := "s", hostname := "srv" }
  events :=
    [.call .operation ⟨1, 1, 0⟩ ⟨"void m.M.main()", "m.M"⟩ ⟨"void q.Q.q()", "q.Q"⟩,
     .before .operation ⟨2, 1, 1⟩ ⟨"void a.A.a()", "a.A"⟩,
     .call .operation ⟨3, 1, 2⟩ ⟨"void a.A.a()", "a.A"⟩ ⟨"void b.B.b()", "b.B"⟩,
     .call .operation ⟨3, 1, 3⟩ ⟨"void b.B.b()", "b.B"⟩ ⟨"void c.C.c()", "c.C"⟩,
     .afterFailed .operation ⟨5, 1, 4⟩ ⟨"void a.A.a()", "a.A"⟩ "timeout",
     .before .constructor ⟨5, 1, 5⟩ ⟨"d.D.<init>()", "d.D"⟩,
     .after .constructor ⟨6, 1, 6⟩ ⟨"d.D.<init>()", "d.D"⟩]

theorem unansweredCall_laminar :
    ∃ executions,
      (reconstruct {} .all {} unansweredCall).outcome.executions? = some executions ∧
      (unansweredCall.inSequence.Pairwise fun d e => d.timestamp ≤ e.timestamp) ∧
      (reconstruct {} .all {} unansweredCall).outcome.label = "partial" ∧
      executions.executions.map (·.interval) =
        [⟨1, 1, 2, 5⟩, ⟨2, 2, 3, 5⟩, ⟨3, 3, 3, 5⟩, ⟨4, 1, 5, 6⟩] ∧
      ∀ d ∈ executions.executions, ∀ e ∈ executions.executions, d.eoi < e.eoi →
        d.entryTime ≤ e.entryTime ∧
          (d.exitTime ≤ e.entryTime ∨ e.exitTime ≤ d.exitTime ∧ d.ess < e.ess) := by
  refine ⟨_, rfl, by decide, rfl, by decide, ?_⟩
  exact (executions_laminar
    (show (reconstruct {} .all {} unansweredCall).outcome.executions? = some _ from rfl)
    (by decide)).2.2

theorem reconstruct_chronicle {settings : Settings} {selection : Selection} {model : Model}
    {batch : Batch} {traceId : Int} {executions : ExecutionTrace} {messages : MessageTrace}
    {pause : Nat}
    (h : (reconstruct settings selection model batch).outcome =
      .success traceId executions messages)
    (htime : batch.inSequence.Pairwise fun (d e : Event) => d.timestamp + pause ≤ e.timestamp) :
    executions.Chronicle pause ∧ executions.toMessages = .ok messages :=
  ⟨executions_chronicle (by rw [h]; rfl) htime, reconstruct_success h⟩

/-- The messages of a batch whose events come in the order of time are in the order of time, and
sent by what still runs, if and only if no sender of a call across a gap is outlasted by what it
calls; such a sender is over when it calls. There are calls across gaps whenever there are gaps. So
if no two events have one time stamp, the messages are in order exactly if there is no gap. -/
theorem messages_causal_iff {settings : Settings} {selection : Selection} {model : Model}
    {batch : Batch} {traceId : Int} {executions : ExecutionTrace} {messages : MessageTrace}
    (h : (reconstruct settings selection model batch).outcome =
      .success traceId executions messages)
    (htime : batch.inSequence.Pairwise fun d e => d.timestamp ≤ e.timestamp) :
    (messages.Causal ↔ ∀ m ∈ messages.calls, executions.AcrossGap m →
      m.receiver.exitTime ≤ m.sender.exitTime) ∧
    (∀ m ∈ messages.calls, executions.AcrossGap m → m.sender.exitTime ≤ m.timestamp) ∧
    (executions.gaps = [] ↔ ∀ m ∈ messages.calls, ¬executions.AcrossGap m) ∧
    ((batch.inSequence.Pairwise fun d e => d.timestamp < e.timestamp) →
      (messages.Causal ↔ executions.gaps = [])) := by
  obtain ⟨hchronicle, hmessages⟩ := @reconstruct_chronicle _ _ _ _ _ _ _ 0 h (by simpa using htime)
  have hgaps : executions.gaps = [] ↔ ∀ m ∈ messages.calls, ¬executions.AcrossGap m := by
    constructor
    · rintro hnone m _ ⟨eoi, hgap, _⟩
      rw [hnone] at hgap
      cases hgap
    · intro hnone
      refine List.eq_nil_iff_forall_not_mem.mpr fun eoi hgap => ?_
      obtain ⟨m, hm, hacross⟩ := hchronicle.exists_across hmessages hgap
      exact hnone m hm hacross
  have hcausal := hchronicle.causal_iff hmessages
  refine ⟨hcausal, ?_, hgaps, ?_⟩
  · intro m hm hacross
    simpa using hchronicle.over_across hmessages hm hacross
  · intro hstrict
    obtain ⟨happart, _⟩ := @reconstruct_chronicle _ _ _ _ _ _ _ 1 h
      (hstrict.imp fun hlt => hlt)
    rw [hcausal, hgaps]
    constructor
    · intro houtlasts m hm hacross
      have hexit := houtlasts m hm hacross
      have hover := happart.over_across hmessages hm hacross
      obtain ⟨hin, hentry, _⟩ := happart.calls hmessages m hm
      have := happart.timed _ hin
      omega
    · intro hnone m hm hacross
      exact absurd hacross (hnone m hm)

/-- An operation that ends, a call that nothing answers, and an operation inside that call. -/
def staleCaller : Batch where
  trace := { traceId := 1, sessionId := "s", hostname := "srv" }
  events :=
    [.before .operation ⟨1, 1, 0⟩ ⟨"void a.A.a()", "a.A"⟩,
     .after .operation ⟨2, 1, 1⟩ ⟨"void a.A.a()", "a.A"⟩,
     .call .operation ⟨3, 1, 2⟩ ⟨"void p.P.p()", "p.P"⟩ ⟨"void q.Q.q()", "q.Q"⟩,
     .before .operation ⟨4, 1, 3⟩ ⟨"void x.X.x()", "x.X"⟩,
     .after .operation ⟨5, 1, 4⟩ ⟨"void x.X.x()", "x.X"⟩]

/-- The operation that has ended is taken for the caller, since it is as deep as the call. -/
theorem staleCaller_out_of_order :
    ∃ executions messages,
      (reconstruct {} .all {} staleCaller).outcome = .success 1 executions messages ∧
      (staleCaller.inSequence.Pairwise fun d e => d.timestamp ≤ e.timestamp) ∧
      (staleCaller.inSequence.Pairwise fun d e => d.timestamp < e.timestamp) ∧
      executions.gaps = [1] ∧ ¬messages.Causal := by
  refine ⟨_, _, rfl, by decide, by decide, by decide, fun hcausal => ?_⟩
  obtain ⟨_, _, _, hstrict⟩ := messages_causal_iff
    (show (reconstruct {} .all {} staleCaller).outcome = .success 1 _ _ from rfl) (by decide)
  exact absurd ((hstrict (by decide)).mp hcausal) (by decide)

theorem not_always_causal :
    ¬∀ (settings : Settings) (selection : Selection) (model : Model) (batch : Batch)
      (traceId : Int) (executions : ExecutionTrace) (messages : MessageTrace),
      (reconstruct settings selection model batch).outcome =
        .success traceId executions messages →
      (batch.inSequence.Pairwise fun d e => d.timestamp ≤ e.timestamp) → messages.Causal := by
  intro h
  have hcausal := h {} .all {} staleCaller 1 _ _ rfl (by decide)
  exact absurd hcausal.1 (by decide)

end Retrace
