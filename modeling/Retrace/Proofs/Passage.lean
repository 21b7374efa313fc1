import Retrace.Proofs.Accounting
import Retrace.Proofs.Forest
import Retrace.Proofs.History

/-! Passage of forests. The events of a forest bring a tracker back to where it was, but for the
executions of the forest and their places. The induction is on the calls of one operation, over any
open events below it. A call of what is not observed stays open until its caller goes on, so the
calls of an observed operation are through only when the tracker has closed that last one. -/

namespace Retrace

namespace Tracker

/-- Is the innermost open event no call? -/
def Quiet (t : Tracker) : Prop :=
  ∀ e ∈ t.openEvents.head?, e.isCall = false

/-- The tracker when the invocations are through. -/
def passed (t : Tracker) (nest : Nest) : Tracker :=
  (t.recordedAll nest.postorder).holding t.openEvents t.slots (t.nextEoi + nest.size)

/-- The tracker when an invocation has ended, after all that it calls. -/
def returned (t : Tracker) (i : Invocation) (inner : Nest) : Tracker :=
  ((t.recordedAll inner.postorder).recorded i).holding t.openEvents t.slots
    (t.nextEoi + inner.size + 1)

theorem returned_eq (t : Tracker) (i : Invocation) (inner : Nest) (openEvents : List Event)
    (slots : List Slot) :
    (((t.holding openEvents slots (t.nextEoi + 1)).passed inner).recorded i).holding t.openEvents
        t.slots ((t.holding openEvents slots (t.nextEoi + 1)).passed inner).nextEoi =
      t.returned i inner := by
  simp only [passed, returned, recordedAll_holding, recorded_holding, holding_holding,
    holding_openEvents, holding_slots, holding_nextEoi, Nat.add_right_comm]

theorem returned_passed (t : Tracker) (i : Invocation) (inner rest : Nest) :
    (t.returned i inner).passed rest = t.passed (.call i inner rest) := by
  have hplace : t.nextEoi + inner.size + 1 + rest.size =
      t.nextEoi + (inner.size + rest.size + 1) := by omega
  have hrecorded : t.recordedAll (Nest.call i inner rest).postorder =
      ((t.recordedAll inner.postorder).recorded i).recordedAll rest.postorder := by
    rw [Nest.postorder, recordedAll_append]
    rfl
  simp only [passed, returned, hrecorded, hplace, Nest.size, recordedAll_holding,
    holding_holding, holding_openEvents, holding_slots, holding_nextEoi]

theorem passed_matching (t : Tracker) (nest : Nest) : (t.passed nest).matching = t.matching :=
  recordedAll_matching t nest.postorder

theorem returned_matching (t : Tracker) (i : Invocation) (inner : Nest) :
    (t.returned i inner).matching = t.matching :=
  recordedAll_matching t inner.postorder

section Steps

variable {t : Tracker}

theorem callsDownTo_of_quiet {openEvents : List Event}
    (h : ∀ e ∈ openEvents.head?, e.isCall = false) (signature : String) (slots : List Slot) :
    callsDownTo signature openEvents slots = .absent := by
  cases openEvents with
  | nil => rfl
  | cons e below =>
    have hcall := h e rfl
    cases e with
    | call kind stamp caller callee => cases hcall
    | _ => rfl

theorem closeCalls_of_quiet (h : t.Quiet) (signature : String) (time : Int) :
    t.closeCalls signature time = ⟨t, none⟩ := by
  rw [closeCalls, callsDownTo_of_quiet h]

variable {kind : OperationKind} {stamp : Stamp} {caller callee : OperationRef}
  {below : List Event} {slot : Slot} {slots : List Slot}

/-- A call on top is not closed for another caller. -/
theorem closeCalls_of_foreign (hevents : t.openEvents = .call kind stamp caller callee :: below)
    (hslots : t.slots = slot :: slots) (hbelow : ∀ e ∈ below.head?, e.isCall = false)
    {signature : String} (hforeign : signature ≠ caller.signature) (time : Int) :
    t.closeCalls signature time = ⟨t, none⟩ := by
  rw [closeCalls, hevents, hslots, callsDownTo, if_neg (Ne.symm hforeign),
    callsDownTo_of_quiet hbelow]

/-- A call on top is assumed to end when its caller goes on. -/
theorem closeCalls_own (hevents : t.openEvents = .call kind stamp caller callee :: below)
    (hslots : t.slots = slot :: slots) (h : t.Accounted) {time : Int}
    (htime : stamp.timestamp ≤ time) :
    let i : Invocation := ⟨kind, callee, slot, stamp.timestamp, time, true⟩
    t.closeCalls caller.signature time = ⟨(t.recorded i).holding below slots t.nextEoi, none⟩ ∧
      ((t.recorded i).holding below slots t.nextEoi).Accounted := by
  intro i
  obtain ⟨hrecord, hacc⟩ := h.record hslots (i := i) rfl htime below
  refine ⟨?_, hacc⟩
  rw [closeCalls, hevents, hslots, callsDownTo, if_pos rfl]
  change ((t.holding below slots t.nextEoi).record i).andThen _ = _
  rw [hrecord]
  rfl

theorem step_call_closed {u : Tracker}
    (h : t.closeCalls caller.signature stamp.timestamp = ⟨u, none⟩) :
    t.step (.call kind stamp caller callee) =
      ⟨u.pushOpen (.call kind stamp caller callee), none⟩ := by
  simp only [step, h, Step.andThen_ok]

/-- A call on top announces the operation that it names if that begins at once. -/
theorem step_announced {again : Stamp}
    (hevents : t.openEvents = .call kind stamp caller callee :: below)
    (hnext : stamp.orderIndex + 1 = again.orderIndex) :
    t.step (.before kind again callee) =
        ⟨{ t with openEvents := .before kind again callee :: t.openEvents }, none⟩ ∧
      t.matching.announcedBy? t.openEvents kind again callee = some .exact := by
  have hannounced : t.matching.announcedBy? t.openEvents kind again callee = some .exact := by
    rw [hevents]
    simp [Matching.announcedBy?, Matching.announces?, hnext]
  refine ⟨?_, hannounced⟩
  simp only [step, enter]
  rw [show t.announced? kind again callee = some .exact from hannounced]
  rfl

theorem step_unannounced (hnone : t.matching.announcedBy? t.openEvents kind stamp callee = none)
    (hclose : t.closeCalls callee.signature stamp.timestamp = ⟨t, none⟩) :
    t.step (.before kind stamp callee) = ⟨t.pushOpen (.before kind stamp callee), none⟩ := by
  simp only [step, enter]
  rw [show t.announced? kind stamp callee = none from hnone]
  simp only [hclose, Step.andThen_ok]

theorem step_leaving (cause? : Option String) :
    t.step (.leaving kind stamp callee cause?) = t.leave kind stamp.timestamp callee := by
  cases cause? <;> rfl

/-- The innermost operation ends, and its marker with it if one announced it. -/
theorem endOperation_innermost {begun : Stamp} {time : Int} {how : Option CallMatch}
    (hevents : t.openEvents = .before kind begun callee :: below) (hslots : t.slots = slot :: slots)
    (h : t.Accounted) (htime : begun.timestamp ≤ time)
    (hhow : t.matching.announcedBy? below kind begun callee = how)
    (hexact : how = none ∨ how = some .exact) :
    let i : Invocation :=
      ⟨kind, callee, slot, begun.timestamp, time, !(below.isEmpty || how.isSome)⟩
    let left := if how.isSome then below.tail else below
    t.endOperation kind time callee = ⟨(t.recorded i).holding left slots t.nextEoi, none⟩ ∧
      ((t.recorded i).holding left slots t.nextEoi).Accounted := by
  intro i left
  obtain ⟨hrecord, hacc⟩ := h.record hslots (i := i) rfl htime left
  refine ⟨?_, hacc⟩
  rw [← hrecord, endOperation, hevents]
  simp only [ne_eq, not_true_eq_false, if_false, closeInnermost]
  have hannounced : announced? { t with openEvents := below } kind begun callee = how := hhow
  rw [hannounced]
  rcases hexact with rfl | rfl
  · simp only [hslots]
    rfl
  · simp only [noteGuess, hslots]
    rfl

end Steps

end Tracker

/-! ## The calls of an operation -/

namespace Course
open Tracker

/-- Does a tracker pass the calls of an operation? Calls of an observed one are through when its
last call is closed as well, and the first one closes what is still open before them. Calls of an
operation that is not observed come under its marker, which they leave alone. -/
def Passes (stamp : Nat → Stamp) : {k : Bool} → Course k → Prop
  | true, c => ∀ (t u : Tracker) (caller : OperationRef) (place : Nat),
      t.closeCalls caller.signature (stamp place).timestamp = ⟨u, none⟩ → u.Quiet →
      u.Accounted → c.Clear u.matching stamp caller place →
      let after := u.passed (c.outline stamp place u.nextEoi u.slots.length)
      (t.run (c.events stamp caller place)).andThen
          (·.closeCalls caller.signature (stamp (place + c.span)).timestamp) = ⟨after, none⟩ ∧
        after.Accounted
  | false, c => ∀ (t : Tracker) (kind : OperationKind) (issued : Stamp)
      (issuer marked caller : OperationRef) (below : List Event) (slot : Slot)
      (slots : List Slot) (place : Nat),
      t.openEvents = .call kind issued issuer marked :: below → t.slots = slot :: slots →
      (∀ e ∈ below.head?, e.isCall = false) → t.Accounted → c.Clear t.matching stamp caller place →
      (∀ callee ∈ c.callees, callee.2.signature ≠ issuer.signature) →
      (∀ callee ∈ c.callees.head?,
        t.matching.announces? (.call kind issued issuer marked) callee.1 (stamp place)
          callee.2 = none) →
      issued.orderIndex < place →
      let after := t.passed (c.outline stamp place t.nextEoi t.slots.length)
      t.run (c.events stamp caller place) = ⟨after, none⟩ ∧ after.Accounted

section Passes

variable {stamp : Nat → Stamp} (hindex : ∀ i, (stamp i).orderIndex = i)
  (hclock : ∀ i j, i ≤ j → (stamp i).timestamp ≤ (stamp j).timestamp)
include hclock

/-- An operation that has begun passes its calls, and is recorded when it ends. -/
theorem Passes.invocation {inner : Course true} (h : inner.Passes stamp) {t : Tracker}
    {kind : OperationKind} {operation : OperationRef} {cause? : Option String}
    {below : List Event} {place : Nat} {how : Option CallMatch} (hacc : t.Accounted)
    (hclear : inner.Clear t.matching stamp operation (place + 1))
    (hhow : t.matching.announcedBy? below kind (stamp place) operation = how)
    (hexact : how = none ∨ how = some .exact)
    (hbelow : (if how.isSome then below.tail else below) = t.openEvents) (events : List Event) :
    let nest := inner.outline stamp (place + 1) (t.nextEoi + 1) (t.slots.length + 1)
    let i : Invocation := ⟨kind, operation, ⟨t.nextEoi, t.slots.length⟩, (stamp place).timestamp,
      (stamp (place + 1 + inner.span)).timestamp, !(below.isEmpty || how.isSome)⟩
    (t.holding (.before kind (stamp place) operation :: below)
        (⟨t.nextEoi, t.slots.length⟩ :: t.slots) (t.nextEoi + 1)).run
      (inner.events stamp operation (place + 1) ++
        .leaving kind (stamp (place + 1 + inner.span)) operation cause? :: events) =
        (t.returned i nest).run events ∧
      (t.returned i nest).Accounted := by
  intro nest i
  generalize hbegun : t.holding (.before kind (stamp place) operation :: below)
    (⟨t.nextEoi, t.slots.length⟩ :: t.slots) (t.nextEoi + 1) = begun
  have hevents : begun.openEvents = .before kind (stamp place) operation :: below := by
    rw [← hbegun]; rfl
  have hquiet : begun.Quiet := by
    intro e he
    rw [hevents] at he
    cases he
    rfl
  have hbegunAcc : begun.Accounted := hbegun ▸ (hacc.pushOpen (.split (stamp place))).holding _
  obtain ⟨hpassed, hafter⟩ := h begun begun operation (place + 1)
    (closeCalls_of_quiet hquiet _ _) hquiet hbegunAcc (by rw [← hbegun]; exact hclear)
  have hnest : inner.outline stamp (place + 1) begun.nextEoi begun.slots.length = nest := by
    rw [← hbegun]; rfl
  rw [hnest] at hpassed hafter
  obtain ⟨hend, hendAcc⟩ := @endOperation_innermost (begun.passed nest) kind operation below
    ⟨t.nextEoi, t.slots.length⟩ t.slots (stamp place) (stamp (place + 1 + inner.span)).timestamp
    how hevents (by rw [← hbegun]; rfl) hafter (hclock _ _ (by omega))
    (by rw [passed_matching, ← hbegun]; exact hhow) hexact
  rw [hbelow] at hend hendAcc
  have hreturned : ((begun.passed nest).recorded i).holding t.openEvents t.slots
      (begun.passed nest).nextEoi = t.returned i nest := by
    rw [← hbegun]
    exact returned_eq t i nest _ _
  have hleave : ∀ u : Tracker,
      u.run (.leaving kind (stamp (place + 1 + inner.span)) operation cause? :: events) =
        (u.closeCalls operation.signature (stamp (place + 1 + inner.span)).timestamp).andThen
          fun v => (v.endOperation kind (stamp (place + 1 + inner.span)).timestamp
            operation).andThen (·.run events) := by
    intro u
    rw [run, step_leaving, leave, Step.andThen_assoc]
  rw [← hreturned]
  refine ⟨?_, hendAcc⟩
  rw [run_append, funext hleave, ← Step.andThen_assoc, hpassed, Step.andThen_ok, hend]
  rfl

include hindex

/-- So is one that the marker of its caller announces. -/
theorem Passes.called {inner : Course true} (h : inner.Passes stamp) {t u : Tracker}
    {kind : OperationKind} {caller operation : OperationRef} {cause? : Option String} {place : Nat}
    (hclose : t.closeCalls caller.signature (stamp place).timestamp = ⟨u, none⟩)
    (hacc : u.Accounted) (hclear : inner.Clear u.matching stamp operation (place + 1 + 1))
    (events : List Event) :
    let nest := inner.outline stamp (place + 1 + 1) (u.nextEoi + 1) (u.slots.length + 1)
    let i : Invocation := ⟨kind, operation, ⟨u.nextEoi, u.slots.length⟩,
      (stamp (place + 1)).timestamp, (stamp (place + 1 + 1 + inner.span)).timestamp, false⟩
    t.run (.call kind (stamp place) caller operation ::
      .before kind (stamp (place + 1)) operation ::
        (inner.events stamp operation (place + 1 + 1) ++
          .leaving kind (stamp (place + 1 + 1 + inner.span)) operation cause? :: events)) =
        (u.returned i nest).run events ∧
      (u.returned i nest).Accounted := by
  have hnext : (stamp place).orderIndex + 1 = (stamp (place + 1)).orderIndex := by
    rw [hindex, hindex]
    rfl
  have hcall := @step_call_closed t kind (stamp place) caller operation u hclose
  obtain ⟨hbefore, hannounced⟩ := @step_announced
    (u.pushOpen (.call kind (stamp place) caller operation)) kind (stamp place) caller operation
    u.openEvents (stamp (place + 1)) rfl hnext
  rw [run, hcall, Step.andThen_ok, run, hbefore, Step.andThen_ok]
  exact @Passes.invocation stamp hclock inner h u kind operation cause?
    (.call kind (stamp place) caller operation :: u.openEvents) (place + 1) (some .exact) hacc
    hclear hannounced (.inr rfl) rfl events

/-- The calls of an observed operation may start with one that is observed too. -/
theorem Passes.announced {kind : OperationKind} {operation : OperationRef} {cause? : Option String}
    {inner rest : Course true} (hinner : inner.Passes stamp) (hrest : rest.Passes stamp) :
    (observed kind operation cause? inner rest).Passes stamp := by
  intro t u caller place hclose hquiet hacc ⟨hclearInner, hclearRest⟩ after
  obtain ⟨hevents, hreturned⟩ := @Passes.called stamp hindex hclock inner hinner t u kind caller
    operation cause? place hclose hacc hclearInner
    (rest.events stamp caller (place + 1 + inner.span + 2))
  generalize hthrough : u.returned _ _ = through at hevents hreturned
  have hthroughQuiet : through.Quiet := hthrough ▸ hquiet
  obtain ⟨hlater, hacc⟩ := hrest through through caller (place + 1 + inner.span + 2)
    (closeCalls_of_quiet hthroughQuiet _ _) hthroughQuiet hreturned
    (by rw [← hthrough, returned_matching]; exact hclearRest)
  have hspan : place + (observed kind operation cause? inner rest).span =
      place + 1 + inner.span + 2 + rest.span := by
    simp only [span, Bool.toNat_true]
    omega
  have hafter : through.passed (rest.outline stamp (place + 1 + inner.span + 2) through.nextEoi
      through.slots.length) = after := by
    rw [← hthrough, returned_passed]
    simp only [returned, holding_nextEoi, holding_slots, outline_size]
    rfl
  rw [events, hevents, hspan, ← hafter]
  exact ⟨hlater, hacc⟩

/-- The calls of an operation that is not observed may start with one that is. No marker announces
it, but that of its caller is open around it. -/
theorem Passes.unannounced {kind : OperationKind} {operation : OperationRef}
    {cause? : Option String} {inner : Course true} {rest : Course false}
    (hinner : inner.Passes stamp) (hrest : rest.Passes stamp) :
    (observed kind operation cause? inner rest).Passes stamp := by
  intro t callKind issued issuer marked caller below slot slots place hmarker hslots hbelow hacc
    ⟨hclearInner, hclearRest⟩ hforeign hfirst hissued after
  have hnone : t.matching.announcedBy? t.openEvents kind (stamp place) operation = none := by
    rw [hmarker]
    exact hfirst (kind, operation) rfl
  have hclose := closeCalls_of_foreign hmarker hslots hbelow
    (hforeign (kind, operation) List.mem_cons_self) (stamp place).timestamp
  have hbefore := step_unannounced hnone hclose
  obtain ⟨hrun, hreturned⟩ := @Passes.invocation stamp hclock inner hinner t kind operation cause?
    t.openEvents place none hacc hclearInner hnone (.inl rfl) rfl
    (rest.events stamp caller (place + inner.span + 2))
  generalize hthrough : t.returned _ _ = through at hrun hreturned
  have hmarker' : through.openEvents = .call callKind issued issuer marked :: below := by
    rw [← hthrough]; exact hmarker
  have hlate : ∀ callee : OperationKind × OperationRef,
      through.matching.announces? (.call callKind issued issuer marked) callee.1
        (stamp (place + inner.span + 2)) callee.2 = none := by
    intro callee
    cases hann : through.matching.announces? (.call callKind issued issuer marked) callee.1
      (stamp (place + inner.span + 2)) callee.2 with
    | none => rfl
    | some how =>
      have hindices : issued.orderIndex + 1 = _ := (Matching.call_of_announces hann).1
      rw [hindex] at hindices
      omega
  obtain ⟨hlater, hacc⟩ := hrest through callKind issued issuer marked caller below slot slots
    (place + inner.span + 2) hmarker' (by rw [← hthrough]; exact hslots) hbelow hreturned
    (by rw [← hthrough, returned_matching]; exact hclearRest)
    (fun callee hcallee => hforeign callee (List.mem_cons_of_mem _ hcallee))
    (fun callee _ => hlate callee) (by omega)
  have hevents : t.run ((observed kind operation cause? inner rest).events stamp caller place) =
      through.run (rest.events stamp caller (place + inner.span + 2)) := by
    rw [events, run, hbefore, Step.andThen_ok]
    exact hrun
  have hafter : through.passed (rest.outline stamp (place + inner.span + 2) through.nextEoi
      through.slots.length) = after := by
    rw [← hthrough, returned_passed]
    simp only [returned, holding_nextEoi, holding_slots, outline_size, hmarker]
    rfl
  rw [hevents, ← hafter]
  exact ⟨hlater, hacc⟩

/-- The calls of an observed operation may start with one that is not observed. It ends when they go
on. -/
theorem Passes.unobserved {kind : OperationKind} {operation : OperationRef}
    {inner : Course false} {rest : Course true} (hinner : inner.Passes stamp)
    (hrest : rest.Passes stamp) :
    (Course.unobserved kind operation inner rest).Passes stamp := by
  intro t u caller place hclose hquiet hacc ⟨hforeign, hfirst, hclearInner, hclearRest⟩ after
  have hcall := @step_call_closed t kind (stamp place) caller operation u hclose
  obtain ⟨hrun, hafterInner⟩ := hinner (u.pushOpen (.call kind (stamp place) caller operation)) kind
    (stamp place) caller operation operation u.openEvents ⟨u.nextEoi, u.slots.length⟩ u.slots
    (place + 1) rfl rfl hquiet (hacc.pushOpen _) hclearInner hforeign hfirst
    (by rw [hindex]; omega)
  obtain ⟨hclosed, hreturned⟩ := @closeCalls_own _ kind (stamp place) caller operation u.openEvents
    ⟨u.nextEoi, u.slots.length⟩ u.slots rfl rfl hafterInner
    (stamp (place + 1 + inner.span)).timestamp (hclock _ _ (by omega))
  rw [show (u.pushOpen (.call kind (stamp place) caller operation)) = u.holding _ _ _ from rfl,
    returned_eq u] at hclosed hreturned
  generalize hthrough : u.returned _ _ = through at hclosed hreturned
  have hthroughQuiet : through.Quiet := hthrough ▸ hquiet
  obtain ⟨hlater, hacc⟩ := hrest _ through caller (place + 1 + inner.span) hclosed hthroughQuiet
    hreturned (by rw [← hthrough, returned_matching]; exact hclearRest)
  have hevents : t.run ((Course.unobserved kind operation inner rest).events stamp caller place) =
      (((u.pushOpen (.call kind (stamp place) caller operation)).passed
        (inner.outline stamp (place + 1) (u.nextEoi + 1) (u.slots.length + 1))).run
          (rest.events stamp caller (place + 1 + inner.span))) := by
    rw [events, run, hcall, Step.andThen_ok, run_append, hrun]
    rfl
  have hspan : place + (Course.unobserved kind operation inner rest).span =
      place + 1 + inner.span + rest.span := by
    simp only [span]
    omega
  have hafter : through.passed (rest.outline stamp (place + 1 + inner.span) through.nextEoi
      through.slots.length) = after := by
    rw [← hthrough, returned_passed]
    simp only [returned, holding_nextEoi, holding_slots, outline_size]
    rfl
  rw [hevents, hspan, ← hafter]
  exact ⟨hlater, hacc⟩

theorem passes {k : Bool} (c : Course k) : c.Passes stamp := by
  induction c with
  | @done k =>
    cases k with
    | true =>
      intro t u caller place hclose hquiet hacc hclear
      exact ⟨hclose, hacc⟩
    | false =>
      intro t kind issued issuer marked caller below slot slots place _ _ _ hacc _ _ _ _
      exact ⟨rfl, hacc⟩
  | @observed k kind operation cause? inner rest hinner hrest =>
    cases k with
    | true => exact .announced hindex hclock hinner hrest
    | false => exact .unannounced hindex hclock hinner hrest
  | unobserved kind operation inner rest hinner hrest =>
    exact .unobserved hindex hclock hinner hrest

end Passes

end Course

/-! ## Forests -/

section Forest
open Tracker Course

variable {stamp : Nat → Stamp} (hindex : ∀ i, (stamp i).orderIndex = i)
  (hclock : ∀ i j, i ≤ j → (stamp i).timestamp ≤ (stamp j).timestamp)
include hindex hclock

/-- A tracker on which nothing is open passes a root. -/
theorem Root.passes (r : Root) {t : Tracker} {place : Nat} (hopen : t.openEvents = [])
    (hslots : t.slots = []) (hacc : t.Accounted)
    (hclear : r.inner.Clear t.matching stamp r.operation
      (place + r.announcer?.isSome.toNat + 1)) (events : List Event) :
    let through := t.returned (r.invocation stamp place t.nextEoi)
      (r.inner.outline stamp (place + r.announcer?.isSome.toNat + 1) (t.nextEoi + 1) 1)
    t.run (r.events stamp place ++ events) = through.run events ∧ through.Accounted := by
  obtain ⟨announcer?, kind, operation, cause?, inner⟩ := r
  have hdepth : t.slots.length = 0 := by rw [hslots]; rfl
  have hquiet : t.Quiet := by
    intro e he
    rw [hopen] at he
    cases he
  have hinner := Course.passes hindex hclock inner
  cases announcer? with
  | none =>
    have hnone : t.matching.announcedBy? t.openEvents kind (stamp place) operation = none := by
      rw [hopen]
      rfl
    have hbefore := step_unannounced hnone (closeCalls_of_quiet hquiet _ _)
    obtain ⟨hrun, hreturned⟩ := @Passes.invocation stamp hclock inner hinner t kind operation
      cause? t.openEvents place none hacc hclear hnone (.inl rfl) rfl events
    simp only [hdepth, hopen] at hrun hreturned
    refine ⟨?_, hreturned⟩
    simp only [Root.events, Option.map_none, Option.toList_none, List.nil_append, List.cons_append,
      List.append_assoc, Option.isSome_none, Bool.toNat_false, Nat.add_zero]
    rw [run, hbefore, Step.andThen_ok]
    change (t.holding (_ :: t.openEvents) (⟨t.nextEoi, t.slots.length⟩ :: t.slots)
      (t.nextEoi + 1)).run _ = _
    rw [hopen, hdepth]
    exact hrun
  | some announcer =>
    obtain ⟨hrun, hreturned⟩ := @Passes.called stamp hindex hclock inner hinner t t kind announcer
      operation cause? place (closeCalls_of_quiet hquiet _ _) hacc hclear events
    simp only [hdepth] at hrun hreturned
    refine ⟨?_, hreturned⟩
    simp only [Root.events, Option.map_some, Option.toList_some, List.cons_append,
      List.nil_append, List.append_assoc, Option.isSome_some, Bool.toNat_true]
    exact hrun

/-- A tracker on which nothing is open passes a forest. -/
theorem Forest.passes (roots : List Root) {t : Tracker} {place : Nat}
    (hopen : t.openEvents = []) (hslots : t.slots = [])
    (hacc : t.Accounted) (hclear : Forest.Clear t.matching stamp place roots) :
    t.run (Forest.events stamp place roots) =
        ⟨t.passed (Forest.outline stamp place t.nextEoi roots), none⟩ ∧
      (t.passed (Forest.outline stamp place t.nextEoi roots)).Accounted := by
  induction roots generalizing t place with
  | nil => exact ⟨rfl, hacc⟩
  | cons r rest ih =>
    obtain ⟨hinner, hrest⟩ := hclear
    obtain ⟨hrun, hreturned⟩ := r.passes hindex hclock hopen hslots hacc hinner
      (Forest.events stamp (place + r.span) rest)
    generalize hthrough : t.returned _ _ = through at hrun hreturned
    obtain ⟨hlater, hacc⟩ := @ih through (place + r.span) (by rw [← hthrough]; exact hopen)
      (by rw [← hthrough]; exact hslots) hreturned
      (by rw [← hthrough, returned_matching]; exact hrest)
    have hafter : through.passed (Forest.outline stamp (place + r.span) through.nextEoi rest) =
        t.passed (Forest.outline stamp place t.nextEoi (r :: rest)) := by
      rw [← hthrough, returned_passed]
      simp only [returned, holding_nextEoi, outline_size, Forest.outline]
    rw [Forest.events, hrun, hlater, hafter]
    exact ⟨rfl, hafter ▸ hacc⟩

end Forest

end Retrace
