import Retrace.Proofs.Lifetimes
import Retrace.Proofs.Lockstep
import Retrace.Proofs.Timing

/-! Callers. An invocation is called from the one whose slot lay right below its own when it was
given out. Messages are made without that knowledge, from the places and the depths of what was
recorded. If a run leaves nothing open they come to the same: of all that opened since the slot
below was given out, whatever is not deeper than the new slot would have lain on that one, and its
end would have come first. -/

namespace Retrace

/-- A slot that was given out, and the one right below it at that moment. -/
structure Registration where
  slot : Slot
  below? : Option Slot
  deriving DecidableEq, Repr

namespace Registration

/-- The registration of the innermost slot, if a place has just been given out. -/
def last? (placesBefore placesAfter : Nat) : List Slot → Option Registration
  | [] => none
  | slot :: below =>
    if placesAfter = placesBefore then none else some ⟨slot, below.head?⟩

/-- Is a slot at the bottom, or one deeper than the slot below, which was given out before it, with
no slot given out in between that is less deep than the new one? -/
def Seated (registered : List Registration) (r : Registration) : Prop :=
  match r.below? with
  | none => r.slot.ess = 0
  | some below => (∃ q ∈ registered, q.slot = below) ∧ below.eoi < r.slot.eoi ∧
      below.ess + 1 = r.slot.ess ∧
      ∀ q ∈ registered, below.eoi < q.slot.eoi → q.slot.eoi < r.slot.eoi → r.slot.ess ≤ q.slot.ess

/-- A slot that is given out later changes nothing for those before it. -/
theorem Seated.append {registered : List Registration} {r new : Registration}
    (h : r.Seated registered) (hlater : r.slot.eoi < new.slot.eoi) :
    r.Seated (registered ++ [new]) := by
  obtain ⟨slot, below?⟩ := r
  cases below? with
  | none => exact h
  | some below =>
    obtain ⟨⟨q, hq, hslot⟩, heoi, hess, hbetween⟩ := h
    refine ⟨⟨q, List.mem_append_left _ hq, hslot⟩, heoi, hess, fun p hp hafter hbefore => ?_⟩
    rcases List.mem_append.mp hp with hp | hp
    · exact hbetween p hp hafter hbefore
    · obtain rfl := List.mem_singleton.mp hp
      exact absurd hbefore (Nat.not_lt_of_lt hlater)

end Registration

namespace Tracker

/-- What was registered when an event was taken in, if anything was. -/
def registered? (t : Tracker) (e : Event) : Option Registration :=
  Registration.last? t.nextEoi (t.step e).tracker.nextEoi (t.step e).tracker.slots

/-- What is registered as events are taken in one after the other. -/
def registrations (t : Tracker) : List Event → List Registration
  | [] => []
  | e :: rest => (t.registered? e).toList ++ (t.step e).tracker.registrations rest

theorem registrations_snoc {t : Tracker} {es : List Event} (hok : (t.run es).fault = none)
    (e : Event) :
    t.registrations (es ++ [e]) =
      t.registrations es ++ ((t.run es).tracker.registered? e).toList := by
  induction es generalizing t with
  | nil => simp [registrations, run]
  | cons d rest ih =>
    obtain ⟨_, heq⟩ := Step.andThen_of_fault hok
    have hrun : t.run (d :: rest) = (t.step d).tracker.run rest := heq
    rw [hrun] at hok ⊢
    rw [List.cons_append, registrations, ih hok, registrations, List.append_assoc]

end Tracker

namespace Frame
open scoped List

/-- A move takes slots off the top for what it ends, and may then put one on that gets the next
place and the depth below it. -/
theorem Moves.restacks {m : Matching} {e : Event} {fs gs : List Frame} {n k : Nat}
    {ended : List Invocation} (h : Moves m e fs n gs k ended) :
    ∃ below, below <:+ fs ∧ slots fs ~ slots below ++ ended.map (·.slot) ∧
      (k = n ∧ slots gs = slots below ∨
        k = n + 1 ∧ slots gs = ⟨n, below.length⟩ :: slots below) := by
  have hclosing : ∀ {signature : String} {time : Int} {ended below},
      close signature time fs = (ended, below) →
        below <:+ fs ∧ slots fs ~ slots below ++ ended.map (·.slot) := by
    intro signature time ended below hclose
    have hsuffix := close_suffix signature time fs
    have hslots := slots_close signature time fs
    rw [hclose] at hsuffix hslots
    exact ⟨hsuffix, hslots.trans List.perm_append_comm⟩
  cases h with
  | call hclose =>
    obtain ⟨hsuffix, hslots⟩ := hclosing hclose
    exact ⟨_, hsuffix, hslots, .inr ⟨rfl, rfl⟩⟩
  | announced _ => exact ⟨_, List.suffix_rfl, by simp, .inl ⟨rfl, rfl⟩⟩
  | unannounced _ hclose =>
    obtain ⟨hsuffix, hslots⟩ := hclosing hclose
    exact ⟨_, hsuffix, hslots, .inr ⟨rfl, rfl⟩⟩
  | ended _ hclose =>
    obtain ⟨hsuffix, hslots⟩ := hclosing hclose
    refine ⟨gs, (List.suffix_cons _ _).trans hsuffix, hslots.trans ?_, .inl ⟨rfl, rfl⟩⟩
    rw [List.map_append, ← List.append_assoc, slots_cons, List.cons_append]
    exact (List.perm_append_singleton _ _).symm
  | ignored _ => exact ⟨_, List.suffix_rfl, by simp, .inl ⟨rfl, rfl⟩⟩

/-- How the slots of open and ended invocations were given out. -/
structure Layered (fs : List Frame) (n : Nat) (ended : List Invocation)
    (registered : List Registration) : Prop where
  places : registered.map (·.slot.eoi) = List.range n
  shared : registered.map (·.slot) ~ slots fs ++ ended.map (·.slot)
  /-- What was given out since an open slot was is deeper than that. -/
  deeper : ∀ s ∈ slots fs, ∀ r ∈ registered, s.eoi < r.slot.eoi → s.ess < r.slot.ess
  seated : ∀ r ∈ registered, r.Seated registered

section Layered

variable {m : Matching} {fs below gs : List Frame} {n k : Nat} {ended more : List Invocation}
  {registered : List Registration}

theorem layered_start : Layered [] 0 [] [] :=
  ⟨rfl, List.Perm.refl _, by simp [slots], by simp⟩

/-- What ends leaves its slot to its execution. -/
theorem Layered.ends (h : Layered fs n ended registered) (hsuffix : below <:+ fs)
    (hslots : slots fs ~ slots below ++ more.map (·.slot)) :
    Layered below n (ended ++ more) registered where
  places := h.places
  shared := by
    rw [List.map_append]
    calc registered.map (·.slot)
      _ ~ slots fs ++ ended.map (·.slot) := h.shared
      _ ~ (slots below ++ more.map (·.slot)) ++ ended.map (·.slot) := hslots.append_right _
      _ ~ slots below ++ (ended.map (·.slot) ++ more.map (·.slot)) := by
        rw [List.append_assoc]
        exact List.perm_append_comm.append_left _
  deeper := fun s hs => h.deeper s ((hsuffix.map slot).subset hs)
  seated := h.seated

theorem Layered.eoi_lt (h : Layered fs n ended registered) {r : Registration}
    (hr : r ∈ registered) : r.slot.eoi < n :=
  List.mem_range.mp (h.places ▸ List.mem_map_of_mem (f := fun q : Registration => q.slot.eoi) hr)

/-- A new slot is seated on the innermost open one. -/
theorem Layered.opens (h : Layered fs n ended registered) (hsound : Sound m fs n)
    (hslots : slots gs = ⟨n, fs.length⟩ :: slots fs) :
    Layered gs (n + 1) ended (registered ++ [⟨⟨n, fs.length⟩, (slots fs).head?⟩]) where
  places := by rw [List.map_append, h.places, List.range_succ]; rfl
  shared := by
    rw [hslots, List.map_append, List.cons_append]
    exact (h.shared.append_right _).trans (List.perm_append_singleton _ _)
  deeper := by
    intro s hs r hr hlt
    rw [hslots] at hs
    rcases List.mem_append.mp hr with hr | hr
    · rcases List.mem_cons.mp hs with rfl | hs
      · exact absurd hlt (Nat.not_lt_of_lt (h.eoi_lt hr))
      · exact h.deeper s hs r hr hlt
    · obtain rfl := List.mem_singleton.mp hr
      rcases List.mem_cons.mp hs with rfl | hs
      · exact absurd hlt (Nat.lt_irrefl n)
      · obtain ⟨f, hf, rfl⟩ := List.mem_map.mp hs
        exact hsound.stacked.ess_lt f hf
  seated := by
    intro r hr
    rcases List.mem_append.mp hr with hr | hr
    · exact (h.seated r hr).append (h.eoi_lt hr)
    · obtain rfl := List.mem_singleton.mp hr
      cases fs with
      | nil => rfl
      | cons f below =>
        have hin : f.slot ∈ registered.map (·.slot) :=
          h.shared.mem_iff.mpr (List.mem_append_left _ List.mem_cons_self)
        obtain ⟨q, hq, hslot⟩ := List.mem_map.mp hin
        have hess : f.slot.ess = below.length := hsound.stacked.1
        refine ⟨⟨q, List.mem_append_left _ hq, hslot⟩, hsound.below f List.mem_cons_self,
          by rw [hess]; rfl, fun p hp hafter hbefore => ?_⟩
        rcases List.mem_append.mp hp with hp | hp
        · have hdeep := h.deeper f.slot List.mem_cons_self p hp hafter
          rw [hess] at hdeep
          exact hdeep
        · obtain rfl := List.mem_singleton.mp hp
          exact absurd hbefore (Nat.lt_irrefl n)

theorem Moves.layered {e : Event} (hmoves : Moves m e fs n gs k more) (hsound : Sound m fs n)
    (h : Layered fs n ended registered) :
    Layered gs k (ended ++ more)
      (registered ++ (Registration.last? n k (slots gs)).toList) := by
  obtain ⟨below, hsuffix, hslots, ⟨rfl, hgs⟩ | ⟨rfl, hgs⟩⟩ := hmoves.restacks
  · have hnone : Registration.last? k k (slots gs) = none := by
      cases slots gs <;> simp [Registration.last?]
    have hleft := h.ends hsuffix hslots
    rw [hnone, Option.toList_none, List.append_nil]
    exact ⟨hleft.places, hgs ▸ hleft.shared, hgs ▸ hleft.deeper, hleft.seated⟩
  · obtain ⟨closed, rfl⟩ := hsuffix
    have hopened := (h.ends ⟨closed, rfl⟩ hslots).opens hsound.of_append hgs
    rw [hgs, Registration.last?, if_neg (Nat.succ_ne_self n)]
    exact hopened

end Layered

end Frame

/-! ## From slots to executions -/

def Slot.coordinates (s : Slot) : Int × Int :=
  (s.eoi, s.ess)

def Execution.coordinates (e : Execution) : Int × Int :=
  (e.eoi, e.ess)

/-- Places that count up ascend. -/
theorem Registration.rising {registered : List Registration} {n : Nat}
    (h : registered.map (·.slot.eoi) = List.range n) :
    (registered.map (·.slot.coordinates)).Pairwise fun a b => a.1 < b.1 := by
  have hplaces : (registered.map (·.slot.eoi)).Pairwise (· < ·) := h ▸ List.pairwise_lt_range
  exact List.pairwise_map.mpr ((List.pairwise_map.mp hplaces).imp Int.ofNat_lt.mpr)

namespace Tracker
open Retrace.Frame
open scoped List

/-- The slots of a run of events whose order indices grow were given out in layers. -/
theorem reached_layered (trace : TraceInfo) (m : Matching) (model : Model) {es : List Event}
    (hinc : es.Pairwise fun d e => d.orderIndex < e.orderIndex)
    (hok : ((start trace m model).run es).fault = none) :
    ∃ fs ended, Reached trace m es ((start trace m model).run es).tracker fs ended ∧
      Layered fs ((start trace m model).run es).tracker.nextEoi ended
        ((start trace m model).registrations es) := by
  induction es using List.reverseRecOn with
  | nil => exact ⟨[], [], reached_start trace m model, layered_start⟩
  | append_singleton es e ih =>
    obtain ⟨hes, _, hnew⟩ := List.pairwise_append.mp hinc
    obtain ⟨hpast, hstep, htracker⟩ := run_snoc hok
    obtain ⟨fs, ended, hreached, hlayered⟩ := ih hes hpast
    obtain ⟨gs, more, hmoves, hnext⟩ := hreached.step (fun d hd => hnew d hd e (by simp)) hstep
    have hsound := hreached.history.sound hes
    have hregistered := registrations_snoc hpast e
    rw [registered?, hnext.tracks.slots] at hregistered
    rw [htracker, hregistered]
    exact ⟨gs, ended ++ more, hnext, hmoves.layered hsound hlayered⟩

/-- If nothing is open, the executions lie in the slots that were given out. -/
theorem Reached.coordinates {trace : TraceInfo} {m : Matching} {es : List Event} {t : Tracker}
    {ended : List Invocation} {registered : List Registration} {n : Nat}
    (h : Reached trace m es t [] ended) (hl : Layered [] n ended registered) :
    t.executions.executions.map (·.coordinates) = registered.map (·.slot.coordinates) := by
  have hperm : t.executions.executions.map (·.coordinates) ~
      registered.map (·.slot.coordinates) := by
    have hintervals := h.intervals.map fun x : Interval => (x.eoi, x.ess)
    have hslots := hl.shared.map Slot.coordinates
    rw [Tracker.intervals, List.map_map, List.map_map] at hintervals
    rw [List.map_map, show Frame.slots [] = [] from rfl, List.nil_append, List.map_map] at hslots
    exact hintervals.trans hslots.symm
  have hrising := Registration.rising hl.places
  have hsorted : (t.executions.executions.map (·.coordinates)).Pairwise fun a b => a.1 ≤ b.1 :=
    List.pairwise_map.mpr h.sorted
  refine hperm.eq_of_pairwise ?_ hsorted (hrising.imp Int.le_of_lt)
  intro a b ha hb hle hge
  have hnodup := List.pairwise_map.mpr (hrising.imp Int.ne_of_lt)
  exact List.inj_on_of_nodup_map hnodup (hperm.mem_iff.mp ha) hb (Int.le_antisymm hle hge)

end Tracker

/-! ## The calls -/

section Seated

variable {registered : List Registration} {n : Nat}

theorem Registration.eq_of_eoi (hplaces : registered.map (·.slot.eoi) = List.range n)
    {q r : Registration} (hq : q ∈ registered) (hr : r ∈ registered)
    (heoi : q.slot.eoi = r.slot.eoi) : q = r :=
  List.inj_on_of_nodup_map (hplaces ▸ List.nodup_range) hq hr heoi

/-- Slots that are seated in the order of their places nest. -/
theorem Registration.nests (hplaces : registered.map (·.slot.eoi) = List.range n)
    (hseated : ∀ r ∈ registered, r.Seated registered) :
    (∀ r ∈ registered.head?, r.slot.ess = 0) ∧
      registered.IsChain fun q r => r.slot.ess ≤ q.slot.ess + 1 := by
  have hplace : ∀ i (hi : i < registered.length), registered[i].slot.eoi = i := by
    intro i hi
    have hget := List.getElem_of_eq hplaces (by simpa using hi)
    rwa [List.getElem_map, List.getElem_range] at hget
  constructor
  · intro r hr
    obtain ⟨rest, rfl⟩ := List.head?_eq_some_iff.mp hr
    have hfirst : r.slot.eoi = 0 := hplace 0 (Nat.zero_lt_succ _)
    have hseat := hseated r List.mem_cons_self
    rw [Seated] at hseat
    cases hbelow : r.below? with
    | none => rwa [hbelow] at hseat
    | some below =>
      rw [hbelow] at hseat
      have := hseat.2.1
      omega
  · refine List.isChain_iff_getElem.mpr fun i hi => ?_
    have hbefore := hplace i (Nat.lt_of_succ_lt hi)
    have hafter := hplace (i + 1) hi
    have hseat := hseated _ (List.getElem_mem hi)
    rw [Seated] at hseat
    cases hbelow : (registered[i + 1]).below? with
    | none => rw [hbelow] at hseat; omega
    | some below =>
      rw [hbelow] at hseat
      obtain ⟨⟨q, hq, rfl⟩, heoi, hess, hbetween⟩ := hseat
      have hin : registered[i] ∈ registered := List.getElem_mem _
      rcases Nat.lt_or_ge q.slot.eoi i with hlt | hge
      · have := hbetween _ hin (by omega) (by omega)
        omega
      · have hsame : q = registered[i] := eq_of_eoi hplaces hq hin (by omega)
        rw [← hess, hsame]

end Seated

namespace ExecutionTrace

/-- Is the message the call of what ran in a slot by what ran in the slot below, or by the root
execution if there was none? -/
def CallOf (t : ExecutionTrace) (m : Message) (r : Registration) : Prop :=
  m.receiver ∈ t.executions ∧ m.receiver.coordinates = r.slot.coordinates ∧
    match r.below? with
    | none => m.sender = Execution.root t.traceId t.sessionId
    | some below => m.sender ∈ t.executions ∧ m.sender.coordinates = below.coordinates

section Seated

variable {t : ExecutionTrace} {registered : List Registration} {n : Nat}

theorem mem_coordinates
    (h : t.executions.map (·.coordinates) = registered.map (·.slot.coordinates)) :
    (∀ r ∈ registered, ∃ e ∈ t.executions, e.coordinates = r.slot.coordinates) ∧
      ∀ e ∈ t.executions, ∃ r ∈ registered, r.slot.coordinates = e.coordinates := by
  constructor
  · intro r hr
    exact List.mem_map.mp (h ▸ List.mem_map_of_mem (f := (·.slot.coordinates)) hr)
  · intro e he
    exact List.mem_map.mp (h ▸ List.mem_map_of_mem (f := Execution.coordinates) he)

/-- What ran in the slot below calls, since nothing in between is less deep. -/
theorem calls_of_seated
    (h : t.executions.map (·.coordinates) = registered.map (·.slot.coordinates))
    {r : Registration} {below : Slot} {e : Execution} (hseat : r.Seated registered)
    (hbelow : r.below? = some below) (he : e.coordinates = r.slot.coordinates) :
    ∃ c, c.coordinates = below.coordinates ∧ Calls t.executions c e := by
  obtain ⟨hran, hslots⟩ := mem_coordinates h
  rw [Registration.Seated, hbelow] at hseat
  obtain ⟨⟨q, hq, rfl⟩, heoi, hess, hbetween⟩ := hseat
  obtain ⟨c, hc, hcq⟩ := hran q hq
  obtain ⟨hceoi, hcess⟩ := Prod.mk.inj hcq
  obtain ⟨heeoi, heess⟩ := Prod.mk.inj he
  refine ⟨c, hcq, hc, by omega, by omega, fun x hx hafter hbefore => ?_⟩
  obtain ⟨p, hp, hpx⟩ := hslots x hx
  obtain ⟨hxeoi, hxess⟩ := Prod.mk.inj hpx
  have := hbetween p hp (by omega) (by omega)
  omega

/-- Executions in slots have the depths of these. -/
theorem ess_nonneg (h : t.executions.map (·.coordinates) = registered.map (·.slot.coordinates)) :
    ∀ e ∈ t.executions, 0 ≤ e.ess := by
  intro e he
  obtain ⟨r, _, hr⟩ := (mem_coordinates h).2 e he
  have hdepth : (r.slot.ess : Int) = e.ess := congrArg Prod.snd hr
  omega

/-- Executions in slots that are seated in the order of their places have messages. -/
theorem exists_toMessages_of_seated (hplaces : registered.map (·.slot.eoi) = List.range n)
    (hseated : ∀ r ∈ registered, r.Seated registered)
    (h : t.executions.map (·.coordinates) = registered.map (·.slot.coordinates)) :
    ∃ messages, t.toMessages = .ok messages := by
  obtain ⟨hfirst, hchain⟩ := Registration.nests hplaces hseated
  have hess : t.executions.map (·.ess) = registered.map fun r => (r.slot.ess : Int) := by
    have := congrArg (List.map Prod.snd) h
    rwa [List.map_map, List.map_map] at this
  refine exists_toMessages_iff.mpr ⟨fun e he => ?_, ess_nonneg h, ?_⟩
  · have hhead : e.ess ∈ (t.executions.map (·.ess)).head? := by
      rw [List.head?_map, Option.mem_def.mp he]; rfl
    rw [hess, List.head?_map] at hhead
    obtain ⟨r, hr, hre⟩ := Option.map_eq_some_iff.mp hhead
    rw [← hre, hfirst r hr]
    rfl
  · refine (List.isChain_map (R := fun a b : Int => b ≤ a + 1) Execution.ess).mp ?_
    rw [hess, List.isChain_map]
    exact hchain.imp fun q r hle => by omega

/-- The sender of a call, known from the places and the depths alone, ran in the slot below. -/
theorem callOf_of_seated (hasc : Ascending t.executions)
    (h : t.executions.map (·.coordinates) = registered.map (·.slot.coordinates))
    {r : Registration} {m : Message} (hseat : r.Seated registered)
    (hreceiver : m.receiver ∈ t.executions)
    (hcoordinates : m.receiver.coordinates = r.slot.coordinates)
    (hsender : m.sender = Execution.root t.traceId t.sessionId ∧ m.receiver.ess = 0 ∨
      Calls t.executions m.sender m.receiver) : t.CallOf m r := by
  refine ⟨hreceiver, hcoordinates, ?_⟩
  have hdepth : m.receiver.ess = r.slot.ess := congrArg Prod.snd hcoordinates
  cases hbelow : r.below? with
  | none =>
    rw [Registration.Seated, hbelow] at hseat
    refine (hsender.resolve_right fun hcalls => ?_).1
    obtain ⟨hsent, _, hdeeper, _⟩ := hcalls
    have := ess_nonneg h m.sender hsent
    omega
  | some below =>
    obtain ⟨c, hc, hcalls⟩ := calls_of_seated h hseat hbelow hcoordinates
    have hsent : Calls t.executions m.sender m.receiver := by
      refine hsender.resolve_left fun hroot => ?_
      have := ess_nonneg h c hcalls.1
      have := hcalls.2.2.1
      omega
    obtain rfl := Calls.unique hasc hsent hcalls
    exact ⟨hcalls.1, hc⟩

/-- Executions in slots that are seated in the order of their places have messages, and these call
each of them from the slot below its own. -/
theorem calls_seated (hplaces : registered.map (·.slot.eoi) = List.range n)
    (hseated : ∀ r ∈ registered, r.Seated registered)
    (h : t.executions.map (·.coordinates) = registered.map (·.slot.coordinates)) :
    ∃ messages, t.toMessages = .ok messages ∧
      messages.calls.map (·.receiver) = t.executions ∧
      List.Forall₂ t.CallOf messages.calls registered := by
  have hasc : Ascending t.executions := by
    have hrising := Registration.rising hplaces
    rwa [← h, List.pairwise_map] at hrising
  obtain ⟨messages, hmessages⟩ := exists_toMessages_of_seated hplaces hseated h
  have hwalk := (toMessages_eq_ok_iff.mp hmessages).2.2
  have hreceivers : messages.calls.map (·.receiver) = t.executions := callees_exchange hwalk
  have hcalled := @calls_of_exchange _ (root_ess t.traceId t.sessionId) [] [] t.executions _
    contiguous_nil hwalk hasc (by simp) (by simp)
  have hpaired : List.Forall₂ (fun m r => m.receiver.coordinates = r.slot.coordinates)
      messages.calls registered := by
    rw [← hreceivers, List.map_map, ← List.forall₂_eq_eq_eq] at h
    exact List.forall₂_map_right_iff.mp (List.forall₂_map_left_iff.mp h)
  obtain ⟨hlength, hzip⟩ := List.forall₂_iff_zip.mp hpaired
  refine ⟨messages, hmessages, hreceivers, List.forall₂_iff_zip.mpr ⟨hlength, fun {m r} hmr => ?_⟩⟩
  obtain ⟨hm, hr⟩ := List.of_mem_zip hmr
  obtain ⟨hin, hcall⟩ := List.mem_filter.mp hm
  obtain ⟨hreceiver, _, hsender⟩ := hcalled m hin hcall
  exact callOf_of_seated hasc h (hseated r hr) hreceiver (hzip hmr) hsender

end Seated

end ExecutionTrace

namespace Tracker
open Retrace.Frame
open scoped List

/-- A run of events whose order indices grow that ends with nothing open has messages. Its slots
were given out at the places from zero on, and each of them has one execution, which is called from
the slot that was right below it when it was given out. -/
theorem calls_registered (trace : TraceInfo) (m : Matching) (model : Model) {events : List Event}
    (hinc : events.Pairwise fun d e => d.orderIndex < e.orderIndex)
    (hok : ((start trace m model).run events).fault = none)
    (hclosed : ((start trace m model).run events).tracker.openEvents = []) :
    ∃ messages,
      ((start trace m model).run events).tracker.finish.executions.toMessages = .ok messages ∧
      messages.calls.map (·.receiver) =
        ((start trace m model).run events).tracker.finish.executions.executions ∧
      ((start trace m model).registrations events).map (·.slot.eoi) =
        List.range ((start trace m model).run events).tracker.nextEoi ∧
      List.Forall₂ ((start trace m model).run events).tracker.finish.executions.CallOf
        messages.calls ((start trace m model).registrations events) := by
  obtain ⟨fs, ended, hreached, hlayered⟩ := reached_layered trace m model hinc hok
  generalize ((start trace m model).run events).tracker = t at *
  obtain rfl : fs = [] := by
    have hempty := openEvents_isEmpty fs
    rw [← hreached.tracks.openEvents, hclosed] at hempty
    exact List.isEmpty_iff.mp hempty.symm
  have hfinish : t.finish = t := by rw [finish, hclosed]; rfl
  obtain ⟨messages, hmessages, hreceivers, hcalls⟩ :=
    ExecutionTrace.calls_seated hlayered.places hlayered.seated (hreached.coordinates hlayered)
  rw [hfinish]
  exact ⟨messages, hmessages, hreceivers, hlayered.places, hcalls⟩

/-- The announced operation ends too, so nothing is open. -/
def forgottenCallOver : List Event :=
  forgottenCall ++ [.after .operation ⟨7, 7, 7⟩ ⟨"a()", "A"⟩]

theorem forgottenCallOver_called :
    (forgottenCallOver.Pairwise fun d e => d.orderIndex < e.orderIndex) ∧
      ((start { traceId := 7 } {} {}).run forgottenCallOver).fault = none ∧
      ((start { traceId := 7 } {} {}).run forgottenCallOver).tracker.openEvents = [] ∧
      (start { traceId := 7 } {} {}).registrations forgottenCallOver =
        [⟨⟨0, 0⟩, none⟩, ⟨⟨1, 1⟩, some ⟨0, 0⟩⟩, ⟨⟨2, 2⟩, some ⟨1, 1⟩⟩,
          ⟨⟨3, 2⟩, some ⟨1, 1⟩⟩] ∧
      ∃ messages,
        ((start { traceId := 7 } {} {}).run
            forgottenCallOver).tracker.finish.executions.toMessages = .ok messages ∧
        List.Forall₂
          ((start { traceId := 7 } {} {}).run forgottenCallOver).tracker.finish.executions.CallOf
          messages.calls ((start { traceId := 7 } {} {}).registrations forgottenCallOver) := by
  refine ⟨by decide, by rfl, by rfl, by rfl, ?_⟩
  obtain ⟨messages, hmessages, _, _, hcalls⟩ := calls_registered { traceId := 7 } {} {}
    (show forgottenCallOver.Pairwise _ by decide) (by rfl) (by rfl)
  exact ⟨messages, hmessages, hcalls⟩

end Tracker

end Retrace
