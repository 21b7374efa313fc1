import Mathlib.Data.List.Induction
import Mathlib.Data.List.TakeWhile
import Retrace.Proofs.History

/-! The two stacks in step. A tracker keeps its open events and their slots apart, and the stacks
are not of the same length: a beginning that its marker announced has no slot of its own. What an
open event met when it came is read off the run itself, from the tracker as it was after the events
before it. The slots are those that the events of their own slots got then, and what an end finds
out about its beginning is what the beginning found out. -/

namespace Retrace
open Retrace.Frame

namespace Tracker

/-- What the tracker has become after those of the events that came before this one. -/
def whenCame (t : Tracker) (events : List Event) (e : Event) : Tracker :=
  (t.run (events.takeWhile (·.orderIndex < e.orderIndex))).tracker

/-- Was the event a beginning, and announced by the innermost open event when it came? -/
def cameAnnounced (t : Tracker) (events : List Event) (e : Event) : Bool :=
  match e with
  | .before kind stamp operation =>
    ((t.whenCame events e).announced? kind stamp operation).isSome
  | _ => false

/-- Has the open event a slot of its own? -/
def ownsSlot (t : Tracker) (events : List Event) (e : Event) : Bool :=
  e.isCall || !t.cameAnnounced events e

/-- The innermost slot as soon as the event was taken in. -/
def slotGot? (t : Tracker) (events : List Event) (e : Event) : Option Slot :=
  ((t.whenCame events e).step e).tracker.slots.head?

end Tracker

/-- How the stacks of a tracker correspond after the events of a run. Both have the innermost one
first, so that the slot at the bottom is the last one. -/
structure LockStep (start : Tracker) (events : List Event) (t : Tracker) : Prop where
  kinds : ∀ e ∈ t.openEvents, e.isCall ∨ e.isBefore
  owned : (t.openEvents.filter (start.ownsSlot events)).map (start.slotGot? events) =
    t.slots.map some
  depths : t.slots.reverse.map Slot.ess = List.range t.slots.length
  rising : t.slots.Pairwise fun upper lower => lower.eoi < upper.eoi
  below : ∀ s ∈ t.slots, s.eoi < t.nextEoi
  short : t.nextEoi ≤ events.length
  agreed : ∀ kind stamp operation below,
    Event.before kind stamp operation :: below <:+ t.openEvents →
    ({ t with openEvents := below }.announced? kind stamp operation).isSome =
      start.cameAnnounced events (.before kind stamp operation)

namespace Tracker

section Prefix

variable {t : Tracker} {es : List Event} {d e : Event}

/-- Later events do not change what an event met. -/
theorem whenCame_append (hd : d ∈ es) (rest : List Event) :
    t.whenCame (es ++ rest) d = t.whenCame es d := by
  have htaken : (es ++ rest).takeWhile (·.orderIndex < d.orderIndex) =
      es.takeWhile (·.orderIndex < d.orderIndex) := by
    rw [List.takeWhile_append, if_neg]
    intro hall
    have hsame := (List.takeWhile_prefix _).eq_of_length hall
    have hlt := List.takeWhile_eq_self_iff.mp hsame d hd
    simp at hlt
  rw [whenCame, htaken, whenCame]

theorem whenCame_last (hnew : ∀ d ∈ es, d.orderIndex < e.orderIndex) :
    t.whenCame (es ++ [e]) e = (t.run es).tracker := by
  rw [whenCame, List.takeWhile_append_of_pos (by simpa using hnew)]
  simp

theorem cameAnnounced_append (hd : d ∈ es) (rest : List Event) :
    t.cameAnnounced (es ++ rest) d = t.cameAnnounced es d := by
  unfold cameAnnounced
  rw [whenCame_append hd]

theorem slotGot?_append (hd : d ∈ es) (rest : List Event) :
    t.slotGot? (es ++ rest) d = t.slotGot? es d := by
  unfold slotGot?
  rw [whenCame_append hd]

end Prefix

end Tracker

namespace Frame

/-- Does the frame tell how its events came, the one with the slot and the one without? -/
def Recalls (start : Tracker) (es : List Event) : Frame → Prop
  | called caller call => start.slotGot? es (call.marker caller) = some call.slot
  | begun kind stamp operation slot none =>
    start.cameAnnounced es (.before kind stamp operation) = false ∧
      start.slotGot? es (.before kind stamp operation) = some slot
  | begun kind stamp operation slot (some marker) =>
    start.cameAnnounced es (.before kind stamp operation) = true ∧ marker.isCall ∧
      start.slotGot? es marker = some slot

theorem Recalls.append {start : Tracker} {es : List Event} {f : Frame}
    (h : f.Recalls start es) (hf : ∀ d ∈ f.events, d ∈ es) (rest : List Event) :
    f.Recalls start (es ++ rest) := by
  cases f with
  | called caller call =>
    rw [Recalls, Tracker.slotGot?_append (hf _ (by simp [events]))]
    exact h
  | begun kind stamp operation slot marker? =>
    have hbefore : Event.before kind stamp operation ∈ es := hf _ (by simp [events])
    cases marker? with
    | none =>
      rw [Recalls, Tracker.cameAnnounced_append hbefore, Tracker.slotGot?_append hbefore]
      exact h
    | some marker =>
      rw [Recalls, Tracker.cameAnnounced_append hbefore,
        Tracker.slotGot?_append (hf marker (by simp [events]))]
      exact h

/-- What a move leaves open was open, or is the frame of the new event. -/
theorem Moves.recalls {m : Matching} {e : Event} {fs gs : List Frame} {k : Nat}
    {ended : List Invocation} {start t : Tracker} {es : List Event}
    (hmoves : Moves m e fs t.nextEoi gs k ended) (hm : t.matching = m)
    (hopen : t.openEvents = openEvents fs) (hcame : start.whenCame (es ++ [e]) e = t)
    (hslots : (t.step e).tracker.slots = slots gs)
    (hold : ∀ f ∈ fs, f.Recalls start (es ++ [e])) : ∀ g ∈ gs, g.Recalls start (es ++ [e]) := by
  have hgot : start.slotGot? (es ++ [e]) e = (slots gs).head? := by
    rw [Tracker.slotGot?, hcame, hslots]
  have hclosed : ∀ {signature : String} {time : Int} {ended below},
      close signature time fs = (ended, below) → ∀ g ∈ below, g.Recalls start (es ++ [e]) := by
    intro signature time ended below hclose g hg
    obtain ⟨closed, hsplit, _, _⟩ := close_split signature time fs
    rw [hclose] at hsplit
    exact hold g (hsplit ▸ List.mem_append_right _ hg)
  intro g hg
  cases hmoves with
  | call hclose =>
    rcases List.mem_cons.mp hg with rfl | hg
    · exact hgot
    · exact hclosed hclose g hg
  | announced hann =>
    rcases List.mem_cons.mp hg with rfl | hg
    · refine ⟨?_, rfl, hold (called _ _) List.mem_cons_self⟩
      rw [Tracker.cameAnnounced, hcame, Tracker.announced?, hopen, hm]
      exact hann
    · exact hold g (List.mem_cons_of_mem _ hg)
  | unannounced hnone hclose =>
    rcases List.mem_cons.mp hg with rfl | hg
    · refine ⟨?_, hgot⟩
      rw [Tracker.cameAnnounced, hcame, Tracker.announced?, hopen, hm]
      exact Option.isSome_eq_false_iff.mpr (Option.isNone_iff_eq_none.mpr hnone)
    · exact hclosed hclose g hg
  | ended _ hclose => exact hclosed hclose g (List.mem_cons_of_mem _ hg)
  | ignored _ => exact hold g hg

end Frame

namespace Tracker

/-- Events of growing order indices that are taken in without a fault have a history, and its frames
tell how they came. -/
theorem reached_run (trace : TraceInfo) (m : Matching) (model : Model) {es : List Event}
    (hinc : es.Pairwise fun d e => d.orderIndex < e.orderIndex)
    (hok : ((start trace m model).run es).fault = none) :
    ∃ fs ended, Reached trace m es ((start trace m model).run es).tracker fs ended ∧
      ∀ f ∈ fs, f.Recalls (start trace m model) es := by
  induction es using List.reverseRecOn with
  | nil => exact ⟨[], [], reached_start trace m model, by simp⟩
  | append_singleton es e ih =>
    obtain ⟨hes, _, hnew⟩ := List.pairwise_append.mp hinc
    have hlater : ∀ d ∈ es, d.orderIndex < e.orderIndex := fun d hd => hnew d hd e (by simp)
    obtain ⟨hpast, hstep, htracker⟩ := run_snoc hok
    obtain ⟨fs, ended, hreached, hrecalls⟩ := ih hes hpast
    obtain ⟨gs, more, hmoves, hnext⟩ := hreached.step hlater hstep
    rw [htracker]
    refine ⟨gs, ended ++ more, hnext, ?_⟩
    refine hmoves.recalls hreached.matching hreached.tracks.openEvents (whenCame_last hlater)
      hnext.tracks.slots ?_
    intro f hf
    refine (hrecalls f hf).append (fun d hd => ?_) [e]
    exact hreached.history.openEvents_subset d (List.mem_flatMap.mpr ⟨f, hf, hd⟩)

end Tracker

namespace Frame

section Views

variable {start : Tracker} {es : List Event} {fs : List Frame} {m : Matching}

theorem owned_openEvents (h : ∀ f ∈ fs, f.Recalls start es) :
    ((openEvents fs).filter (start.ownsSlot es)).map (start.slotGot? es) =
      (slots fs).map some := by
  induction fs with
  | nil => rfl
  | cons f below ih =>
    have hone : (f.events.filter (start.ownsSlot es)).map (start.slotGot? es) =
        [some f.slot] := by
      have hf := h f List.mem_cons_self
      cases f with
      | called caller call =>
        have howns : start.ownsSlot es (call.marker caller) = true := rfl
        rw [Recalls] at hf
        simp [events, howns, hf, Frame.slot]
      | begun kind stamp operation own marker? =>
        cases marker? with
        | none =>
          obtain ⟨hcame, hgot⟩ := hf
          simp [events, Tracker.ownsSlot, hcame, hgot, Frame.slot]
        | some marker =>
          obtain ⟨hcame, hcall, hgot⟩ := hf
          have hshares : start.ownsSlot es (.before kind stamp operation) = false := by
            simp [Tracker.ownsSlot, hcame, Event.isCall]
          have howns : start.ownsSlot es marker = true := by simp [Tracker.ownsSlot, hcall]
          simp [events, hshares, howns, hgot, Frame.slot]
    rw [openEvents_cons, List.filter_append, List.map_append, hone,
      ih fun g hg => h g (List.mem_cons_of_mem f hg)]
    rfl

theorem kinds_openEvents (h : ∀ f ∈ fs, f.Recalls start es) :
    ∀ e ∈ openEvents fs, e.isCall ∨ e.isBefore := by
  intro e he
  obtain ⟨f, hf, he⟩ := List.mem_flatMap.mp he
  have hrecalls := h f hf
  cases f with
  | called caller call =>
    rw [List.mem_singleton.mp he]
    exact .inl rfl
  | begun kind stamp operation slot marker? =>
    rcases List.mem_cons.mp he with rfl | he
    · exact .inr rfl
    · cases marker? with
      | none => cases he
      | some marker =>
        rw [List.mem_singleton.mp he]
        exact .inl hrecalls.2.1

theorem Stacked.depths (h : Stacked m fs) :
    (slots fs).reverse.map Slot.ess = List.range (slots fs).length := by
  induction fs with
  | nil => rfl
  | cons f below ih =>
    obtain ⟨hess, _, _, hbelow⟩ := h
    simp [slots, hess, List.range_succ] at ih ⊢
    exact ih hbelow

theorem Stacked.rising (h : Stacked m fs) :
    (slots fs).Pairwise fun upper lower => lower.eoi < upper.eoi := by
  induction fs with
  | nil => exact List.Pairwise.nil
  | cons f below ih =>
    obtain ⟨_, heoi, _, hbelow⟩ := h
    refine List.pairwise_cons.mpr ⟨?_, ih hbelow⟩
    intro s hs
    obtain ⟨g, hg, rfl⟩ := List.mem_map.mp hs
    exact heoi g hg

/-- A beginning and what is open below it are a frame and the frames below it, so that the marker
below it is either its own or does not announce it. -/
theorem Stacked.agreed {kind : OperationKind} {stamp : Stamp} {operation : OperationRef}
    {below : List Event} (h : Stacked m fs) (hrecalls : ∀ f ∈ fs, f.Recalls start es)
    (hsuffix : Event.before kind stamp operation :: below <:+ openEvents fs) :
    (m.announcedBy? below kind stamp operation).isSome =
      start.cameAnnounced es (.before kind stamp operation) := by
  induction fs with
  | nil => simp [openEvents] at hsuffix
  | cons f rest ih =>
    obtain ⟨_, _, hfits, hrest⟩ := h
    have hlower : ∀ {d}, d :: below <:+ openEvents rest →
        d = .before kind stamp operation → _ := fun hd heq =>
      ih hrest (fun g hg => hrecalls g (List.mem_cons_of_mem f hg)) (heq ▸ hd)
    have hf := hrecalls f List.mem_cons_self
    cases f with
    | called caller call =>
      rcases List.suffix_cons_iff.mp hsuffix with heq | hd
      · cases heq
      · exact hlower hd rfl
    | begun kind' stamp' operation' slot marker? =>
      cases marker? with
      | none =>
        rcases List.suffix_cons_iff.mp hsuffix with heq | hd
        · cases heq
          rw [hf.1]
          exact Option.isSome_eq_false_iff.mpr (Option.isNone_iff_eq_none.mpr hfits)
        · exact hlower hd rfl
      | some marker =>
        rcases List.suffix_cons_iff.mp hsuffix with heq | hd
        · cases heq
          rw [hf.1]
          exact hfits
        · rcases List.suffix_cons_iff.mp hd with heq | hd
          · cases heq
            have hcall := hf.2.1
            cases hcall
          · exact hlower hd rfl

theorem Moves.short {e : Event} {gs : List Frame} {n k : Nat} {ended : List Invocation}
    (h : Moves m e fs n gs k ended) : k ≤ n + 1 := by
  cases h <;> omega

theorem History.short {n : Nat} {ended : List Invocation} (h : History m es fs n ended) :
    n ≤ es.length := by
  induction h with
  | start => exact Nat.le_refl 0
  | step _ hmoves ih =>
    have hone := hmoves.short
    rw [List.length_append, List.length_singleton]
    omega

end Views

end Frame

namespace Tracker

/-- Events of growing order indices keep the stacks of a new tracker in step, after every part of
them that is taken in without a fault. -/
theorem stacks_in_step (trace : TraceInfo) (matching : Matching) (model : Model)
    {events taken : List Event}
    (hinc : events.Pairwise fun d e => d.orderIndex < e.orderIndex) (hpart : taken <+: events)
    (hok : ((start trace matching model).run taken).fault = none) :
    LockStep (start trace matching model) taken
      ((start trace matching model).run taken).tracker := by
  have htaken := hinc.sublist hpart.sublist
  obtain ⟨fs, ended, hreached, hrecalls⟩ := reached_run trace matching model htaken hok
  obtain ⟨hevents, hslots, hsound⟩ := hreached.tracks
  have hmatching := hreached.matching
  have hhistory := hreached.history
  generalize ((start trace matching model).run taken).tracker = t at *
  exact
    { kinds := hevents ▸ kinds_openEvents hrecalls
      owned := hevents ▸ hslots ▸ owned_openEvents hrecalls
      depths := hslots ▸ hsound.stacked.depths
      rising := hslots ▸ hsound.stacked.rising
      below := by
        intro s hs
        rw [hslots] at hs
        obtain ⟨f, hf, rfl⟩ := List.mem_map.mp hs
        exact hsound.below f hf
      short := hhistory.short
      agreed := by
        intro kind stamp operation below hsuffix
        rw [hevents] at hsuffix
        exact hsound.stacked.agreed hrecalls hsuffix }

/-- An announced operation, one inside it that is not, and a call that the inner one forgets. -/
def forgottenCall : List Event :=
  [.call .operation ⟨1, 7, 0⟩ ⟨"main()", "M"⟩ ⟨"a()", "A"⟩,
   .before .operation ⟨2, 7, 1⟩ ⟨"a()", "A"⟩,
   .before .constructor ⟨3, 7, 2⟩ ⟨"b()", "B"⟩,
   .call .operation ⟨4, 7, 4⟩ ⟨"b()", "B"⟩ ⟨"c()", "C"⟩,
   .call .operation ⟨5, 7, 5⟩ ⟨"b()", "B"⟩ ⟨"d()", "D"⟩,
   .after .constructor ⟨6, 7, 6⟩ ⟨"b()", "B"⟩]

theorem forgottenCall_in_step :
    (forgottenCall.Pairwise fun d e => d.orderIndex < e.orderIndex) ∧
      forgottenCall.take 5 <+: forgottenCall ∧
      ((start { traceId := 7 } {} {}).run (forgottenCall.take 5)).fault = none ∧
      ((start { traceId := 7 } {} {}).run (forgottenCall.take 5)).tracker.slots =
        [⟨3, 2⟩, ⟨1, 1⟩, ⟨0, 0⟩] ∧
      LockStep (start { traceId := 7 } {} {}) (forgottenCall.take 5)
        ((start { traceId := 7 } {} {}).run (forgottenCall.take 5)).tracker :=
  ⟨by decide, List.take_prefix 5 _, by rfl, by rfl,
    stacks_in_step { traceId := 7 } {} {} (by decide) (List.take_prefix 5 _) (by rfl)⟩

end Tracker

end Retrace
