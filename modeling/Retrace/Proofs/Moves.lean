import Retrace.Proofs.Frames

/-! Moves. What an event does to the open invocations, and which ones it ends, is said once, on
frames. As long as order indices grow, a tracker does what the moves say. An end finds out again
whether its beginning was announced; that it comes to the same answer rests on the order indices,
since no other marker can be right before the beginning. -/

namespace Retrace

namespace Event

/-- The operation that the event ends, with its kind. -/
def ending? : Event → Option (OperationKind × Stamp × OperationRef)
  | after kind stamp operation => some (kind, stamp, operation)
  | afterFailed kind stamp operation _ => some (kind, stamp, operation)
  | _ => none

/-- Does the event say nothing about invocations? -/
def isIgnored : Event → Bool
  | split _ => true
  | unknown _ _ => true
  | _ => false

end Event

theorem Matching.call_of_announces {m : Matching} {previous : Event} {kind : OperationKind}
    {stamp : Stamp} {operation : OperationRef} {how : CallMatch}
    (h : m.announces? previous kind stamp operation = some how) :
    previous.orderIndex + 1 = stamp.orderIndex ∧
      ∃ callStamp caller callee, previous = .call kind callStamp caller callee := by
  unfold announces? at h
  split at h
  · rename_i callKind callStamp caller callee
    split at h
    · cases h
    · rename_i hcond
      obtain ⟨hkind, hindex⟩ := not_or.mp hcond
      obtain rfl := not_not.mp hkind
      exact ⟨not_not.mp hindex, callStamp, caller, callee, rfl⟩
  · cases h

namespace Frame

/-- Does the frame agree with the frames below it on whether its beginning was announced? -/
def Fits (m : Matching) (below : List Frame) : Frame → Prop
  | called _ _ => True
  | begun kind stamp operation _ none =>
    m.announcedBy? (openEvents below) kind stamp operation = none
  | begun kind stamp operation _ (some marker) =>
    (m.announces? marker kind stamp operation).isSome

/-- Are the frames numbered by their depth, opened from the bottom to the top, and in agreement with
what is below them? -/
def Stacked (m : Matching) : List Frame → Prop
  | [] => True
  | f :: below =>
    f.slot.ess = below.length ∧ (∀ g ∈ below, g.slot.eoi < f.slot.eoi) ∧ f.Fits m below ∧
      Stacked m below

theorem Stacked.of_append {m : Matching} {closed below : List Frame}
    (h : Stacked m (closed ++ below)) : Stacked m below := by
  induction closed with
  | nil => exact h
  | cons f closed ih => exact ih h.2.2.2

/-- What an event does to the open invocations and the next place, and which invocations it ends. -/
inductive Moves (m : Matching) :
    Event → List Frame → Nat → List Frame → Nat → List Invocation → Prop where
  | call {kind : OperationKind} {stamp : Stamp} {caller callee : OperationRef}
      {fs below : List Frame} {n : Nat} {ended : List Invocation} :
      close caller.signature stamp.timestamp fs = (ended, below) →
      Moves m (.call kind stamp caller callee) fs n
        (called caller ⟨kind, stamp, callee, ⟨n, below.length⟩⟩ :: below) (n + 1) ended
  | announced {kind : OperationKind} {stamp : Stamp} {operation caller : OperationRef}
      {call : OpenCall} {below : List Frame} {n : Nat} :
      (m.announces? (call.marker caller) kind stamp operation).isSome →
      Moves m (.before kind stamp operation) (called caller call :: below) n
        (begun kind stamp operation call.slot (some (call.marker caller)) :: below) n []
  | unannounced {kind : OperationKind} {stamp : Stamp} {operation : OperationRef}
      {fs below : List Frame} {n : Nat} {ended : List Invocation} :
      m.announcedBy? (openEvents fs) kind stamp operation = none →
      close operation.signature stamp.timestamp fs = (ended, below) →
      Moves m (.before kind stamp operation) fs n
        (begun kind stamp operation ⟨n, below.length⟩ none :: below) (n + 1) ended
  /-- An operation is assumed if no marker announced it, unless nothing is open around it. -/
  | ended {e : Event} {kind : OperationKind} {stamp endStamp : Stamp} {operation : OperationRef}
      {slot : Slot} {marker? : Option Event} {fs below : List Frame} {n : Nat}
      {ended : List Invocation} :
      e.ending? = some (kind, endStamp, operation) →
      close operation.signature endStamp.timestamp fs =
        (ended, begun kind stamp operation slot marker? :: below) →
      Moves m e fs n below n
        (ended ++ [(begun kind stamp operation slot marker?).endedAt endStamp.timestamp
          (!(marker?.isSome || below.isEmpty))])
  | ignored {e : Event} {fs : List Frame} {n : Nat} : e.isIgnored → Moves m e fs n fs n []

/-- Can the frames be those of a tracker with a given next place? The events that are open have come
in the order of their indices. -/
structure Sound (m : Matching) (fs : List Frame) (n : Nat) : Prop where
  stacked : Stacked m fs
  below : ∀ f ∈ fs, f.slot.eoi < n
  order : (openEvents fs).Pairwise fun later earlier => earlier.orderIndex < later.orderIndex

theorem Sound.of_append {m : Matching} {closed below : List Frame} {n : Nat}
    (h : Sound m (closed ++ below) n) : Sound m below n where
  stacked := h.stacked.of_append
  below := fun f hf => h.below f (List.mem_append_right closed hf)
  order := by
    have horder := h.order
    rw [openEvents_append] at horder
    exact (List.pairwise_append.mp horder).2.1

/-- A frame with the next place and an event of a new index goes on top. -/
theorem Sound.push {m : Matching} {fs : List Frame} {n : Nat} {f : Frame} {e : Event}
    (h : Sound m fs n) (hslot : f.slot = ⟨n, fs.length⟩) (hevents : f.events = [e])
    (hfits : f.Fits m fs) (hnew : ∀ d ∈ openEvents fs, d.orderIndex < e.orderIndex) :
    Sound m (f :: fs) (n + 1) where
  stacked := ⟨by rw [hslot], by rw [hslot]; exact h.below, hfits, h.stacked⟩
  below := by
    intro g hg
    rcases List.mem_cons.mp hg with rfl | hg
    · rw [hslot]; exact Nat.lt_succ_self n
    · exact Nat.lt_succ_of_lt (h.below g hg)
  order := by
    rw [openEvents_cons, hevents]
    exact List.pairwise_cons.mpr ⟨hnew, h.order⟩

theorem Sound.close {m : Matching} {fs below : List Frame} {n : Nat} {signature : String}
    {time : Int} {ended : List Invocation} (h : Sound m fs n)
    (hclose : close signature time fs = (ended, below)) : Sound m below n := by
  obtain ⟨closed, hsplit, _, _⟩ := close_split signature time fs
  rw [hclose] at hsplit
  rw [hsplit] at h
  exact h.of_append

theorem openEvents_close {fs below : List Frame} {signature : String} {time : Int}
    {ended : List Invocation} (hclose : Frame.close signature time fs = (ended, below)) :
    ∀ d ∈ openEvents below, d ∈ openEvents fs := by
  obtain ⟨closed, hsplit, _, _⟩ := close_split signature time fs
  rw [hclose] at hsplit
  intro d hd
  rw [hsplit, openEvents_append]
  exact List.mem_append_right _ hd

/-- What does not announce a new operation before calls are closed does not do so afterwards: a
marker that comes to light is too old. -/
theorem Sound.announcedBy_close {m : Matching} {fs below : List Frame} {n : Nat}
    {signature : String} {time : Int} {ended : List Invocation} {kind : OperationKind}
    {stamp : Stamp} {operation : OperationRef} (h : Sound m fs n)
    (hclose : Frame.close signature time fs = (ended, below))
    (hnew : ∀ d ∈ openEvents fs, d.orderIndex < stamp.orderIndex)
    (hnone : m.announcedBy? (openEvents fs) kind stamp operation = none) :
    m.announcedBy? (openEvents below) kind stamp operation = none := by
  obtain ⟨closed, hsplit, hcalled, _⟩ := close_split signature time fs
  rw [hclose] at hsplit
  cases closed with
  | nil => rwa [hsplit] at hnone
  | cons f closed =>
    obtain ⟨caller, call, rfl⟩ := hcalled f List.mem_cons_self
    have horder := h.order
    rw [hsplit] at horder hnew
    simp only [List.cons_append, openEvents_cons, events, List.nil_append] at horder hnew
    obtain ⟨holder, _⟩ := List.pairwise_cons.mp horder
    cases hhead : (openEvents below).head? with
    | none => simp [Matching.announcedBy?, hhead]
    | some d =>
      rw [Matching.announcedBy?, hhead]
      have hd : d ∈ openEvents (closed ++ below) := by
        rw [openEvents_append]
        exact List.mem_append_right _ (List.mem_of_head? hhead)
      have hlt := holder d hd
      have htop := hnew (call.marker caller) List.mem_cons_self
      cases hann : m.announces? d kind stamp operation with
      | none => exact hann
      | some how =>
        have hnext := (Matching.call_of_announces hann).1
        omega

/-- What a move leaves open was open already or is the new event. -/
theorem Moves.openEvents_subset {m : Matching} {e : Event} {fs gs : List Frame} {n k : Nat}
    {ended : List Invocation} (h : Moves m e fs n gs k ended) :
    ∀ d ∈ openEvents gs, d = e ∨ d ∈ openEvents fs := by
  intro d hd
  cases h with
  | call hclose =>
    rcases List.mem_cons.mp hd with rfl | hd
    · exact .inl rfl
    · exact .inr (openEvents_close hclose d hd)
  | announced _ =>
    rcases List.mem_cons.mp hd with rfl | hd
    · exact .inl rfl
    · exact .inr hd
  | unannounced _ hclose =>
    rcases List.mem_cons.mp hd with rfl | hd
    · exact .inl rfl
    · exact .inr (openEvents_close hclose d hd)
  | ended _ hclose =>
    refine .inr (openEvents_close hclose d ?_)
    rw [openEvents_cons]
    exact List.mem_append_right _ hd
  | ignored _ => exact .inr hd

theorem Moves.sound {m : Matching} {e : Event} {fs gs : List Frame} {n k : Nat}
    {ended : List Invocation} (h : Moves m e fs n gs k ended) (hs : Sound m fs n)
    (hnew : ∀ d ∈ openEvents fs, d.orderIndex < e.orderIndex) : Sound m gs k := by
  cases h with
  | call hclose =>
    exact (hs.close hclose).push rfl rfl trivial fun d hd =>
      hnew d (openEvents_close hclose d hd)
  | @announced kind stamp operation caller call below _ hann =>
    obtain ⟨hess, heoi, _, hbelow⟩ := hs.stacked
    have horder := hs.order
    exact ⟨⟨hess, heoi, hann, hbelow⟩, by simpa [slot] using hs.below,
      List.pairwise_cons.mpr ⟨hnew, horder⟩⟩
  | unannounced hnone hclose =>
    exact (hs.close hclose).push rfl rfl (hs.announcedBy_close hclose hnew hnone) fun d hd =>
      hnew d (openEvents_close hclose d hd)
  | ended _ hclose =>
    exact Sound.of_append (show Sound m ([_] ++ gs) n from hs.close hclose)
  | ignored _ => exact hs

end Frame

open Retrace.Frame

/-- Do the frames tell which invocations of a tracker are open? -/
structure Tracks (t : Tracker) (fs : List Frame) : Prop where
  openEvents : t.openEvents = openEvents fs
  slots : t.slots = slots fs
  sound : Sound t.matching fs t.nextEoi

namespace Tracker

theorem closeCalls_frames {t : Tracker} {fs : List Frame} {signature : String} {time : Int}
    (hevents : t.openEvents = Frame.openEvents fs) (hslots : t.slots = Frame.slots fs)
    (hok : (t.closeCalls signature time).fault = none) :
    t.closeCalls signature time =
      ⟨(t.recordedAll (close signature time fs).1).holding
        (Frame.openEvents (close signature time fs).2) (Frame.slots (close signature time fs).2)
        t.nextEoi, none⟩ := by
  unfold closeCalls at hok ⊢
  unfold close
  rw [hevents, hslots, callsDownTo_frames] at hok ⊢
  cases hclosing : closing? signature fs with
  | none =>
    simp only [recordedAll, List.foldl_nil, ← hevents, ← hslots]
    rfl
  | some found =>
    obtain ⟨calls, below⟩ := found
    rw [hclosing] at hok
    simp only at hok ⊢
    rw [(recordAll_eq_ok hok).1, ← recordedAll_holding]
    rfl

/-- What is noted of a guess is known from the open events. -/
theorem exists_guesses (es : List Event) (stamp : Stamp) (operation : OperationRef)
    (how : CallMatch) :
    ∃ guesses, ∀ t : Tracker, t.openEvents = es →
      t.noteGuess stamp operation how = { t with notices := t.notices ++ guesses } := by
  have hnone : ∀ t : Tracker, t = { t with notices := t.notices ++ [] } := fun t => by
    rw [List.append_nil]
  cases how with
  | exact => exact ⟨[], fun t _ => hnone t⟩
  | guessed =>
    cases hcallee : es.head?.bind Event.callee? with
    | some callee =>
      refine ⟨[.guessedCall stamp.traceId callee.signature operation.signature], ?_⟩
      rintro t rfl
      simp only [noteGuess, hcallee, note]
    | none =>
      refine ⟨[], ?_⟩
      rintro t rfl
      simp only [noteGuess, hcallee]
      exact hnone t

/-- Noting a guess changes nothing else. -/
theorem noteGuess_eq (t : Tracker) (stamp : Stamp) (operation : OperationRef) (how : CallMatch) :
    ∃ notices, t.noteGuess stamp operation how = { t with notices } := by
  obtain ⟨guesses, hnote⟩ := exists_guesses t.openEvents stamp operation how
  exact ⟨_, hnote t rfl⟩

/-- Records what ends in the innermost slot. -/
def recordInnermost (t : Tracker) (i : Slot → Invocation) : Step :=
  match t.slots with
  | [] => ⟨t, some .missingSlot⟩
  | slot :: left => record { t with slots := left } (i slot)

theorem closeInnermost_eq (t : Tracker) (kind : OperationKind) (stamp : Stamp)
    (operation : OperationRef) (time : Int) :
    ∃ notices, t.closeInnermost kind stamp operation time =
      recordInnermost
        { t with
          openEvents :=
            if (t.announced? kind stamp operation).isSome then t.openEvents.tail else t.openEvents
          notices }
        fun slot => ⟨kind, operation, slot, stamp.timestamp, time,
          !(t.openEvents.isEmpty || (t.announced? kind stamp operation).isSome)⟩ := by
  unfold closeInnermost
  cases t.announced? kind stamp operation with
  | none => exact ⟨t.notices, rfl⟩
  | some how =>
    obtain ⟨notices, hnote⟩ := noteGuess_eq t stamp operation how
    simp only [hnote]
    exact ⟨notices, rfl⟩

/-- An operation is announced only by a call on top of the frames. -/
theorem called_of_announced {m : Matching} {fs : List Frame} {kind : OperationKind}
    {stamp : Stamp} {operation : OperationRef} {how : CallMatch}
    (h : m.announcedBy? (Frame.openEvents fs) kind stamp operation = some how) :
    ∃ caller call below, fs = called caller call :: below ∧
      m.announces? (call.marker caller) kind stamp operation = some how := by
  obtain ⟨marker, hhead, hann⟩ := Option.bind_eq_some_iff.mp h
  cases fs with
  | nil => cases hhead
  | cons f below =>
    cases f with
    | called caller call =>
      cases hhead
      exact ⟨caller, call, below, rfl, hann⟩
    | begun kind' stamp' operation' slot marker? =>
      cases hhead
      cases hann

/-- Does the tracker arise when the frames of another one move with an event? Notices may be
added. -/
def Follows (t : Tracker) (e : Event) (fs : List Frame) (u : Tracker) : Prop :=
  ∃ gs n ended notices, Moves t.matching e fs t.nextEoi gs n ended ∧
    u = { (t.recordedAll ended).holding (Frame.openEvents gs) (Frame.slots gs) n with notices }

theorem step_call {t : Tracker} {fs : List Frame} {kind : OperationKind} {stamp : Stamp}
    {caller callee : OperationRef} (h : Tracks t fs)
    (hok : (t.step (.call kind stamp caller callee)).fault = none) :
    t.Follows (.call kind stamp caller callee) fs
      (t.step (.call kind stamp caller callee)).tracker := by
  simp only [step] at hok ⊢
  obtain ⟨hclosed, hstep⟩ := Step.andThen_of_fault hok
  have hcalls := closeCalls_frames h.openEvents h.slots hclosed
  cases hclose : close caller.signature stamp.timestamp fs with
  | mk ended below =>
    rw [hclose] at hcalls
    refine ⟨_, _, _, (t.recordedAll ended).notices, .call hclose, ?_⟩
    rw [hstep, hcalls]
    simp [pushOpen, holding, Frame.slots, Frame.events, OpenCall.marker, Frame.slot]

theorem step_before {t : Tracker} {fs : List Frame} {kind : OperationKind} {stamp : Stamp}
    {operation : OperationRef} (h : Tracks t fs)
    (hok : (t.step (.before kind stamp operation)).fault = none) :
    t.Follows (.before kind stamp operation) fs
      (t.step (.before kind stamp operation)).tracker := by
  simp only [step, enter] at hok ⊢
  have hannounced : t.announced? kind stamp operation =
      t.matching.announcedBy? (Frame.openEvents fs) kind stamp operation := by
    rw [← h.openEvents]; rfl
  cases hhow : t.matching.announcedBy? (Frame.openEvents fs) kind stamp operation with
  | some how =>
    obtain ⟨caller, call, below, rfl, hann⟩ := called_of_announced hhow
    obtain ⟨notices, hnote⟩ := noteGuess_eq t stamp operation how
    refine ⟨_, _, _, notices, .announced (by rw [hann]; rfl), ?_⟩
    rw [hannounced, hhow]
    simp only [hnote, h.openEvents]
    have hslots := h.slots
    simp only [recordedAll, List.foldl_nil, holding]
    simp [hslots, Frame.slots, Frame.events, Frame.slot]
  | none =>
    rw [hannounced, hhow] at hok ⊢
    simp only at hok ⊢
    obtain ⟨hclosed, hstep⟩ := Step.andThen_of_fault hok
    have hcalls := closeCalls_frames h.openEvents h.slots hclosed
    cases hclose : close operation.signature stamp.timestamp fs with
    | mk ended below =>
      rw [hclose] at hcalls
      refine ⟨_, _, _, (t.recordedAll ended).notices, .unannounced hhow hclose, ?_⟩
      rw [hstep, hcalls]
      simp [pushOpen, holding, Frame.slots, Frame.events, Frame.slot]

/-- The end of an operation finds out what its beginning did: whether a marker announced it. -/
theorem closeInnermost_frames {t : Tracker} {kind : OperationKind} {stamp : Stamp}
    {operation : OperationRef} {slot : Slot} {marker? : Option Event} {below : List Frame}
    {time : Int} (hevents : t.openEvents = marker?.toList ++ Frame.openEvents below)
    (hslots : t.slots = slot :: Frame.slots below)
    (hfits : (begun kind stamp operation slot marker?).Fits t.matching below)
    (hok : (t.closeInnermost kind stamp operation time).fault = none) :
    ∃ notices, (t.closeInnermost kind stamp operation time).tracker =
      { (t.recorded ((begun kind stamp operation slot marker?).endedAt time
          (!(marker?.isSome || below.isEmpty)))).holding
            (Frame.openEvents below) (Frame.slots below) t.nextEoi with notices } := by
  unfold closeInnermost at hok ⊢
  have hannounced : t.announced? kind stamp operation =
      t.matching.announcedBy? (marker?.toList ++ Frame.openEvents below) kind stamp operation := by
    rw [← hevents]; rfl
  cases marker? with
  | some marker =>
    obtain ⟨how, hhow⟩ := Option.isSome_iff_exists.mp hfits
    have hfound : t.announced? kind stamp operation = some how := by rw [hannounced]; exact hhow
    obtain ⟨notices, hnote⟩ := noteGuess_eq t stamp operation how
    simp only [hfound, hnote, hslots] at hok ⊢
    refine ⟨notices, ?_⟩
    rw [(record_eq_ok hok).1]
    simp only [hevents, Option.isSome_some, Bool.or_true, Bool.true_or, Bool.not_true]
    rfl
  | none =>
    have hfound : t.announced? kind stamp operation = none := by rw [hannounced]; exact hfits
    simp only [hfound, hslots] at hok ⊢
    refine ⟨t.notices, ?_⟩
    rw [(record_eq_ok hok).1]
    have hleft : t.openEvents = Frame.openEvents below := hevents
    have hempty : t.openEvents.isEmpty = below.isEmpty := by
      rw [hleft]; exact openEvents_isEmpty below
    simp only [hempty, Option.isSome_none, Bool.or_false, Bool.false_or, ← hleft]
    rfl

theorem endOperation_frames {t : Tracker} {fs : List Frame} {kind : OperationKind}
    {operation : OperationRef} {time : Int} (hevents : t.openEvents = Frame.openEvents fs)
    (hslots : t.slots = Frame.slots fs) (hstacked : Stacked t.matching fs)
    (hok : (t.endOperation kind time operation).fault = none) :
    ∃ stamp slot marker? below notices,
      fs = begun kind stamp operation slot marker? :: below ∧
      (t.endOperation kind time operation).tracker =
        { (t.recorded ((begun kind stamp operation slot marker?).endedAt time
            (!(marker?.isSome || below.isEmpty)))).holding
              (Frame.openEvents below) (Frame.slots below) t.nextEoi with notices } := by
  unfold endOperation at hok ⊢
  cases fs with
  | nil => rw [hevents] at hok; cases hok
  | cons f below =>
    cases f with
    | called caller call => rw [hevents] at hok; cases hok
    | begun openKind stamp opened slot marker? =>
      rw [hevents] at hok ⊢
      simp only [openEvents_cons, events, List.cons_append] at hok ⊢
      by_cases hkind : openKind = kind
      · subst hkind
        by_cases hop : opened = operation
        · subst hop
          simp only [ne_eq, not_true_eq_false, if_false] at hok ⊢
          obtain ⟨notices, hend⟩ := @closeInnermost_frames
            { t with openEvents := marker?.toList ++ Frame.openEvents below } _ _ _ slot marker?
            below time rfl hslots hstacked.2.2.1 hok
          exact ⟨stamp, slot, marker?, below, notices, rfl, hend⟩
        · simp only [ne_eq, not_true_eq_false, if_false, hop, not_false_eq_true, if_true] at hok
          cases hok
      · simp only [ne_eq, hkind, not_false_eq_true, if_true] at hok
        cases hok

theorem leave_follows {t : Tracker} {fs : List Frame} {e : Event} {kind : OperationKind}
    {stamp : Stamp} {operation : OperationRef} (h : Tracks t fs)
    (hend : e.ending? = some (kind, stamp, operation))
    (hok : (t.leave kind stamp.timestamp operation).fault = none) :
    t.Follows e fs (t.leave kind stamp.timestamp operation).tracker := by
  unfold leave at hok ⊢
  obtain ⟨hclosed, hstep⟩ := Step.andThen_of_fault hok
  have hcalls := closeCalls_frames h.openEvents h.slots hclosed
  cases hclose : close operation.signature stamp.timestamp fs with
  | mk ended below =>
    rw [hclose] at hcalls
    rw [hstep, hcalls] at hok ⊢
    have hstacked : Stacked (t.recordedAll ended).matching below := by
      rw [recordedAll_matching]; exact (h.sound.close hclose).stacked
    obtain ⟨begunAt, slot, marker?, rest, notices, rfl, hrest⟩ :=
      @endOperation_frames ((t.recordedAll ended).holding (Frame.openEvents below)
        (Frame.slots below) t.nextEoi) below kind operation stamp.timestamp rfl rfl hstacked hok
    refine ⟨rest, t.nextEoi, _, notices, .ended hend hclose, ?_⟩
    rw [hrest, recordedAll_append]
    rfl

theorem step_follows {t : Tracker} {fs : List Frame} {e : Event} (h : Tracks t fs)
    (hok : (t.step e).fault = none) : t.Follows e fs (t.step e).tracker := by
  have hidle : { t.holding (Frame.openEvents fs) (Frame.slots fs) t.nextEoi with
        notices := (t.step e).tracker.notices } =
      { t with notices := (t.step e).tracker.notices } := by
    rw [← h.openEvents, ← h.slots]; rfl
  cases e with
  | call kind stamp caller callee => exact step_call h hok
  | before kind stamp operation => exact step_before h hok
  | after kind stamp operation => exact leave_follows h rfl hok
  | afterFailed kind stamp operation cause => exact leave_follows h rfl hok
  | split stamp => exact ⟨fs, _, [], _, .ignored rfl, hidle.symm⟩
  | unknown name stamp => exact ⟨fs, _, [], _, .ignored rfl, hidle.symm⟩

end Tracker

/-- A tracker does what the moves of its frames say, as long as order indices grow. -/
theorem Tracks.step {t : Tracker} {fs : List Frame} {e : Event} (h : Tracks t fs)
    (hnew : ∀ d ∈ t.openEvents, d.orderIndex < e.orderIndex) (hok : (t.step e).fault = none) :
    ∃ gs n ended notices, Moves t.matching e fs t.nextEoi gs n ended ∧
      (t.step e).tracker =
        { (t.recordedAll ended).holding (Frame.openEvents gs) (Frame.slots gs) n with notices } ∧
      Tracks (t.step e).tracker gs := by
  obtain ⟨gs, n, ended, notices, hmoves, htracker⟩ := Tracker.step_follows h hok
  rw [h.openEvents] at hnew
  have hsound := hmoves.sound h.sound hnew
  refine ⟨gs, n, ended, notices, hmoves, htracker, ?_⟩
  rw [htracker]
  refine ⟨rfl, rfl, ?_⟩
  change Sound (t.recordedAll ended).matching gs n
  rw [Tracker.recordedAll_matching]
  exact hsound

end Retrace
