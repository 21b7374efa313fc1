import Retrace.Proofs.Recording

/-! Frames. A tracker keeps its open events apart from their slots, and a beginning that was
announced has none of its own. Both lists are views of one stack of frames, one frame for each slot.
Going down the open events and their slots at once is going down the frames. -/

namespace Retrace

/-- An open invocation. -/
inductive Frame where
  /-- A call marker whose callee has not begun. -/
  | called (caller : OperationRef) (call : OpenCall)
  /-- An operation that has begun, and the call marker that announced it if one did. -/
  | begun (kind : OperationKind) (stamp : Stamp) (operation : OperationRef) (slot : Slot)
      (marker? : Option Event)
  deriving DecidableEq, Repr

/-- How the innermost of some open events announces an operation, if it does. -/
def Matching.announcedBy? (m : Matching) (events : List Event) (kind : OperationKind)
    (stamp : Stamp) (operation : OperationRef) : Option CallMatch :=
  events.head?.bind fun e => m.announces? e kind stamp operation

/-- The event that opened a call. -/
def OpenCall.marker (call : OpenCall) (caller : OperationRef) : Event :=
  .call call.kind call.stamp caller call.callee

namespace Frame
open scoped List

def slot : Frame → Slot
  | called _ call => call.slot
  | begun _ _ _ slot _ => slot

/-- The events of the frame that are open, innermost first. -/
def events : Frame → List Event
  | called caller call => [call.marker caller]
  | begun kind stamp operation _ marker? => .before kind stamp operation :: marker?.toList

/-- When the invocation began as far as is known: at its call until its beginning is seen. -/
def entryTime : Frame → Int
  | called _ call => call.stamp.timestamp
  | begun _ stamp _ _ _ => stamp.timestamp

/-- The invocation that the frame becomes when it ends. -/
def endedAt (time : Int) (assumed : Bool) (f : Frame) : Invocation :=
  match f with
  | called _ call => ⟨call.kind, call.callee, call.slot, call.stamp.timestamp, time, assumed⟩
  | begun kind stamp operation slot _ => ⟨kind, operation, slot, stamp.timestamp, time, assumed⟩

@[simp] theorem slot_endedAt (f : Frame) (time : Int) (assumed : Bool) :
    (f.endedAt time assumed).slot = f.slot := by
  cases f <;> rfl

@[simp] theorem exitTime_endedAt (f : Frame) (time : Int) (assumed : Bool) :
    (f.endedAt time assumed).exitTime = time := by
  cases f <;> rfl

def openEvents (fs : List Frame) : List Event :=
  fs.flatMap events

def slots (fs : List Frame) : List Slot :=
  fs.map slot

@[simp] theorem openEvents_cons (f : Frame) (fs : List Frame) :
    openEvents (f :: fs) = f.events ++ openEvents fs := rfl

@[simp] theorem openEvents_append (fs gs : List Frame) :
    openEvents (fs ++ gs) = openEvents fs ++ openEvents gs :=
  List.flatMap_append

@[simp] theorem slots_cons (f : Frame) (fs : List Frame) : slots (f :: fs) = f.slot :: slots fs :=
  rfl

theorem openEvents_isEmpty (fs : List Frame) : (openEvents fs).isEmpty = fs.isEmpty := by
  cases fs with
  | nil => rfl
  | cons f below => cases f <;> rfl

/-! ## Closing calls -/

/-- The calls on top down to the first one from an operation of the signature, oldest first, and the
frames below them. -/
def closing? (signature : String) : List Frame → Option (List OpenCall × List Frame)
  | called caller call :: below =>
    if caller.signature = signature then some ([call], below)
    else (closing? signature below).map fun (calls, rest) => (calls ++ [call], rest)
  | _ => none

/-- The invocations that are assumed to have ended when an operation of the signature goes on, and
the frames that are left. -/
def close (signature : String) (time : Int) (fs : List Frame) : List Invocation × List Frame :=
  match closing? signature fs with
  | some (calls, below) => (calls.map (·.assumedUntil time), below)
  | none => ([], fs)

theorem callsDownTo_frames (signature : String) (fs : List Frame) :
    callsDownTo signature (openEvents fs) (slots fs) =
      match closing? signature fs with
      | some (calls, below) => .found calls (openEvents below) (slots below)
      | none => .absent := by
  induction fs with
  | nil => rfl
  | cons f below ih =>
    cases f with
    | begun kind stamp operation slot marker? => rfl
    | called caller call =>
      simp only [openEvents_cons, slots_cons, events, slot, OpenCall.marker, List.cons_append,
        List.nil_append, callsDownTo, closing?]
      split
      · rfl
      · rw [ih]
        cases closing? signature below <;> rfl

/-- The closed frames are calls on top of those that are left, and are assumed to end at once,
oldest first. -/
theorem close_split (signature : String) (time : Int) (fs : List Frame) :
    ∃ closed, fs = closed ++ (close signature time fs).2 ∧
      (∀ f ∈ closed, ∃ caller call, f = called caller call) ∧
      (close signature time fs).1 = closed.reverse.map (endedAt time true) := by
  unfold close
  induction fs with
  | nil => exact ⟨[], rfl, by simp, rfl⟩
  | cons f below ih =>
    cases f with
    | begun kind stamp operation slot marker? => exact ⟨[], rfl, by simp, rfl⟩
    | called caller call =>
      simp only [closing?]
      split
      · rename_i hcalls
        split at hcalls
        · cases hcalls
          exact ⟨[called caller call], rfl, by simp, rfl⟩
        · obtain ⟨⟨calls, rest⟩, hrest, hpair⟩ := Option.map_eq_some_iff.mp hcalls
          cases hpair
          rw [hrest] at ih
          obtain ⟨closed, hsplit, hcalled, hended⟩ := ih
          refine ⟨called caller call :: closed, ?_, ?_, ?_⟩
          · rw [List.cons_append, ← hsplit]
          · intro f hf
            rcases List.mem_cons.mp hf with rfl | hf
            · exact ⟨caller, call, rfl⟩
            · exact hcalled f hf
          · simp only [List.map_append, List.reverse_cons, ← hended]
            rfl
      · exact ⟨[], rfl, by simp, rfl⟩

theorem close_suffix (signature : String) (time : Int) (fs : List Frame) :
    (close signature time fs).2 <:+ fs := by
  obtain ⟨closed, hsplit, _, _⟩ := close_split signature time fs
  exact ⟨closed, hsplit.symm⟩

/-- What is assumed to have ended takes its slots along. -/
theorem slots_close (signature : String) (time : Int) (fs : List Frame) :
    slots fs ~ (close signature time fs).1.map (·.slot) ++ slots (close signature time fs).2 := by
  obtain ⟨closed, hsplit, _, hended⟩ := close_split signature time fs
  have htaken : (close signature time fs).1.map (·.slot) = (slots closed).reverse := by
    rw [hended, List.map_map, slots, ← List.map_reverse]
    exact List.map_congr_left fun f _ => slot_endedAt f time true
  calc slots fs
    _ = slots closed ++ slots (close signature time fs).2 := by
      rw [slots, slots, slots, ← List.map_append, ← hsplit]
    _ ~ (slots closed).reverse ++ slots (close signature time fs).2 :=
      (List.reverse_perm _).symm.append_right _
    _ = (close signature time fs).1.map (·.slot) ++ slots (close signature time fs).2 := by
      rw [htaken]

end Frame

end Retrace
