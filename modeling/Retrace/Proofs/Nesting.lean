import Mathlib.Data.List.Chain
import Retrace.Message
import Retrace.Proofs.Arrival

/-! Nesting. While executions are turned into messages, the open ones always have the depths from
zero upwards without a hole. So an execution finds its caller if and only if it is at most one
deeper than the execution before it, and the messages are what one obtains by keeping a stack: a
call pushes its receiver, a reply pops its sender. -/

namespace Retrace.ExecutionTrace

/-- Are the open executions, innermost first, as deep as there are executions around them? -/
def Contiguous : List Execution → Prop
  | [] => True
  | e :: below => e.ess = below.length ∧ Contiguous below

theorem contiguous_nil : Contiguous [] := trivial

/-- Is every execution at a depth that has been reached, the first one at most at the given one and
each later one at most one deeper than the one before it? -/
def Nests : Int → List Execution → Prop
  | _, [] => True
  | depth, e :: rest => 0 ≤ e.ess ∧ e.ess ≤ depth ∧ Nests (e.ess + 1) rest

theorem nests_iff {depth : Int} {es : List Execution} :
    Nests depth es ↔ (∀ e ∈ es.head?, e.ess ≤ depth) ∧ (∀ e ∈ es, 0 ≤ e.ess) ∧
      es.IsChain fun d e => e.ess ≤ d.ess + 1 := by
  induction es generalizing depth with
  | nil => simp [Nests]
  | cons e rest ih =>
    simp only [Nests, ih, List.isChain_cons, List.head?_cons, Option.mem_def, Option.some.injEq,
      List.forall_mem_cons, forall_eq']
    constructor
    · rintro ⟨hpos, hdepth, hhead, hrest, hchain⟩
      exact ⟨hdepth, ⟨hpos, hrest⟩, hhead, hchain⟩
    · rintro ⟨hdepth, ⟨hpos, hrest⟩, hhead, hchain⟩
      exact ⟨hpos, hdepth, hhead, hrest, hchain⟩

section Stack

variable {root : Execution}

/-- The messages that lead from one stack of open executions, innermost first, to another one. -/
inductive Replays (root : Execution) :
    List Execution → List Message → List Execution → Prop where
  | done (stack : List Execution) : Replays root stack [] stack
  /-- The innermost execution calls one that is as deep as there are executions around it. -/
  | call {stack left : List Execution} {e : Execution} {later : List Message} :
      e.ess = stack.length → Replays root (e :: stack) later left →
      Replays root stack (⟨.call, e.entryTime, callerOf root stack, e⟩ :: later) left
  /-- The innermost execution replies to the one around it. -/
  | reply {below left : List Execution} {e : Execution} {later : List Message} :
      Replays root below later left →
      Replays root (e :: below) (⟨.reply, e.exitTime, e, callerOf root below⟩ :: later) left

theorem callerOf_ess (hroot : root.ess = -1) {openOnes : List Execution}
    (h : Contiguous openOnes) : (callerOf root openOnes).ess = openOnes.length - 1 := by
  cases openOnes with
  | nil => simpa [callerOf] using hroot
  | cons e below =>
    have he : e.ess = below.length := h.1
    simp [callerOf, he]

/-! ## Replies before a call -/

theorem settle_contiguous (root : Execution) (ess : Int) {openOnes : List Execution}
    (h : Contiguous openOnes) :
    Contiguous (settle root ess openOnes).2 ∧
      (settle root ess openOnes).2.length = min openOnes.length ess.toNat := by
  induction openOnes with
  | nil => simp [settle, Contiguous]
  | cons top below ih =>
    have htop : top.ess = below.length := h.1
    simp only [settle]
    split
    · refine ⟨h, ?_⟩
      simp only [List.length_cons]
      omega
    · refine ⟨(ih h.2).1, ?_⟩
      have hlen := (ih h.2).2
      simp only [List.length_cons] at hlen ⊢
      omega

theorem Replays.settle {ess : Int} {openOnes left : List Execution} {later : List Message}
    (h : Replays root (settle root ess openOnes).2 later left) :
    Replays root openOnes ((ExecutionTrace.settle root ess openOnes).1 ++ later) left := by
  induction openOnes with
  | nil => exact h
  | cons top below ih =>
    simp only [ExecutionTrace.settle] at h ⊢
    split
    · rename_i hlt
      simpa [hlt] using h
    · rename_i hge
      simp only [hge, if_false] at h
      exact .reply (ih h)

theorem replays_settleAll (openOnes : List Execution) :
    Replays root openOnes (settleAll root openOnes) [] := by
  induction openOnes with
  | nil => exact .done []
  | cons top below ih => exact .reply ih

/-! ## The walk -/

/-- The caller fits if and only if the execution is no deeper than there are open ones. -/
theorem caller_fits_iff (hroot : root.ess = -1) {openOnes : List Execution} {ess : Int}
    (h : Contiguous openOnes) :
    (callerOf root (settle root ess openOnes).2).ess = ess - 1 ↔
      0 ≤ ess ∧ ess ≤ openOnes.length := by
  obtain ⟨hleft, hlen⟩ := settle_contiguous root ess h
  rw [callerOf_ess hroot hleft, hlen]
  omega

/-- An execution that is called leaves the open ones without a hole. -/
theorem contiguous_called (root : Execution) {openOnes : List Execution} {e : Execution}
    (h : Contiguous openOnes) (hpos : 0 ≤ e.ess) (hle : e.ess ≤ openOnes.length) :
    Contiguous (e :: (settle root e.ess openOnes).2) ∧
      e.ess = (settle root e.ess openOnes).2.length := by
  obtain ⟨hleft, hlen⟩ := settle_contiguous root e.ess h
  have hess : e.ess = (settle root e.ess openOnes).2.length := by rw [hlen]; omega
  exact ⟨⟨hess, hleft⟩, hess⟩

theorem exchange_cons (hroot : root.ess = -1) {openOnes : List Execution} {e : Execution}
    {rest : List Execution} (h : Contiguous openOnes) (hpos : 0 ≤ e.ess)
    (hle : e.ess ≤ openOnes.length) :
    exchange root openOnes (e :: rest) =
      (exchange root (e :: (settle root e.ess openOnes).2) rest).map fun later =>
        (settle root e.ess openOnes).1 ++
          ⟨.call, e.entryTime, callerOf root (settle root e.ess openOnes).2, e⟩ :: later := by
  simp only [exchange]
  rw [if_pos ((caller_fits_iff hroot h).mpr ⟨hpos, hle⟩)]

/-- A call that is made has a caller of the right depth, and the messages after it. -/
theorem exchange_cons_ok {openOnes : List Execution} {e : Execution} {rest : List Execution}
    {ms : List Message} (hms : exchange root openOnes (e :: rest) = .ok ms) :
    (callerOf root (settle root e.ess openOnes).2).ess = e.ess - 1 ∧
      ∃ later, exchange root (e :: (settle root e.ess openOnes).2) rest = .ok later ∧
        ms = (settle root e.ess openOnes).1 ++
          ⟨.call, e.entryTime, callerOf root (settle root e.ess openOnes).2, e⟩ :: later := by
  simp only [exchange] at hms
  split at hms
  · rename_i hcaller
    cases hlater : exchange root (e :: (settle root e.ess openOnes).2) rest with
    | error why => rw [hlater] at hms; cases hms
    | ok later =>
      rw [hlater] at hms
      cases hms
      exact ⟨hcaller, later, rfl, rfl⟩
  · cases hms

theorem exchange_isOk_iff (hroot : root.ess = -1) {openOnes es : List Execution}
    (h : Contiguous openOnes) :
    (∃ ms, exchange root openOnes es = .ok ms) ↔ Nests openOnes.length es := by
  induction es generalizing openOnes with
  | nil => simp [exchange, Nests]
  | cons e rest ih =>
    by_cases hfits : 0 ≤ e.ess ∧ e.ess ≤ openOnes.length
    · obtain ⟨hpos, hle⟩ := hfits
      obtain ⟨hstack, hess⟩ := contiguous_called root h hpos hle
      have hdepth : ((e :: (settle root e.ess openOnes).2).length : Int) = e.ess + 1 := by
        simp only [List.length_cons]; omega
      have hnext := ih hstack
      rw [hdepth] at hnext
      rw [exchange_cons hroot h hpos hle]
      simp only [Nests, hpos, hle, true_and, ← hnext]
      cases exchange root (e :: (settle root e.ess openOnes).2) rest with
      | ok later => simp [Except.map]
      | error why => simp [Except.map]
    · have hcaller := mt (caller_fits_iff hroot h).mp hfits
      simp only [exchange, if_neg hcaller, Nests]
      constructor
      · rintro ⟨ms, hms⟩; cases hms
      · rintro ⟨hpos, hle, _⟩; exact absurd ⟨hpos, hle⟩ hfits

theorem exchange_replays (hroot : root.ess = -1) {openOnes es : List Execution}
    {ms : List Message} (h : Contiguous openOnes) (hms : exchange root openOnes es = .ok ms) :
    Replays root openOnes ms [] := by
  induction es generalizing openOnes ms with
  | nil =>
    cases hms
    exact replays_settleAll openOnes
  | cons e rest ih =>
    obtain ⟨hcaller, later, hlater, rfl⟩ := exchange_cons_ok hms
    obtain ⟨hpos, hle⟩ := (caller_fits_iff hroot h).mp hcaller
    obtain ⟨hstack, hess⟩ := contiguous_called root h hpos hle
    exact Replays.settle (.call hess (ih hstack hlater))

/-! ## One call and one reply for each execution -/

/-- The executions that are called, in the order of the calls. -/
def callees (ms : List Message) : List Execution :=
  (ms.filter (·.isCall)).map (·.receiver)

/-- The calls to an execution. -/
def callsTo (e : Execution) (ms : List Message) : List Message :=
  ms.filter fun m => m.isCall ∧ m.receiver = e

/-- The replies of an execution. -/
def repliesOf (e : Execution) (ms : List Message) : List Message :=
  ms.filter fun m => ¬m.isCall ∧ m.sender = e

theorem callees_settle (root : Execution) (ess : Int) (openOnes : List Execution)
    (later : List Message) : callees ((settle root ess openOnes).1 ++ later) = callees later := by
  induction openOnes with
  | nil => rfl
  | cons top below ih =>
    simp only [settle]
    split
    · rfl
    · exact ih

theorem callees_settleAll (root : Execution) (openOnes : List Execution) :
    callees (settleAll root openOnes) = [] := by
  induction openOnes with
  | nil => rfl
  | cons top below ih => exact ih

theorem callees_exchange {openOnes es : List Execution} {ms : List Message}
    (hms : exchange root openOnes es = .ok ms) : callees ms = es := by
  induction es generalizing openOnes ms with
  | nil =>
    cases hms
    exact callees_settleAll root openOnes
  | cons e rest ih =>
    obtain ⟨_, later, hlater, rfl⟩ := exchange_cons_ok hms
    rw [callees_settle]
    exact congrArg (e :: ·) (ih hlater)

/-- Each reply takes off the stack what a call put there or what was there before. -/
theorem Replays.length {stack left : List Execution} {ms : List Message}
    (h : Replays root stack ms left) :
    ms.length + left.length = 2 * (callees ms).length + stack.length := by
  induction h with
  | done stack => simp [callees]
  | call _ _ ih =>
    simp only [callees, List.filter_cons, Message.isCall, beq_self_eq_true, if_true, List.map_cons,
      List.length_cons] at ih ⊢
    omega
  | @reply below left e later _ ih =>
    have hcallees : callees (⟨.reply, e.exitTime, e, callerOf root below⟩ :: later) =
        callees later := rfl
    rw [hcallees]
    simp only [List.length_cons]
    omega

theorem callsTo_eq_nil {e : Execution} {ms : List Message} (he : e ∉ callees ms) :
    callsTo e ms = [] := by
  refine List.filter_eq_nil_iff.mpr ?_
  intro m hm hto
  obtain ⟨hcall, rfl⟩ := of_decide_eq_true hto
  exact he (List.mem_map.mpr ⟨m, List.mem_filter.mpr ⟨hm, hcall⟩, rfl⟩)

/-- An execution that is neither open nor called does not reply. -/
theorem Replays.repliesOf_eq_nil {stack left : List Execution} {ms : List Message}
    (h : Replays root stack ms left) {e : Execution} (hstack : e ∉ stack)
    (hms : e ∉ callees ms) : repliesOf e ms = [] := by
  induction h with
  | done stack => rfl
  | @call stack left d later _ _ ih =>
    have hcalled : e ∉ d :: callees later := hms
    have hpush : e ∉ d :: stack :=
      List.not_mem_cons_of_ne_of_not_mem (List.ne_of_not_mem_cons hcalled) hstack
    have hquiet := ih hpush (List.not_mem_of_not_mem_cons hcalled)
    simpa [repliesOf, Message.isCall] using hquiet
  | @reply below left d later _ ih =>
    have hne := List.ne_of_not_mem_cons hstack
    have hquiet := ih (List.not_mem_of_not_mem_cons hstack) hms
    simpa [repliesOf, Message.isCall, Ne.symm hne] using hquiet

/-- An open execution replies once, to the one around it. -/
theorem Replays.repliesOf_open {stack : List Execution} {ms : List Message}
    (h : Replays root stack ms []) {above below : List Execution} {e : Execution}
    (hsplit : stack = above ++ e :: below) (hnodup : (stack ++ callees ms).Nodup) :
    repliesOf e ms = [⟨.reply, e.exitTime, e, callerOf root below⟩] := by
  generalize hleft : ([] : List Execution) = left at h
  induction h generalizing above with
  | done stack =>
    subst hsplit
    simp at hleft
  | @call stack left d later hess hrest ih =>
    have hpush : (d :: stack ++ callees later).Nodup :=
      List.perm_middle.nodup_iff.mp (show (stack ++ d :: callees later).Nodup from hnodup)
    have hsplit' : d :: stack = (d :: above) ++ e :: below := by rw [hsplit]; rfl
    simpa [repliesOf, Message.isCall] using ih hsplit' hpush hleft
  | @reply below' left d later hrest ih =>
    have hlater : (d :: (below' ++ callees later)).Nodup := hnodup
    obtain ⟨hd, htail⟩ := List.nodup_cons.mp hlater
    have hdbelow : d ∉ below' := fun hm => hd (List.mem_append_left _ hm)
    have hdlater : d ∉ callees later := fun hm => hd (List.mem_append_right _ hm)
    cases above with
    | nil =>
      obtain ⟨rfl, rfl⟩ := List.cons.inj hsplit
      have hquiet := hrest.repliesOf_eq_nil hdbelow hdlater
      simpa [repliesOf, Message.isCall] using hquiet
    | cons a above =>
      obtain ⟨rfl, rfl⟩ := List.cons.inj hsplit
      have hne : e ≠ d := by
        intro he
        subst he
        exact hdbelow (by simp)
      simpa [repliesOf, Message.isCall, Ne.symm hne] using ih rfl htail hleft

/-- A called execution is called once and replies once, to its caller. -/
theorem Replays.once {stack : List Execution} {ms : List Message} (h : Replays root stack ms [])
    (hnodup : (stack ++ callees ms).Nodup) {e : Execution} (he : e ∈ callees ms) :
    ∃ caller, callsTo e ms = [⟨.call, e.entryTime, caller, e⟩] ∧
      repliesOf e ms = [⟨.reply, e.exitTime, e, caller⟩] := by
  generalize hleft : ([] : List Execution) = left at h
  induction h with
  | done stack => cases he
  | @call stack left d later hess hrest ih =>
    subst hleft
    have hpush : (d :: stack ++ callees later).Nodup :=
      List.perm_middle.nodup_iff.mp (show (stack ++ d :: callees later).Nodup from hnodup)
    obtain ⟨hd, _⟩ := List.nodup_cons.mp (show (d :: (stack ++ callees later)).Nodup from hpush)
    have hdlater : d ∉ callees later := fun hm => hd (List.mem_append_right _ hm)
    rcases List.mem_cons.mp (show e ∈ d :: callees later from he) with rfl | hlater
    · have hcalls := callsTo_eq_nil hdlater
      have hsplit : e :: stack = [] ++ e :: stack := rfl
      have hreply := hrest.repliesOf_open hsplit hpush
      exact ⟨callerOf root stack, by simpa [callsTo, Message.isCall] using hcalls,
        by simpa [repliesOf, Message.isCall] using hreply⟩
    · obtain ⟨caller, hcalls, hreply⟩ := ih hpush hlater rfl
      have hne : d ≠ e := by
        intro hde
        subst hde
        exact hdlater hlater
      exact ⟨caller, by simpa [callsTo, Message.isCall, hne] using hcalls,
        by simpa [repliesOf, Message.isCall] using hreply⟩
  | @reply below left d later hrest ih =>
    have hlater : (d :: (below ++ callees later)).Nodup := hnodup
    obtain ⟨hd, htail⟩ := List.nodup_cons.mp hlater
    obtain ⟨caller, hcalls, hreply⟩ := ih htail he hleft
    have hne : d ≠ e := by
      intro hde
      subst hde
      exact hd (List.mem_append_right _ he)
    exact ⟨caller, by simpa [callsTo, Message.isCall] using hcalls,
      by simpa [repliesOf, Message.isCall, hne] using hreply⟩

end Stack

end Retrace.ExecutionTrace
