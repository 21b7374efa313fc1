import Retrace.Proofs.Nesting

/-! Conversion of executions to messages. Every trace built by `add` is converted exactly if its
executions nest, in words of 32 bits as well as in integers, and the messages then call every
execution once, in the order of the executions, and let it reply once to its caller. -/

namespace Retrace.ExecutionTrace

/-! ## Arithmetic in words -/

/-- The difference, if it is a signed word of 32 bits. -/
def subWord? (a b : Int) : Option Int :=
  if FitsWord (a - b) then some (a - b) else none

/-- `exchange` in words. The depth of a caller is computed only if an execution is open, and there
is no answer at all if that overflows. -/
def exchangeInWords (root : Execution) (openOnes : List Execution) :
    List Execution → Option (Except NestingFault (List Message))
  | [] => some (.ok (settleAll root openOnes))
  | e :: rest =>
    let (replies, left) := settle root e.ess openOnes
    match left with
    | [] =>
      if e.ess = 0 then
        (exchangeInWords root [e] rest).map (·.map fun later =>
          replies ++ ⟨.call, e.entryTime, root, e⟩ :: later)
      else some (.error ⟨e, root.ess⟩)
    | caller :: below =>
      match subWord? e.ess 1 with
      | none => none
      | some depth =>
        if caller.ess = depth then
          (exchangeInWords root (e :: caller :: below) rest).map (·.map fun later =>
            replies ++ ⟨.call, e.entryTime, caller, e⟩ :: later)
        else some (.error ⟨e, caller.ess⟩)

def toMessagesInWords (t : ExecutionTrace) : Option (Except NestingFault MessageTrace) :=
  (exchangeInWords (Execution.root t.traceId t.sessionId) [] t.executions).map
    (·.map fun messages => ⟨t.traceId, t.sessionId, messages⟩)

/-- What is left open is open already, and less deep. -/
theorem mem_of_settle (root : Execution) (ess : Int) (openOnes : List Execution) :
    (∀ e ∈ (settle root ess openOnes).2, e ∈ openOnes) ∧
      ∀ caller ∈ (settle root ess openOnes).2.head?, caller.ess < ess := by
  induction openOnes with
  | nil => simp [settle]
  | cons top below ih =>
    simp only [settle]
    split
    · rename_i hlt
      exact ⟨fun e he => he, by simpa using hlt⟩
    · exact ⟨fun e he => List.mem_cons_of_mem _ (ih.1 e he), ih.2⟩

/-- Under an open execution the depth of a caller is never out of range. -/
theorem exchangeInWords_eq {root : Execution} (hroot : root.ess = -1)
    {openOnes es : List Execution} (hopen : ∀ e ∈ openOnes, FitsWord e.ess)
    (hes : ∀ e ∈ es, FitsWord e.ess) :
    exchangeInWords root openOnes es = some (exchange root openOnes es) := by
  induction es generalizing openOnes with
  | nil => rfl
  | cons e rest ih =>
    have he := hes e List.mem_cons_self
    have hrest : ∀ d ∈ rest, FitsWord d.ess := fun d hd => hes d (List.mem_cons_of_mem e hd)
    obtain ⟨hsub, hlt⟩ := mem_of_settle root e.ess openOnes
    simp only [exchangeInWords, exchange]
    generalize settle root e.ess openOnes = settled at hsub hlt ⊢
    obtain ⟨replies, left⟩ := settled
    cases left with
    | nil =>
      have hcond : e.ess = 0 ↔ root.ess = e.ess - 1 := by omega
      have hstack : ∀ d ∈ [e], FitsWord d.ess := by simpa using he
      simp only [callerOf, List.head?_nil, Option.getD_none, hcond, ih hstack hrest,
        Option.map_some]
      exact (apply_ite some _ _ _).symm
    | cons caller below =>
      have hcaller : FitsWord caller.ess := hopen caller (hsub caller List.mem_cons_self)
      have hless : caller.ess < e.ess := hlt caller rfl
      have hfits : FitsWord (e.ess - 1) := by
        unfold FitsWord at he hcaller ⊢
        omega
      have hstack : ∀ d ∈ e :: caller :: below, FitsWord d.ess := by
        intro d hd
        rcases List.mem_cons.mp hd with rfl | hd
        · exact he
        · exact hopen d (hsub d hd)
      simp only [subWord?, if_pos hfits, callerOf, List.head?_cons, Option.getD_some,
        ih hstack hrest, Option.map_some]
      exact (apply_ite some _ _ _).symm

/-! ## The conversion as a whole -/

theorem root_ess (traceId : Int) (sessionId : String) :
    (Execution.root traceId sessionId).ess = -1 := rfl

theorem toMessages_eq_ok_iff {t : ExecutionTrace} {mt : MessageTrace} :
    t.toMessages = .ok mt ↔
      mt.traceId = t.traceId ∧ mt.sessionId = t.sessionId ∧
        exchange (Execution.root t.traceId t.sessionId) [] t.executions = .ok mt.messages := by
  obtain ⟨traceId, sessionId, ms⟩ := mt
  unfold toMessages
  cases exchange (Execution.root t.traceId t.sessionId) [] t.executions with
  | error why => simp [Except.map]
  | ok messages =>
    simp only [Except.map, Except.ok.injEq, MessageTrace.mk.injEq]
    constructor
    · rintro ⟨rfl, rfl, rfl⟩; exact ⟨rfl, rfl, rfl⟩
    · rintro ⟨rfl, rfl, rfl⟩; exact ⟨rfl, rfl, rfl⟩

theorem toMessagesInWords_eq {t : ExecutionTrace} (h : ∀ e ∈ t.executions, FitsWord e.ess) :
    t.toMessagesInWords = some t.toMessages := by
  have hopen : ∀ e ∈ ([] : List Execution), FitsWord e.ess := by simp
  have hwalk := exchangeInWords_eq (root_ess t.traceId t.sessionId) hopen h
  simp [toMessagesInWords, toMessages, hwalk]

/-- The depths of the executions decide whether there are messages. -/
theorem exists_toMessages_iff {t : ExecutionTrace} :
    (∃ mt, t.toMessages = .ok mt) ↔
      (∀ e ∈ t.executions.head?, e.ess = 0) ∧ (∀ e ∈ t.executions, 0 ≤ e.ess) ∧
        t.executions.IsChain fun d e => e.ess ≤ d.ess + 1 := by
  have hwalk := @exchange_isOk_iff _ (root_ess t.traceId t.sessionId) [] t.executions contiguous_nil
  have hok : (∃ mt, t.toMessages = .ok mt) ↔
      ∃ ms, exchange (Execution.root t.traceId t.sessionId) [] t.executions = .ok ms := by
    constructor
    · rintro ⟨mt, hmt⟩
      exact ⟨mt.messages, (toMessages_eq_ok_iff.mp hmt).2.2⟩
    · rintro ⟨ms, hms⟩
      exact ⟨⟨t.traceId, t.sessionId, ms⟩, toMessages_eq_ok_iff.mpr ⟨rfl, rfl, hms⟩⟩
  rw [hok, hwalk, nests_iff]
  constructor
  · rintro ⟨hhead, hpos, hchain⟩
    refine ⟨?_, hpos, hchain⟩
    intro e he
    have hle : e.ess ≤ 0 := hhead e he
    have hge := hpos e (List.mem_of_head? he)
    omega
  · rintro ⟨hhead, hpos, hchain⟩
    exact ⟨fun e he => Int.le_of_eq (hhead e he), hpos, hchain⟩

theorem Ascending.nodup {es : List Execution} (h : Ascending es) : es.Nodup :=
  h.imp fun hlt heq => by rw [heq] at hlt; exact Int.lt_irrefl _ hlt

/-- Every execution of a converted trace is called once, replies once, and does so to its
caller. -/
theorem toMessages_once {t : ExecutionTrace} {mt : MessageTrace} (hasc : Ascending t.executions)
    (h : t.toMessages = .ok mt) {e : Execution} (he : e ∈ t.executions) :
    ∃ caller, callsTo e mt.messages = [⟨.call, e.entryTime, caller, e⟩] ∧
      repliesOf e mt.messages = [⟨.reply, e.exitTime, e, caller⟩] := by
  have hwalk := (toMessages_eq_ok_iff.mp h).2.2
  have hcallees := callees_exchange hwalk
  have hreplays := exchange_replays (root_ess t.traceId t.sessionId) contiguous_nil hwalk
  refine hreplays.once ?_ (hcallees ▸ he)
  rw [hcallees]
  exact hasc.nodup

/-- A trace built by `add` is ascending, so its walk reads the executions by `eoi`. No computation
of a depth overflows. There are messages if and only if the first execution is a root, no depth is
negative and none grows by more than one, and then they replay on a stack: each call comes from its
top, to an execution that is as deep as the stack is high, each reply pops the top and goes to the
one below, and nothing is left. -/
theorem conversion_exact {t : ExecutionTrace} (h : t.Built) :
    Ascending t.executions ∧ t.toMessagesInWords = some t.toMessages ∧
      ((∃ mt, t.toMessages = .ok mt) ↔
        (∀ e ∈ t.executions.head?, e.ess = 0) ∧ (∀ e ∈ t.executions, 0 ≤ e.ess) ∧
          t.executions.IsChain fun d e => e.ess ≤ d.ess + 1) ∧
      ∀ mt, t.toMessages = .ok mt →
        mt.traceId = t.traceId ∧ mt.sessionId = t.sessionId ∧
        Replays (Execution.root t.traceId t.sessionId) [] mt.messages [] ∧
        callees mt.messages = t.executions ∧ mt.messages.length = 2 * t.size ∧
        ∀ e ∈ t.executions, ∃ caller,
          callsTo e mt.messages = [⟨.call, e.entryTime, caller, e⟩] ∧
          repliesOf e mt.messages = [⟨.reply, e.exitTime, e, caller⟩] := by
  refine ⟨h.ascending, toMessagesInWords_eq h.fitsWord, exists_toMessages_iff, ?_⟩
  intro mt hmt
  obtain ⟨hid, hsession, hwalk⟩ := toMessages_eq_ok_iff.mp hmt
  have hcallees := callees_exchange hwalk
  have hreplays := exchange_replays (root_ess t.traceId t.sessionId) contiguous_nil hwalk
  have hlength := hreplays.length
  rw [hcallees] at hlength
  refine ⟨hid, hsession, hreplays, hcallees, ?_, fun e he => toMessages_once h.ascending hmt he⟩
  simpa [size] using hlength

/-- An execution at a place and a depth, from one time to another one. -/
def sampleExecution (eoi ess entryTime exitTime : Int) : Execution :=
  { Execution.root 7 "s" with eoi, ess, entryTime, exitTime }

/-- Two roots with holes around them, the first one with an execution inside. -/
def sampleTrace : ExecutionTrace :=
  ⟨7, "s", [sampleExecution 3 0 1 6, sampleExecution 7 1 2 4, sampleExecution 9 0 8 8]⟩

theorem sampleTrace_built : sampleTrace.Built := by
  have inner : Built ⟨7, "s", [sampleExecution 7 1 2 4]⟩ :=
    .add (e := sampleExecution 7 1 2 4) (.empty 7 "s") (by decide) (by decide) rfl
  have outer : Built ⟨7, "s", [sampleExecution 3 0 1 6, sampleExecution 7 1 2 4]⟩ :=
    .add (e := sampleExecution 3 0 1 6) inner (by decide) (by decide) rfl
  exact .add (e := sampleExecution 9 0 8 8) outer (by decide) (by decide) rfl

theorem sampleTrace_converted :
    sampleTrace.Built ∧ ∃ mt, sampleTrace.toMessages = .ok mt ∧
      callees mt.messages = sampleTrace.executions ∧ mt.messages.length = 2 * 3 := by
  obtain ⟨_, _, hok, hmessages⟩ := conversion_exact sampleTrace_built
  obtain ⟨mt, hmt⟩ := hok.mpr ⟨by decide, by decide, by decide⟩
  obtain ⟨_, _, _, hcallees, hlength, _⟩ := hmessages mt hmt
  exact ⟨sampleTrace_built, mt, hmt, hcallees, hlength⟩

end Retrace.ExecutionTrace
