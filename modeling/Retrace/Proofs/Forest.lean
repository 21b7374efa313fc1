import Retrace.Proofs.Nesting
import Retrace.Proofs.Recording

/-! Forests. What runs in a program is a forest of invocations, and probes see part of it: an
observed operation reports its beginning, its end and its calls, another one is only known by the
call marker of its caller. What should be recorded is known from the forest alone: each invocation
once, by the order of beginnings, as deep as it lies, and messages that go down and up the forest.
-/

namespace Retrace

/-! ## What is recorded -/

/-- Invocations, inside each other and one after the other. -/
inductive Nest where
  | nil
  | call (invocation : Invocation) (inner rest : Nest)

namespace Nest

def size : Nest → Nat
  | nil => 0
  | call _ inner rest => inner.size + rest.size + 1

/-- The invocations in the order in which they begin. -/
def preorder : Nest → List Invocation
  | nil => []
  | call i inner rest => i :: (inner.preorder ++ rest.preorder)

/-- The invocations in the order in which they end. -/
def postorder : Nest → List Invocation
  | nil => []
  | call i inner rest => inner.postorder ++ i :: rest.postorder

/-- The messages that the executions of the invocations exchange with their callers. -/
def messages (execution : Invocation → Execution) : Execution → Nest → List Message
  | _, nil => []
  | caller, call i inner rest =>
    ⟨.call, i.entryTime, caller, execution i⟩ ::
      (messages execution (execution i) inner ++
        ⟨.reply, i.exitTime, execution i, caller⟩ :: messages execution caller rest)

/-- Are the invocations numbered from a place on as they begin, and as deep as they lie? -/
def Numbered : Nat → Nat → Nest → Prop
  | _, _, nil => True
  | eoi, depth, call i inner rest =>
    i.slot = ⟨eoi, depth⟩ ∧ Numbered (eoi + 1) (depth + 1) inner ∧
      Numbered (eoi + inner.size + 1) depth rest

open scoped List

theorem postorder_perm (nest : Nest) : nest.postorder ~ nest.preorder := by
  induction nest with
  | nil => exact List.Perm.refl _
  | call i inner rest ihInner ihRest =>
    exact List.perm_middle.trans ((ihInner.append ihRest).cons i)

theorem Numbered.places {nest : Nest} {eoi depth : Nat} (h : nest.Numbered eoi depth) :
    nest.preorder.map (·.slot.eoi) = List.range' eoi nest.size := by
  induction nest generalizing eoi depth with
  | nil => rfl
  | call i inner rest ihInner ihRest =>
    obtain ⟨hslot, hinner, hrest⟩ := h
    simp only [preorder, List.map_cons, List.map_append, ihInner hinner, ihRest hrest, hslot, size]
    rw [List.range'_succ, ← List.range'_append_1, Nat.add_right_comm]

/-- No invocation is less deep than the nest. -/
theorem Numbered.depth_le {nest : Nest} {eoi depth : Nat} (h : nest.Numbered eoi depth) :
    ∀ i ∈ nest.preorder.head?, i.slot.ess = depth := by
  cases nest with
  | nil => simp [preorder]
  | call i inner rest =>
    obtain ⟨hslot, _⟩ := h
    simp [preorder, hslot]

/-! ### Its messages -/

section Messages

variable {root : Execution}
open ExecutionTrace

/-- The innermost execution replies at once if nothing deeper comes next. -/
theorem exchange_reply {e : Execution} {below es : List Execution}
    (hnext : ∀ d ∈ es.head?, d.ess ≤ e.ess) :
    exchange root (e :: below) es =
      (exchange root below es).map (⟨.reply, e.exitTime, e, callerOf root below⟩ :: ·) := by
  cases es with
  | nil => rfl
  | cons d rest =>
    have hnot : ¬e.ess < d.ess := Int.not_lt.mpr (hnext d rfl)
    simp only [exchange, settle, if_neg hnot]
    split
    · cases exchange root (d :: (settle root d.ess below).2) rest <;> rfl
    · rfl

/-- An execution that is one deeper than the innermost one is called by it, and nothing replies
before. -/
theorem exchange_call {e caller : Execution} {openOnes rest : List Execution}
    (hcaller : callerOf root openOnes = caller) (hess : caller.ess + 1 = e.ess) :
    exchange root openOnes (e :: rest) =
      (exchange root (e :: openOnes) rest).map (⟨.call, e.entryTime, caller, e⟩ :: ·) := by
  have hsettle : settle root e.ess openOnes = ([], openOnes) := by
    cases openOnes with
    | nil => rfl
    | cons top below =>
      have htop : top.ess < e.ess := by
        rw [show top = caller from hcaller]
        omega
      simp only [settle, if_pos htop]
  have hfits : caller.ess = e.ess - 1 := by omega
  simp only [exchange, hsettle, hcaller, if_pos hfits, List.nil_append]

/-- The walk over the executions of a nest exchanges its messages and leaves the open ones open. -/
theorem Numbered.exchange {nest : Nest} {eoi depth : Nat} (h : nest.Numbered eoi depth)
    {execution : Invocation → Execution}
    (hexecution : ∀ i, (execution i).interval = i.interval) {caller : Execution}
    {openOnes es : List Execution} (hcaller : callerOf root openOnes = caller)
    (hess : caller.ess + 1 = depth) (hnext : ∀ e ∈ es.head?, e.ess ≤ depth) :
    ExecutionTrace.exchange root openOnes (nest.preorder.map execution ++ es) =
      (ExecutionTrace.exchange root openOnes es).map (nest.messages execution caller ++ ·) := by
  induction nest generalizing eoi depth caller openOnes es with
  | nil =>
    simp only [preorder, messages, List.map_nil, List.nil_append]
    cases ExecutionTrace.exchange root openOnes es <;> rfl
  | call i inner rest ihInner ihRest =>
    obtain ⟨hslot, hinner, hrest⟩ := h
    obtain ⟨_, hiess, hentry, hexit⟩ := Interval.mk.inj (hexecution i)
    have hdepth : (execution i).ess = depth := by rw [hiess, hslot]
    have hafter : ∀ e ∈ (rest.preorder.map execution ++ es).head?, e.ess ≤ depth := by
      intro e he
      rw [List.head?_append, List.head?_map] at he
      cases hhead : rest.preorder.head? with
      | none => exact hnext e (by simpa [hhead] using he)
      | some j =>
        obtain rfl : execution j = e := by simpa [hhead] using he
        have hj := hrest.depth_le j hhead
        obtain ⟨_, hjess, _⟩ := Interval.mk.inj (hexecution j)
        have hsame : (execution j).ess = depth := by rw [hjess, hj]
        exact Int.le_of_eq hsame
    have hcall := @exchange_call root (execution i) caller openOnes
      (inner.preorder.map execution ++ (rest.preorder.map execution ++ es)) hcaller (by omega)
    have hinside := @ihInner _ _ hinner (execution i) (execution i :: openOnes)
      (rest.preorder.map execution ++ es) rfl (by rw [hdepth]; rfl)
      (fun e he => Int.le_trans (hafter e he) (Int.ofNat_le.mpr (Nat.le_succ depth)))
    have hreply := @exchange_reply root (execution i) openOnes
      (rest.preorder.map execution ++ es) (fun e he => by rw [hdepth]; exact hafter e he)
    have houtside := ihRest hrest hcaller hess hnext
    rw [hcaller] at hreply
    simp only [preorder, messages, List.map_cons, List.map_append, List.cons_append,
      List.append_assoc, hcall, hinside, hreply, houtside, hentry, hexit]
    cases ExecutionTrace.exchange root openOnes es <;> rfl

end Messages

end Nest

/-! ## What runs -/

/-- The calls that an operation makes, one after the other. The index tells whether the operation is
observed. Only then do markers announce its calls, and can it call what is not observed. -/
inductive Course : Bool → Type where
  | done {k : Bool} : Course k
  | observed {k : Bool} (kind : OperationKind) (operation : OperationRef) (cause? : Option String)
      (inner : Course true) (rest : Course k) : Course k
  | unobserved (kind : OperationKind) (operation : OperationRef) (inner : Course false)
      (rest : Course true) : Course true

/-- The end of an operation, which has failed if there is a cause. -/
def Event.leaving (kind : OperationKind) (stamp : Stamp) (operation : OperationRef) :
    Option String → Event
  | none => .after kind stamp operation
  | some cause => .afterFailed kind stamp operation cause

namespace Course

def size : {k : Bool} → Course k → Nat
  | _, done => 0
  | _, observed _ _ _ inner rest => inner.size + rest.size + 1
  | _, unobserved _ _ inner rest => inner.size + rest.size + 1

/-- How many events there are. -/
def span : {k : Bool} → Course k → Nat
  | _, done => 0
  | k, observed _ _ _ inner rest => k.toNat + inner.span + rest.span + 2
  | _, unobserved _ _ inner rest => inner.span + rest.span + 1

/-- The events from a place on. The caller stands in the call markers. -/
def events (stamp : Nat → Stamp) : {k : Bool} → OperationRef → Nat → Course k → List Event
  | _, _, _, done => []
  | true, caller, place, observed kind operation cause? inner rest =>
    .call kind (stamp place) caller operation :: .before kind (stamp (place + 1)) operation ::
      (events stamp operation (place + 1 + 1) inner ++
        .leaving kind (stamp (place + 1 + 1 + inner.span)) operation cause? ::
          events stamp caller (place + 1 + inner.span + 2) rest)
  | false, caller, place, observed kind operation cause? inner rest =>
    .before kind (stamp place) operation ::
      (events stamp operation (place + 1) inner ++
        .leaving kind (stamp (place + 1 + inner.span)) operation cause? ::
          events stamp caller (place + inner.span + 2) rest)
  | _, caller, place, unobserved kind operation inner rest =>
    .call kind (stamp place) caller operation ::
      (events stamp operation (place + 1) inner ++
        events stamp caller (place + 1 + inner.span) rest)

/-- The invocations. What no marker announces is assumed, and so is what only its marker tells of:
it runs until its caller goes on. -/
def outline (stamp : Nat → Stamp) : {k : Bool} → Nat → Nat → Nat → Course k → Nest
  | _, _, _, _, done => .nil
  | k, place, eoi, depth, observed kind operation _ inner rest =>
    let start := place + k.toNat
    .call ⟨kind, operation, ⟨eoi, depth⟩, (stamp start).timestamp,
        (stamp (start + 1 + inner.span)).timestamp, !k⟩
      (outline stamp (start + 1) (eoi + 1) (depth + 1) inner)
      (outline stamp (start + inner.span + 2) (eoi + inner.size + 1) depth rest)
  | _, place, eoi, depth, unobserved kind operation inner rest =>
    .call ⟨kind, operation, ⟨eoi, depth⟩, (stamp place).timestamp,
        (stamp (place + 1 + inner.span)).timestamp, true⟩
      (outline stamp (place + 1) (eoi + 1) (depth + 1) inner)
      (outline stamp (place + 1 + inner.span) (eoi + inner.size + 1) depth rest)

/-- The operations that are called, without what they call. -/
def callees : {k : Bool} → Course k → List (OperationKind × OperationRef)
  | _, done => []
  | _, observed kind operation _ _ rest => (kind, operation) :: rest.callees
  | _, unobserved kind operation _ rest => (kind, operation) :: rest.callees

/-- Can what runs in unobserved operations be told from their callers and from themselves? Nothing
that they call has the signature of their caller, and their marker does not announce what begins
right after it. -/
def Clear (m : Matching) (stamp : Nat → Stamp) :
    {k : Bool} → OperationRef → Nat → Course k → Prop
  | _, _, _, done => True
  | k, caller, place, observed _ operation _ inner rest =>
    Clear m stamp operation (place + k.toNat + 1) inner ∧
      Clear m stamp caller (place + k.toNat + inner.span + 2) rest
  | _, caller, place, unobserved kind operation inner rest =>
    (∀ callee ∈ inner.callees, callee.2.signature ≠ caller.signature) ∧
      (∀ callee ∈ inner.callees.head?,
        m.announces? (.call kind (stamp place) caller operation) callee.1 (stamp (place + 1))
          callee.2 = none) ∧
      Clear m stamp operation (place + 1) inner ∧
      Clear m stamp caller (place + 1 + inner.span) rest

section Lemmas

variable {k : Bool} (c : Course k) (stamp : Nat → Stamp)

theorem outline_size (place eoi depth : Nat) :
    (c.outline stamp place eoi depth).size = c.size := by
  induction c generalizing place eoi depth with
  | done => rfl
  | observed kind operation cause? inner rest ihInner ihRest =>
    simp only [outline, Nest.size, size, ihInner, ihRest]
  | unobserved kind operation inner rest ihInner ihRest =>
    simp only [outline, Nest.size, size, ihInner, ihRest]

theorem outline_numbered (place eoi depth : Nat) :
    (c.outline stamp place eoi depth).Numbered eoi depth := by
  induction c generalizing place eoi depth with
  | done => trivial
  | observed kind operation cause? inner rest ihInner ihRest =>
    refine ⟨rfl, ihInner _ _ _, ?_⟩
    rw [outline_size]
    exact ihRest _ _ _
  | unobserved kind operation inner rest ihInner ihRest =>
    refine ⟨rfl, ihInner _ _ _, ?_⟩
    rw [outline_size]
    exact ihRest _ _ _

theorem events_length (caller : OperationRef) (place : Nat) :
    (c.events stamp caller place).length = c.span := by
  induction c generalizing caller place with
  | done => rfl
  | @observed k kind operation cause? inner rest ihInner ihRest =>
    cases k <;>
      · simp only [events, span, List.length_cons, List.length_append, ihInner, ihRest,
          Bool.toNat_true, Bool.toNat_false]
        omega
  | unobserved kind operation inner rest ihInner ihRest =>
    simp only [events, span, List.length_cons, List.length_append, ihInner, ihRest]

end Lemmas

end Course

/-- An observed operation that nothing observed calls. Something else may announce it. -/
structure Root where
  announcer? : Option OperationRef
  kind : OperationKind
  operation : OperationRef
  cause? : Option String
  inner : Course true

namespace Root

def span (r : Root) : Nat :=
  r.announcer?.isSome.toNat + r.inner.span + 2

def events (stamp : Nat → Stamp) (place : Nat) (r : Root) : List Event :=
  let start := place + r.announcer?.isSome.toNat
  (r.announcer?.map fun announcer => .call r.kind (stamp place) announcer r.operation).toList ++
    .before r.kind (stamp start) r.operation ::
      (r.inner.events stamp r.operation (start + 1) ++
        [.leaving r.kind (stamp (start + 1 + r.inner.span)) r.operation r.cause?])

def invocation (stamp : Nat → Stamp) (place eoi : Nat) (r : Root) : Invocation :=
  let start := place + r.announcer?.isSome.toNat
  ⟨r.kind, r.operation, ⟨eoi, 0⟩, (stamp start).timestamp,
    (stamp (start + 1 + r.inner.span)).timestamp, false⟩

theorem events_length (stamp : Nat → Stamp) (place : Nat) (r : Root) :
    (r.events stamp place).length = r.span := by
  obtain ⟨announcer?, kind, operation, cause?, inner⟩ := r
  cases announcer? with
  | none => simp [events, span, Course.events_length]
  | some announcer =>
    simp only [events, span, Course.events_length, Option.map_some, Option.toList_some,
      Option.isSome_some, Bool.toNat_true, List.length_append, List.length_cons, List.length_nil]
    omega

end Root

namespace Forest

/-- The events of the roots from a place on. -/
def events (stamp : Nat → Stamp) : Nat → List Root → List Event
  | _, [] => []
  | place, r :: rest => r.events stamp place ++ events stamp (place + r.span) rest

def outline (stamp : Nat → Stamp) : Nat → Nat → List Root → Nest
  | _, _, [] => .nil
  | place, eoi, r :: rest =>
    .call (r.invocation stamp place eoi)
      (r.inner.outline stamp (place + r.announcer?.isSome.toNat + 1) (eoi + 1) 1)
      (outline stamp (place + r.span) (eoi + r.inner.size + 1) rest)

/-- Can what runs in unobserved operations be told from their callers and from themselves? -/
def Clear (m : Matching) (stamp : Nat → Stamp) : Nat → List Root → Prop
  | _, [] => True
  | place, r :: rest =>
    r.inner.Clear m stamp r.operation (place + r.announcer?.isSome.toNat + 1) ∧
      Clear m stamp (place + r.span) rest

theorem outline_numbered (stamp : Nat → Stamp) (place eoi : Nat) (roots : List Root) :
    (outline stamp place eoi roots).Numbered eoi 0 := by
  induction roots generalizing place eoi with
  | nil => trivial
  | cons r rest ih =>
    refine ⟨rfl, r.inner.outline_numbered _ _ _ _, ?_⟩
    rw [Course.outline_size]
    exact ih _ _

end Forest

end Retrace
