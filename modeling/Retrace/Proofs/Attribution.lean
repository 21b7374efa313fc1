import Retrace.Proofs.Identity
import Retrace.Proofs.Origins

/-! Attribution. What an execution is attributed to is what a request for the operation that its
event opened gets from the model at the end. So it is the host and the class that the event names if
no request was written like another one, and that of an earlier request if one was. -/

namespace Retrace

/-- Are operations of the kind read as constructors? -/
def Matching.readsConstructor (m : Matching) (kind : OperationKind) : Bool :=
  kind = .constructor ∧ m.normaliseConstructors

namespace OperationRef

/-- The class that the probe named, or the one that is read off the signature if it named none. -/
def context (operation : OperationRef) (isConstructor : Bool) : String :=
  if operation.owner.isEmpty then
    (QualifiedSignature.parse operation.signature isConstructor).owner
  else operation.owner

/-- What is asked for when an invocation of the operation is recorded. -/
def request (operation : OperationRef) (kind : OperationKind) (trace : TraceInfo) (m : Matching) :
    Request :=
  ⟨trace.hostname, operation.context (m.readsConstructor kind),
    .parse operation.signature (m.readsConstructor kind)⟩

end OperationRef

section Executions

variable {settings : Settings} {selection : Selection} {model : Model} {batch : Batch}
  {executions : ExecutionTrace}

/-- What each of some invocations keeps when it is recorded, the model keeps. -/
theorem recordedAll_model_keeps {P : Model → Prop} {t : Tracker} {is : List Invocation}
    (h : ∀ m, ∀ i ∈ is, P m → P (i.execution t.trace t.matching m).2) (ht : P t.model) :
    P (t.recordedAll is).model := by
  induction is generalizing t with
  | nil => exact ht
  | cons i rest ih =>
    exact @ih (t.recorded i) (fun m j hj => h m j (List.mem_cons_of_mem i hj))
      (h t.model i List.mem_cons_self ht)

/-- What each request for an operation that the events open keeps holds of the model at the end, and
each execution has what such a request gets. -/
theorem executions_requested {P : Model → Prop}
    (hexecutions : (reconstruct settings selection model batch).outcome.executions? =
      some executions)
    (hkeeps : ∀ m, ∀ e ∈ batch.events, ∀ kind operation, e.opens? = some (kind, operation) → P m →
      let r := operation.request kind batch.trace settings.matching
      P (m.resolve r.host r.context r.operation).2)
    (hmodel : P model) :
    let last := (reconstruct settings selection model batch).model
    P last ∧ ∀ x ∈ executions.executions, ∃ e ∈ batch.events, x.entryTime = e.timestamp ∧
      ∃ kind operation, e.opens? = some (kind, operation) ∧
        let r := operation.request kind batch.trace settings.matching
        x.allocation = (last.resolve r.host r.context r.operation).1.allocation ∧
          x.operation = (last.resolve r.host r.context r.operation).1.operation := by
  intro last
  obtain ⟨ended, hbegun, hlast, hmem⟩ := reconstruct_invocations hexecutions
  constructor
  · simp only [last, hlast]
    refine recordedAll_model_keeps (fun m i hi hm => ?_) hmodel
    obtain ⟨e, he, hopens, _⟩ := hbegun i hi
    exact hkeeps m e he i.kind i.operation hopens hm
  · intro x hx
    obtain ⟨i, hi, rfl⟩ := (hmem x).mp hx
    obtain ⟨e, he, hopens, htime⟩ := hbegun i hi
    exact ⟨e, he, htime, i.kind, i.operation, hopens, rfl, rfl⟩

/-- If hosts are plain, an execution is attributed to the host of its trace and to the context of
the operation that its event opened. -/
theorem executions_at_place (hm : model.Reachable) (hplain : model.PlainHosts)
    (hhost : PlainHost batch.trace.hostname)
    (hexecutions : (reconstruct settings selection model batch).outcome.executions? =
      some executions) :
    ∀ x ∈ executions.executions, x.host = batch.trace.hostname ∧
      ∃ e ∈ batch.events, x.entryTime = e.timestamp ∧ ∃ kind operation,
        e.opens? = some (kind, operation) ∧
        x.component = operation.context (settings.matching.readsConstructor kind) := by
  obtain ⟨⟨hlast, hlastPlain⟩, hasked⟩ := executions_requested
    (P := fun m => m.Reachable ∧ m.PlainHosts) hexecutions
    (fun m _ _ _ _ _ ⟨hm, hplain⟩ => ⟨.resolve _ _ _ hm, hplain.resolve hhost _ _⟩) ⟨hm, hplain⟩
  intro x hx
  obtain ⟨e, he, htime, kind, operation, hopens, hallocation, _⟩ := hasked x hx
  have hplace : x.allocation.place = (batch.trace.hostname,
      operation.context (settings.matching.readsConstructor kind)) := by
    rw [hallocation]
    exact hlastPlain.resolve_place hlast hhost _ _
  obtain ⟨hhome, hcontext⟩ := Prod.mk.inj hplace
  exact ⟨hhome, e, he, htime, kind, operation, hopens, hcontext⟩

/-- If operations are legible, an execution is attributed to one that resembles what is read off what
its event opened, and that is the same if all operations are read in one way. -/
theorem executions_of_operation {ways : Bool → Prop} (hm : model.Reachable)
    (hspelled : model.Spelled ways)
    (hlegible : ∀ e ∈ batch.events, ∀ kind operation, e.opens? = some (kind, operation) →
      let way := settings.matching.readsConstructor kind
      ways way ∧ QualifiedSignature.Legible way operation.signature)
    (hexecutions : (reconstruct settings selection model batch).outcome.executions? =
      some executions) :
    ∀ x ∈ executions.executions, ∃ e ∈ batch.events, x.entryTime = e.timestamp ∧
      ∃ kind operation, e.opens? = some (kind, operation) ∧
        let q := QualifiedSignature.parse operation.signature
          (settings.matching.readsConstructor kind)
        QualifiedSignature.Resembles ⟨x.className, x.operation.signature⟩ q ∧
          ((∀ c d, ways c → ways d → c = d) → ⟨x.className, x.operation.signature⟩ = q) := by
  obtain ⟨⟨hlast, hlastSpelled⟩, hasked⟩ := executions_requested
    (P := fun m => m.Reachable ∧ m.Spelled ways) hexecutions
    (fun m e he kind operation hopens ⟨hm, hspelled⟩ => by
      obtain ⟨hway, htext⟩ := hlegible e he kind operation hopens
      exact ⟨.resolve _ _ _ hm, hspelled.internNamed hm hway htext⟩) ⟨hm, hspelled⟩
  intro x hx
  obtain ⟨e, he, htime, kind, operation, hopens, _, hoperation⟩ := hasked x hx
  obtain ⟨hway, htext⟩ := hlegible e he kind operation hopens
  refine ⟨e, he, htime, kind, operation, hopens, ?_⟩
  rw [Execution.className, hoperation]
  exact hlastSpelled.operation hlast hway htext

end Executions

/-! ## What is told by how it is written -/

open QualifiedSignature

/-- Operations are told by what is written for them. Two of them are interned as one if and only if
they are written alike, and legible ones are if they have one class, one name, the same words before
it and the same parameters. If they are read in one way, as constructors or not, they are then
equal. So as long as all operations are legible, an execution has the class, the name, the words and
the parameters that are read off its own event, and it has the same signature if all are read in one
way. -/
theorem operations_told_by_writing {m : Model} (h : m.Reachable) :
    (∀ (n : Model) p q, n.Reachable → (m.internNamed p).2.Grows n →
      ((n.internNamed q).1 = (m.internNamed p).1 ↔ q.written = p.written)) ∧
    (∀ c d text other, Legible c text → Legible d other →
      ((parse text c).written = (parse other d).written ↔
        (parse text c).Resembles (parse other d)) ∧
      (c = d → ((parse text c).written = (parse other d).written ↔
        parse text c = parse other d))) ∧
    ∀ ways, m.Spelled ways → ∀ settings selection (batch : Batch) executions,
      (∀ e ∈ batch.events, ∀ kind operation, e.opens? = some (kind, operation) →
        let way := settings.matching.readsConstructor kind
        ways way ∧ Legible way operation.signature) →
      (reconstruct settings selection m batch).outcome.executions? = some executions →
      ∀ x ∈ executions.executions, ∃ e ∈ batch.events, x.entryTime = e.timestamp ∧
        ∃ kind operation, e.opens? = some (kind, operation) ∧
          let q := parse operation.signature (settings.matching.readsConstructor kind)
          Resembles ⟨x.className, x.operation.signature⟩ q ∧
            ((∀ c d, ways c → ways d → c = d) → ⟨x.className, x.operation.signature⟩ = q) := by
  refine ⟨fun n p q hn hgrows => h.internNamed_eq_iff hn hgrows, ?_, ?_⟩
  · intro c d text other htext hother
    refine ⟨written_eq_iff htext hother, ?_⟩
    rintro rfl
    exact ⟨fun heq => ((written_eq_iff htext hother).mp heq).eq, congrArg written⟩
  · intro ways hspelled settings selection batch executions hlegible hexecutions
    exact executions_of_operation h hspelled hlegible hexecutions

/-- An operation that calls another one of its name. -/
def overloadsBatch : Batch :=
  let add : OperationRef := ⟨"void shop.Cart.add(int)", "shop.Cart"⟩
  let addTwo : OperationRef := ⟨"void shop.Cart.add(int, int)", "shop.Cart"⟩
  ⟨{ traceId := 4, sessionId := "s", hostname := "srv" },
    [.before .operation ⟨1, 4, 0⟩ add, .call .operation ⟨2, 4, 1⟩ add addTwo,
      .before .operation ⟨2, 4, 2⟩ addTwo, .after .operation ⟨3, 4, 3⟩ addTwo,
      .after .operation ⟨5, 4, 4⟩ add]⟩

theorem overloads_told :
    let p := parse "void shop.Cart.add(int)" false
    let q := parse "void shop.Cart.add(int, int)" false
    Model.Reachable {} ∧ ((Model.internNamed {} p).2.internNamed q).1 ≠ (Model.internNamed {} p).1 ∧
      ∃ executions, (reconstruct {} .all {} overloadsBatch).outcome.executions? = some executions ∧
        ∀ x ∈ executions.executions, ∃ e ∈ overloadsBatch.events, x.entryTime = e.timestamp ∧
          ∃ kind operation, e.opens? = some (kind, operation) ∧
            ⟨x.className, x.operation.signature⟩ = parse operation.signature false := by
  intro p q
  obtain ⟨hinterned, hread, htold⟩ := operations_told_by_writing .empty
  have hp : Legible false "void shop.Cart.add(int)" :=
    .of_head? (by decide +kernel) (by decide +kernel) (by decide +kernel)
  have hq : Legible false "void shop.Cart.add(int, int)" :=
    .of_head? (by decide +kernel) (by decide +kernel) (by decide +kernel)
  have hne : q ≠ p := by decide +kernel
  have hlegible : ∀ e ∈ overloadsBatch.events, ∀ kind operation,
      e.opens? = some (kind, operation) → Matching.readsConstructor {} kind = false ∧
        Legible (Matching.readsConstructor {} kind) operation.signature := by
    simp [overloadsBatch, Event.opens?, Matching.readsConstructor, hp, hq]
  have hsome : (reconstruct {} .all {} overloadsBatch).outcome.executions?.isSome := by
    decide +kernel
  obtain ⟨executions, hexecutions⟩ := Option.isSome_iff_exists.mp hsome
  refine ⟨.empty, fun hone => hne ?_, executions, hexecutions, ?_⟩
  · have hsame := (hinterned _ p q (Model.Reachable.empty.internNamed p) (.refl _)).mp hone
    exact ((hread _ _ _ _ hq hp).2 rfl).mp hsame
  · intro x hx
    obtain ⟨e, he, htime, kind, operation, hopens, _, hsame⟩ := htold (· = false)
      (fun o ho => nomatch ho) {} .all overloadsBatch executions hlegible hexecutions x hx
    rw [(hlegible e he kind operation hopens).1] at hsame
    exact ⟨e, he, htime, kind, operation, hopens, hsame fun c d hc hd => hc.trans hd.symm⟩

/-- A constructor that is written with a word before it, and an operation of its name. -/
def namesakesBatch : Batch :=
  let construct : OperationRef := ⟨"void p.C.<init>()", "p.C"⟩
  let operate : OperationRef := ⟨"void p.C.C()", "p.C"⟩
  ⟨{ traceId := 1, sessionId := "s", hostname := "srv" },
    [.before .constructor ⟨1, 1, 0⟩ construct, .after .constructor ⟨2, 1, 1⟩ construct,
      .before .operation ⟨3, 1, 2⟩ operate, .after .operation ⟨4, 1, 3⟩ operate]⟩

/-- The word before the name is a modifier of the constructor and the return type of the operation.
As they are written alike the operation gets the signature of the constructor. -/
theorem operation_taken_for_constructor :
    let p := parse "void p.C.<init>()" true
    let q := parse "void p.C.C()" false
    let first := Model.internNamed {} p
    first.2.Reachable ∧ (first.2.internNamed q).1 = first.1 ∧ q.signature ≠ p.signature ∧
      ∃ executions, (reconstruct {} .all {} namesakesBatch).outcome.executions? = some executions ∧
        ∃ x ∈ executions.executions, x.entryTime = 3 ∧ x.operation.signature = p.signature := by
  refine ⟨Model.Reachable.empty.internNamed _, ?_⟩
  decide +kernel

/-- Allocations are told by what is written for them. A request gets that of its own host and
context unless another place that is written alike was registered before, and two requests get one
if and only if their places are equal or one is the other shifted over a separator. So as long as
hosts are plain, an execution has the host of its trace and the context of its own event. -/
theorem allocations_told_by_writing {m : Model} (h : m.Reachable) :
    (∀ host context q,
      ((m.resolve host context q).1.allocation.place = (host, context) ↔
        ∀ a ∈ m.allocations.entities,
          ¬ Shifted a.place (host, context) ∧ ¬ Shifted (host, context) a.place) ∧
      ∀ (n : Model) host' context' q', n.Reachable → (m.resolve host context q).2.Grows n →
        ((n.resolve host' context' q').1.allocation = (m.resolve host context q).1.allocation ↔
          (host', context') = (host, context) ∨ Shifted (host', context') (host, context) ∨
            Shifted (host, context) (host', context'))) ∧
    (m.PlainHosts → ∀ settings selection (batch : Batch) executions,
      PlainHost batch.trace.hostname →
      (reconstruct settings selection m batch).outcome.executions? = some executions →
      ∀ x ∈ executions.executions, x.host = batch.trace.hostname ∧
        ∃ e ∈ batch.events, x.entryTime = e.timestamp ∧ ∃ kind operation,
          e.opens? = some (kind, operation) ∧
          x.component = operation.context (settings.matching.readsConstructor kind)) := by
  constructor
  · intro host context q
    refine ⟨h.resolve_place_iff host context q, fun n host' context' q' hn hgrows => ?_⟩
    rw [h.resolve_allocation_eq_iff hn hgrows, writtenPlace_eq_iff]
  · intro hplain settings selection batch executions hhost hexecutions
    exact executions_at_place h hplain hhost hexecutions

/-- A place that is written like a registered one is not given, and the others are. -/
theorem places_told :
    let f := parse "void p.C.f()" false
    let m := (Model.resolve {} "srv" "a::b" f).2
    m.Reachable ∧ m.PlainHosts ∧ (m.resolve "srv" "b" f).1.allocation.place = ("srv", "b") ∧
      (m.resolve "srv::a" "b" f).1.allocation.place ≠ ("srv::a", "b") ∧
      ∃ executions, (reconstruct {} .all m overloadsBatch).outcome.executions? = some executions ∧
        ∀ x ∈ executions.executions, x.host = "srv" := by
  intro f m
  have hm : m.Reachable := .resolve "srv" "a::b" f .empty
  have hplain : m.PlainHosts := by
    unfold Model.PlainHosts
    decide +kernel
  have hplaces : ∀ a ∈ m.allocations.entities, a.place = ("srv", "a::b") := by decide +kernel
  have hhost : PlainHost "srv" := by decide
  have hsome : (reconstruct {} .all m overloadsBatch).outcome.executions?.isSome := by
    decide +kernel
  obtain ⟨executions, hexecutions⟩ := Option.isSome_iff_exists.mp hsome
  obtain ⟨htold, hattributed⟩ := allocations_told_by_writing hm
  refine ⟨hm, hplain, (htold "srv" "b" f).1.mpr fun a ha => ?_, fun hplace => ?_, executions,
    hexecutions, fun x hx => ?_⟩
  · rw [hplaces a ha]
    exact ⟨PlainHost.not_shifted hhost, PlainHost.not_shifted hhost⟩
  · obtain ⟨a, ha⟩ : ∃ a, a ∈ m.allocations.entities := ⟨_, List.mem_of_getElem? (i := 0) rfl⟩
    refine ((htold "srv::a" "b" f).1.mp hplace a ha).1 ?_
    rw [hplaces a ha]
    exact .inl ⟨"a", rfl, rfl⟩
  · exact (hattributed hplain {} .all overloadsBatch executions hhost hexecutions x hx).1

/-- An operation in a context of one letter, on a host with a separator in its name. -/
def colonsBatch : Batch :=
  let operation : OperationRef := ⟨"void p.C.f()", "b"⟩
  ⟨{ traceId := 2, sessionId := "s", hostname := "srv::a" },
    [.before .operation ⟨1, 2, 0⟩ operation, .after .operation ⟨2, 2, 1⟩ operation]⟩

/-- What is written does not tell whether the middle part belongs to the host or to the context, so
the second request gets the place of the first one. -/
theorem place_taken_for_another :
    let f := parse "void p.C.f()" false
    let first := Model.resolve {} "srv" "a::b" f
    first.2.Reachable ∧ (first.2.resolve "srv::a" "b" f).1.allocation = first.1.allocation ∧
      first.1.allocation.place = ("srv", "a::b") ∧
      ∃ executions, (reconstruct {} .all first.2 colonsBatch).outcome.executions? = some executions ∧
        ∃ x ∈ executions.executions, x.host = "srv" ∧ x.component = "a::b" := by
  refine ⟨.resolve _ _ _ .empty, ?_⟩
  decide +kernel

end Retrace
