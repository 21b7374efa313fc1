import Retrace.Proofs.Attribution

/-! Classes. A type keeps the name of its class in two parts, cut at the last dot, and the full name
puts them together again. An empty package is taken for none, so the dot is lost if it comes first
and no other one follows: the full name of `.a` is `a`. That is the only way to lose anything. Two
classes have one full name, and one beginning of what is written for their operations, only if they
are equal or one is the other after a dot, and the class of an execution is told up to that. -/

namespace Retrace

/-- Is the class a dot before a name without dots? -/
def Predotted (className name : String) : Prop :=
  className = "." ++ name ∧ '.' ∉ name.toList

instance (className name : String) : Decidable (Predotted className name) :=
  inferInstanceAs (Decidable (_ ∧ _))

/-- Is this the full name of the class? It is the class itself unless that is a dot before a name
without dots, and that name if it is. -/
structure Called (className fullName : String) : Prop where
  whole : fullName = className ↔ ∀ name, ¬ Predotted className name
  short : ∀ name, Predotted className name → fullName = name

section Names

variable {className name p q : String} {id : Nat}

theorem Predotted.head? (h : Predotted className name) : className.toList.head? = some '.' := by
  rw [h.1, String.toList_append]
  rfl

theorem Predotted.ne (h : Predotted className name) : name ≠ className := by
  intro heq
  obtain ⟨hclass, hname⟩ := h
  rw [heq, hclass] at hname
  simp at hname

/-- What is a dot before a name is not a name after a dot. -/
theorem Predotted.undotted (h : Predotted className name) (other : String) :
    ¬ Predotted name other := by
  rintro ⟨rfl, _⟩
  simpa using h.2

namespace ComponentType

theorem fullName_of_predotted (h : Predotted className name) (id : Nat) :
    (ofClassName className id).fullName = name := by
  obtain ⟨rfl, hname⟩ := h
  have hcut : Text.cutLast '.' ("." ++ name).toList = some ([], name.toList) :=
    Text.cutLast_eq_some_iff.mpr ⟨hname, by simp⟩
  simp only [ofClassName, hcut]
  simp [fullName]

theorem fullName_of_forall_not_predotted (h : ∀ name, ¬ Predotted className name) (id : Nat) :
    (ofClassName className id).fullName = className := by
  refine fullName_ofClassName (fun name hname hclass => h (.ofList name) ⟨?_, ?_⟩) id
  · exact String.toList_injective (by simpa using hclass)
  · rwa [String.toList_ofList]

theorem called_ofClassName (className : String) (id : Nat) :
    Called className (ofClassName className id).fullName where
  whole := by
    refine ⟨fun heq name hname => hname.ne ?_, fun h => fullName_of_forall_not_predotted h id⟩
    rw [← fullName_of_predotted hname id, heq]
  short := fun _ hname => fullName_of_predotted hname id

/-- The full name of a class is the class or what follows its dot. -/
theorem fullName_cases (className : String) (id : Nat) :
    (ofClassName className id).fullName = className ∨
      Predotted className (ofClassName className id).fullName := by
  by_cases h : ∃ name, Predotted className name
  · obtain ⟨name, hname⟩ := h
    exact .inr (by rwa [fullName_of_predotted hname])
  · exact .inl (fullName_of_forall_not_predotted (not_exists.mp h) id)

/-- Two classes have one full name if and only if they are equal but for a dot that is lost. -/
theorem fullName_eq_iff : (ofClassName p id).fullName = (ofClassName q id).fullName ↔
    p = q ∨ Predotted p q ∨ Predotted q p := by
  constructor
  · intro h
    rcases fullName_cases p id with hp | hp <;> rcases fullName_cases q id with hq | hq
    · exact .inl (hp.symm.trans (h.trans hq))
    · exact .inr (.inr (by rwa [← h, hp] at hq))
    · exact .inr (.inl (by rwa [h, hq] at hp))
    · exact .inl (by rw [hp.1, hq.1, h])
  · have hdotted : ∀ {p q : String}, Predotted p q →
        (ofClassName p id).fullName = (ofClassName q id).fullName := fun h => by
      rw [fullName_of_predotted h, fullName_of_forall_not_predotted h.undotted]
    rintro (rfl | h | h)
    · rfl
    · exact hdotted h
    · exact (hdotted h).symm

/-- A character of a full name is one of the class. -/
theorem mem_of_mem_fullName {c : Char} (h : c ∈ (ofClassName className id).fullName.toList) :
    c ∈ className.toList := by
  rcases fullName_cases className id with heq | hname
  · rwa [heq] at h
  · rw [hname.1, String.toList_append]
    exact List.mem_append_right _ h

end ComponentType

end Names

namespace Model

/-- Does no full name of a class hold the mark that is written after it? -/
def PlainClasses (m : Model) : Prop :=
  ∀ t ∈ m.componentTypes.entities, '#' ∉ t.fullName.toList

section Classes

variable {m n : Model} {p q : String} {operation : QualifiedSignature}

theorem PlainClasses.empty : ({} : Model).PlainClasses :=
  fun _ h => nomatch h

theorem PlainClasses.internComponentType (h : m.PlainClasses) (hq : '#' ∉ q.toList) :
    (m.internComponentType q).2.PlainClasses := by
  intro t ht
  rcases Registry.mem_entities_intern ht with hold | ⟨⟨id, rfl⟩, _⟩
  · exact h t hold
  · exact fun hmark => hq (ComponentType.mem_of_mem_fullName hmark)

theorem PlainClasses.resolve (h : m.PlainClasses) (hplain : '#' ∉ operation.owner.toList)
    (host context : String) : (m.resolve host context operation).2.PlainClasses :=
  h.internComponentType hplain

namespace Reachable

theorem called_internComponentType (h : Reachable m) (className : String) :
    Called className (m.internComponentType className).1.fullName :=
  h.fullName_internComponentType className ▸ ComponentType.called_ofClassName className 0

theorem fullName_eq_iff (h : Reachable m) (hn : Reachable n) :
    (m.internComponentType p).1.fullName = (n.internComponentType q).1.fullName ↔
      p = q ∨ Predotted p q ∨ Predotted q p := by
  rw [h.fullName_internComponentType, hn.fullName_internComponentType,
    ComponentType.fullName_eq_iff]

/-- If the mark stands in none of two classes, what is written for an operation of one begins with
the other if and only if both have one full name. -/
theorem prefix_operationKey_iff (h : Reachable m) (hn : Reachable n) (hp : '#' ∉ p.toList)
    (hq : '#' ∉ q.toList) (signature : Signature) :
    ((n.internComponentType q).1.fullName ++ "#").toList <+:
        (operationKey (m.internComponentType p).1 signature).toList ↔
      p = q ∨ Predotted p q ∨ Predotted q p := by
  have hplain : ∀ {m : Model} {p : String}, Reachable m → '#' ∉ p.toList →
      '#' ∉ (m.internComponentType p).1.fullName.toList := by
    intro m p h hp hmark
    rw [h.fullName_internComponentType] at hmark
    exact hp (ComponentType.mem_of_mem_fullName hmark)
  rw [← h.fullName_eq_iff hn]
  constructor
  · rintro ⟨rest, hrest⟩
    simp only [operationKey, String.toList_append, List.append_assoc] at hrest
    exact String.toList_injective (Text.append_cons_inj (hplain h hp) (hplain hn hq) hrest.symm).1
  · intro heq
    refine ⟨signature.render.toList, ?_⟩
    rw [operationKey, heq]
    exact String.toList_append.symm

/-- If no class holds the mark, the operation that a request gets is of a class with the full name
of the one that is asked for. -/
theorem called_internNamed (h : Reachable m) (hclasses : m.PlainClasses)
    (hplain : '#' ∉ operation.owner.toList) :
    Called operation.owner (m.internNamed operation).1.componentType.fullName := by
  have hmem := Registry.mem_entities_of_find? (h.find?_internNamed operation)
  have htype := (intact_of_reachable (h.internNamed operation)).operationTypes _ hmem
  have hmark : '#' ∉ (m.internNamed operation).1.componentType.fullName.toList :=
    hclasses.internComponentType hplain _ htype
  have hasked : '#' ∉ (ComponentType.ofClassName operation.owner 0).fullName.toList :=
    fun hmark => hplain (ComponentType.mem_of_mem_fullName hmark)
  -- The operation may be an older one with another type, of which what is written is all we know.
  have hwritten := congrArg String.toList (h.internNamed_written operation)
  simp only [Operation.written, QualifiedSignature.written, operationKey, String.toList_append,
    List.append_assoc] at hwritten
  rw [String.toList_injective (Text.append_cons_inj hmark hasked hwritten).1]
  exact ComponentType.called_ofClassName operation.owner 0

end Reachable

end Classes

end Model

/-- If no class holds the mark, each execution is told to be of the class that is read off what its
event opened, but for a dot that is lost. -/
theorem executions_of_class {settings : Settings} {selection : Selection} {model : Model}
    {batch : Batch} {executions : ExecutionTrace} (hm : model.Reachable)
    (hclasses : model.PlainClasses)
    (hplain : ∀ e ∈ batch.events, ∀ kind operation, e.opens? = some (kind, operation) →
      '#' ∉ (QualifiedSignature.parse operation.signature
        (settings.matching.readsConstructor kind)).owner.toList)
    (hexecutions : (reconstruct settings selection model batch).outcome.executions? =
      some executions) :
    ∀ x ∈ executions.executions, ∃ e ∈ batch.events, x.entryTime = e.timestamp ∧
      ∃ kind operation, e.opens? = some (kind, operation) ∧
        Called (QualifiedSignature.parse operation.signature
          (settings.matching.readsConstructor kind)).owner x.className := by
  obtain ⟨⟨hlast, hlastClasses⟩, hasked⟩ := executions_requested
    (P := fun m => m.Reachable ∧ m.PlainClasses) hexecutions
    (fun m e he kind operation hopens ⟨hm, hclasses⟩ =>
      ⟨.resolve _ _ _ hm, hclasses.resolve (hplain e he kind operation hopens) _ _⟩) ⟨hm, hclasses⟩
  intro x hx
  obtain ⟨e, he, htime, kind, operation, hopens, _, hoperation⟩ := hasked x hx
  refine ⟨e, he, htime, kind, operation, hopens, ?_⟩
  rw [Execution.className, hoperation]
  exact hlast.called_internNamed hlastClasses (hplain e he kind operation hopens)

/-! ## What is told by the full name -/

/-- A class is told by its full name but for the dot before a name without dots. Two classes have
one full name if and only if they are equal or differ by that dot, and so do the beginnings of what
is written for their operations. So an execution is told to be of the class that is read off its own
event if and only if that dot is not there. -/
theorem classes_told_by_full_name {m : Model} (h : m.Reachable) :
    (∀ className, Called className (m.internComponentType className).1.fullName) ∧
    (∀ (n : Model) p q, n.Reachable →
      ((m.internComponentType p).1.fullName = (n.internComponentType q).1.fullName ↔
        p = q ∨ Predotted p q ∨ Predotted q p) ∧
      ∀ signature, '#' ∉ p.toList → '#' ∉ q.toList →
        (((n.internComponentType q).1.fullName ++ "#").toList <+:
            (Model.operationKey (m.internComponentType p).1 signature).toList ↔
          p = q ∨ Predotted p q ∨ Predotted q p)) ∧
    (m.PlainClasses → ∀ settings selection (batch : Batch) executions,
      (∀ e ∈ batch.events, ∀ kind operation, e.opens? = some (kind, operation) →
        '#' ∉ (QualifiedSignature.parse operation.signature
          (settings.matching.readsConstructor kind)).owner.toList) →
      (reconstruct settings selection m batch).outcome.executions? = some executions →
      ∀ x ∈ executions.executions, ∃ e ∈ batch.events, x.entryTime = e.timestamp ∧
        ∃ kind operation, e.opens? = some (kind, operation) ∧
          Called (QualifiedSignature.parse operation.signature
            (settings.matching.readsConstructor kind)).owner x.className) := by
  refine ⟨h.called_internComponentType, fun n p q hn => ⟨h.fullName_eq_iff hn, ?_⟩, ?_⟩
  · intro signature hp hq
    exact h.prefix_operationKey_iff hn hp hq signature
  · intro hclasses settings selection batch executions hplain hexecutions
    exact executions_of_class h hclasses hplain hexecutions

open QualifiedSignature

theorem cart_told_by_full_name :
    (Model.internComponentType {} "shop.Cart").1.fullName = "shop.Cart" ∧
      (Model.internComponentType {} "shop.Cart").1.fullName ≠
        (Model.internComponentType {} ".Cart").1.fullName ∧
      ¬ ((Model.internComponentType {} ".Cart").1.fullName ++ "#").toList <+:
        (Model.operationKey (Model.internComponentType {} "shop.Cart").1
          (parse "void shop.Cart.add(int)" false).signature).toList ∧
      ∃ executions, (reconstruct {} .all {} overloadsBatch).outcome.executions? = some executions ∧
        ∀ x ∈ executions.executions, x.className = "shop.Cart" := by
  obtain ⟨hcalled, hpairs, hexecutions⟩ := classes_told_by_full_name .empty
  obtain ⟨hnames, hkeys⟩ := hpairs {} "shop.Cart" ".Cart" .empty
  have hdistinct : ¬ ("shop.Cart" = ".Cart" ∨ Predotted "shop.Cart" ".Cart" ∨
      Predotted ".Cart" "shop.Cart") := by decide +kernel
  have hwhole : ∀ name, ¬ Predotted "shop.Cart" name := fun name hname =>
    absurd hname.head? (by decide +kernel)
  have howners : ∀ e ∈ overloadsBatch.events, ∀ kind operation,
      e.opens? = some (kind, operation) →
        (parse operation.signature (Matching.readsConstructor {} kind)).owner = "shop.Cart" := by
    have hadd : (parse "void shop.Cart.add(int)" false).owner = "shop.Cart" := by decide +kernel
    have haddTwo : (parse "void shop.Cart.add(int, int)" false).owner = "shop.Cart" := by
      decide +kernel
    simp [overloadsBatch, Event.opens?, Matching.readsConstructor, hadd, haddTwo]
  have hsome : (reconstruct {} .all {} overloadsBatch).outcome.executions?.isSome := by
    decide +kernel
  obtain ⟨executions, htrace⟩ := Option.isSome_iff_exists.mp hsome
  refine ⟨(hcalled "shop.Cart").whole.mpr hwhole, fun heq => hdistinct (hnames.mp heq),
    fun hkey => hdistinct ((hkeys _ (by decide +kernel) (by decide +kernel)).mp hkey), executions,
    htrace, fun x hx => ?_⟩
  have hplain : ∀ e ∈ overloadsBatch.events, ∀ kind operation,
      e.opens? = some (kind, operation) →
        '#' ∉ (parse operation.signature (Matching.readsConstructor {} kind)).owner.toList := by
    intro e he kind operation hopens
    rw [howners e he kind operation hopens]
    decide +kernel
  obtain ⟨e, he, _, kind, operation, hopens, hclass⟩ := hexecutions
    .empty {} .all overloadsBatch executions hplain htrace x hx
  rw [howners e he kind operation hopens] at hclass
  exact hclass.whole.mpr hwhole

/-- Operations of two classes that differ by a dot. -/
def dotBatch : Batch :=
  let plain : OperationRef := ⟨"void a.f()", "a"⟩
  let dotted : OperationRef := ⟨"void .a.f()", ".a"⟩
  ⟨{ traceId := 3, sessionId := "s", hostname := "srv" },
    [.before .operation ⟨1, 3, 0⟩ plain, .after .operation ⟨2, 3, 1⟩ plain,
      .before .operation ⟨3, 3, 2⟩ dotted, .after .operation ⟨4, 3, 3⟩ dotted]⟩

/-- The classes have types of their own, but both are called `a`, so the second operation gets the
class of the first one. -/
theorem class_taken_for_another :
    let first := Model.internComponentType {} "a"
    let second := first.2.internComponentType ".a"
    second.1 ≠ first.1 ∧ second.1.fullName = "a" ∧ first.1.fullName = "a" ∧
      (parse "void .a.f()" false).owner = ".a" ∧
      ∃ executions, (reconstruct {} .all {} dotBatch).outcome.executions? = some executions ∧
        ∃ x ∈ executions.executions, x.entryTime = 3 ∧ x.className = "a" := by
  decide +kernel

end Retrace
