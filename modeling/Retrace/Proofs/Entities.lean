import Retrace.Proofs.Recording

/-! Entities stay. A registry grows at its end only, so a name that was asked for once has the same
entity ever after. An execution can therefore be read off its invocation when the trace is over: it
does not matter what ended before it. -/

namespace Retrace

namespace Registry

variable {α : Type} {r s : Registry α} {name : String} {make : Nat → α}

/-- Has the second registry grown from the first one? -/
def Grows (r s : Registry α) : Prop :=
  r.entries <+: s.entries

theorem Grows.refl (r : Registry α) : r.Grows r :=
  List.prefix_rfl

theorem Grows.find? (h : r.Grows s) {entity : α} (hfind : r.find? name = some entity) :
    s.find? name = some entity := by
  obtain ⟨more, hmore⟩ := h
  unfold Registry.find? at hfind ⊢
  rw [← hmore, List.lookup_append, hfind]
  rfl

theorem grows_intern (r : Registry α) (name : String) (make : Nat → α) :
    r.Grows (r.intern name make).2 := by
  unfold intern
  split
  · exact Grows.refl r
  · exact List.prefix_append _ _

theorem find?_intern (r : Registry α) (name : String) (make : Nat → α) :
    (r.intern name make).2.find? name = some (r.intern name make).1 := by
  unfold intern
  split
  · assumption
  · rename_i hnone
    unfold find? at hnone ⊢
    simp [List.lookup_append, hnone]

/-- What is found is not interned again. -/
theorem intern_of_find? {entity : α} (h : r.find? name = some entity) :
    r.intern name make = (entity, r) := by
  rw [intern, h]

/-- A name that has been interned has its entity in every later registry. -/
theorem intern_again (h : (r.intern name make).2.Grows s) (again : Nat → α) :
    s.intern name again = ((r.intern name make).1, s) :=
  intern_of_find? (h.find? (find?_intern r name make))

end Registry

namespace Model

/-- Have all registries of the second model grown from those of the first one? -/
structure Grows (m n : Model) : Prop where
  containers : m.containers.Grows n.containers
  componentTypes : m.componentTypes.Grows n.componentTypes
  operations : m.operations.Grows n.operations
  assemblies : m.assemblies.Grows n.assemblies
  allocations : m.allocations.Grows n.allocations

theorem Grows.refl (m : Model) : m.Grows m :=
  ⟨.refl _, .refl _, .refl _, .refl _, .refl _⟩

theorem Grows.trans {l m n : Model} (h : l.Grows m) (h' : m.Grows n) : l.Grows n :=
  ⟨List.IsPrefix.trans h.1 h'.1, List.IsPrefix.trans h.2 h'.2, List.IsPrefix.trans h.3 h'.3,
    List.IsPrefix.trans h.4 h'.4, List.IsPrefix.trans h.5 h'.5⟩

theorem grows_resolve (m : Model) (host context : String) (operation : QualifiedSignature) :
    m.Grows (m.resolve host context operation).2 := by
  simp only [resolve, internContainer, internComponentType, internOperation, internAssembly,
    internAllocation]
  exact ⟨Registry.grows_intern _ _ _, Registry.grows_intern _ _ _, Registry.grows_intern _ _ _,
    Registry.grows_intern _ _ _, Registry.grows_intern _ _ _⟩

/-- What has been resolved is resolved to the same entities ever after. -/
theorem resolve_again {m n : Model} {host context : String} {operation : QualifiedSignature}
    (h : (m.resolve host context operation).2.Grows n) :
    n.resolve host context operation = ((m.resolve host context operation).1, n) := by
  obtain ⟨hcontainers, htypes, hoperations, hassemblies, hallocations⟩ := h
  simp only [resolve, internContainer, internComponentType, internOperation, internAssembly,
    internAllocation] at hcontainers htypes hoperations hassemblies hallocations ⊢
  simp only [Registry.intern_again hcontainers, Registry.intern_again htypes,
    Registry.intern_again hoperations, Registry.intern_again hassemblies,
    Registry.intern_again hallocations]

end Model

theorem Invocation.execution_grows (i : Invocation) (trace : TraceInfo) (m : Matching)
    (model : Model) : model.Grows (i.execution trace m model).2 :=
  Model.grows_resolve _ _ _ _

theorem Invocation.execution_again {i : Invocation} {trace : TraceInfo} {m : Matching}
    {model later : Model} (h : (i.execution trace m model).2.Grows later) :
    (i.execution trace m later).1 = (i.execution trace m model).1 := by
  simp only [Invocation.execution] at h ⊢
  rw [Model.resolve_again h]

namespace Tracker
open scoped List

theorem recordedAll_model_grows (t : Tracker) (is : List Invocation) :
    t.model.Grows (t.recordedAll is).model := by
  induction is generalizing t with
  | nil => exact .refl _
  | cons i rest ih => exact (i.execution_grows t.trace t.matching t.model).trans (ih (t.recorded i))

/-- The recorded executions, with the entities of the model at the end. -/
theorem executions_recordedAll (t : Tracker) (is : List Invocation) :
    (t.recordedAll is).executions.executions ~
      is.map (fun i => (i.execution t.trace t.matching (t.recordedAll is).model).1) ++
        t.executions.executions := by
  induction is generalizing t with
  | nil => exact List.Perm.refl _
  | cons i rest ih =>
    have hmodel : (t.recordedAll (i :: rest)).model = ((t.recorded i).recordedAll rest).model := rfl
    have hagain := Invocation.execution_again (recordedAll_model_grows (t.recorded i) rest)
    have hone : (t.recorded i).executions.executions ~
        (i.execution t.trace t.matching t.model).1 :: t.executions.executions :=
      ExecutionTrace.insert_perm _ _
    rw [List.map_cons, hmodel, show (i.execution t.trace t.matching _).1 = _ from hagain]
    exact (ih (t.recorded i)).trans ((hone.append_left _).trans List.perm_middle)

end Tracker

end Retrace
