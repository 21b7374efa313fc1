import Retrace.Proofs.Registries

/-! Integrity. A model that has grown by interning alone holds together: what an entity refers to is
registered in its turn, and an entity is found under the name that is put together from what it
holds. Types have no such name. `.a` and `a` are two classes, but both are types of no package with
the name `a`, and what is written with one of them is written with the other. -/

namespace Retrace

namespace Registry

variable {α : Type} {r s : Registry α} {name : String} {make : Nat → α} {entity : α}

/-- Is each entity found under its own name, which no other one has? -/
structure KeyedBy (r : Registry α) (key : α → String) : Prop where
  found : ∀ entity ∈ r.entities, r.find? (key entity) = some entity
  distinct : (r.entities.map key).Nodup

theorem mem_entities_of_find? (h : r.find? name = some entity) : entity ∈ r.entities :=
  List.mem_map_of_mem (f := Prod.snd) (mem_of_lookup h)

theorem Grows.mem (h : r.Grows s) (hmem : entity ∈ r.entities) : entity ∈ s.entities :=
  (h.map Prod.snd).subset hmem

theorem mem_intern (r : Registry α) (name : String) (make : Nat → α) :
    (r.intern name make).1 ∈ (r.intern name make).2.entities :=
  mem_entities_of_find? (find?_intern r name make)

/-- An entity was there before a name was interned, or it is made for the name. -/
theorem mem_entities_intern (h : entity ∈ (r.intern name make).2.entities) :
    entity ∈ r.entities ∨
      (∃ id, entity = make id) ∧ (r.intern name make).2.find? name = some entity := by
  cases hfind : r.find? name with
  | some other =>
    rw [intern_of_find? hfind] at h
    exact .inl h
  | none =>
    have hgot := find?_intern r name make
    rw [intern_of_find?_eq_none hfind] at h hgot ⊢
    rw [entities, List.map_append] at h
    rcases List.mem_append.mp h with hold | hnew
    · exact .inl hold
    · obtain rfl := List.mem_singleton.mp hnew
      exact .inr ⟨⟨_, rfl⟩, hgot⟩

namespace KeyedBy

variable {key : α → String}

theorem empty : ({} : Registry α).KeyedBy key where
  found := fun _ h => nomatch h
  distinct := List.nodup_nil

/-- What is made for a name that is not there yet has a new name. -/
protected theorem intern (h : r.KeyedBy key) (hmake : ∀ id, key (make id) = name) :
    (r.intern name make).2.KeyedBy key := by
  cases hfind : r.find? name with
  | some entity => rwa [intern_of_find? hfind]
  | none =>
    have hfresh : name ∉ r.entities.map key := by
      intro hname
      obtain ⟨entity, hmem, rfl⟩ := List.mem_map.mp hname
      rw [h.found entity hmem] at hfind
      cases hfind
    constructor
    · intro entity hmem
      rcases mem_entities_intern hmem with hold | ⟨⟨id, rfl⟩, hnew⟩
      · exact (grows_intern r name make).find? (h.found entity hold)
      · rw [hmake]
        exact hnew
    · rw [intern_of_find?_eq_none hfind, entities, List.map_append, List.map_append]
      simp only [List.map_cons, List.map_nil, hmake]
      exact List.concat_eq_append ▸ h.distinct.concat hfresh

end KeyedBy

end Registry

theorem ComponentType.id_ofClassName (className : String) (id : Nat) :
    (ofClassName className id).id = id := by
  unfold ofClassName
  split <;> rfl

namespace Model

/-- The models that come of interning one thing after the other, each with entities that the model
has given out before. -/
inductive Reachable : Model → Prop
  | empty : Reachable {}
  | container {m : Model} (host : String) : Reachable m → Reachable (m.internContainer host).2
  | componentType {m : Model} (className : String) :
      Reachable m → Reachable (m.internComponentType className).2
  | operation {m : Model} {type : ComponentType} (signature : Signature) :
      Reachable m → type ∈ m.componentTypes.entities →
      Reachable (m.internOperation type signature).2
  | assembly {m : Model} {type : ComponentType} (name : String) :
      Reachable m → type ∈ m.componentTypes.entities → Reachable (m.internAssembly name type).2
  | allocation {m : Model} {assembly : Assembly} {container : Container} :
      Reachable m → assembly ∈ m.assemblies.entities → container ∈ m.containers.entities →
      Reachable (m.internAllocation assembly container).2
  | resolve {m : Model} (host context : String) (operation : QualifiedSignature) :
      Reachable m → Reachable (m.resolve host context operation).2

/-- Does the model hold together? -/
structure Intact (m : Model) : Prop where
  operationTypes : ∀ o ∈ m.operations.entities, o.componentType ∈ m.componentTypes.entities
  assemblyTypes : ∀ a ∈ m.assemblies.entities, a.componentType ∈ m.componentTypes.entities
  allocatedAssemblies : ∀ a ∈ m.allocations.entities, a.assembly ∈ m.assemblies.entities
  allocatedContainers : ∀ a ∈ m.allocations.entities, a.container ∈ m.containers.entities
  /-- A type is found under the class name that it was made of. -/
  componentTypes : ∀ t ∈ m.componentTypes.entities,
    ∃ className, m.componentTypes.find? className = some t ∧ t = .ofClassName className t.id
  containers : m.containers.KeyedBy Container.name
  assemblies : m.assemblies.KeyedBy Assembly.name
  operations : m.operations.KeyedBy fun o => o.componentType.fullName ++ "#" ++ o.signature.render
  allocations : m.allocations.KeyedBy Allocation.name

/-! ## What interning changes -/

section Interning

variable (m : Model)

theorem internContainer_snd (host : String) : (m.internContainer host).2 =
    { m with containers := (m.containers.intern host (⟨·, host⟩)).2 } := rfl

theorem internComponentType_snd (className : String) : (m.internComponentType className).2 =
    { m with componentTypes :=
        (m.componentTypes.intern className (.ofClassName className)).2 } := rfl

theorem internOperation_snd (type : ComponentType) (signature : Signature) :
    (m.internOperation type signature).2 =
      { m with operations :=
          (m.operations.intern (operationKey type signature) (⟨·, type, signature⟩)).2 } := rfl

theorem internAssembly_snd (name : String) (type : ComponentType) :
    (m.internAssembly name type).2 =
      { m with assemblies := (m.assemblies.intern name (⟨·, name, type⟩)).2 } := rfl

theorem internAllocation_snd (assembly : Assembly) (container : Container) :
    (m.internAllocation assembly container).2 =
      { m with allocations :=
          (m.allocations.intern (allocationKey assembly container) (⟨·, assembly, container⟩)).2 } :=
  rfl

theorem mem_internComponentType (className : String) :
    (m.internComponentType className).1 ∈ (m.internComponentType className).2.componentTypes.entities :=
  Registry.mem_intern m.componentTypes className (.ofClassName className)

end Interning

namespace Intact

variable {m : Model} {type : ComponentType} {assembly : Assembly} {container : Container}

theorem empty : ({} : Model).Intact where
  operationTypes := fun _ h => nomatch h
  assemblyTypes := fun _ h => nomatch h
  allocatedAssemblies := fun _ h => nomatch h
  allocatedContainers := fun _ h => nomatch h
  componentTypes := fun _ h => nomatch h
  containers := .empty
  assemblies := .empty
  operations := .empty
  allocations := .empty

protected theorem internContainer (h : m.Intact) (host : String) :
    (m.internContainer host).2.Intact := by
  rw [internContainer_snd]
  exact { h with
    allocatedContainers := fun a ha =>
      (Registry.grows_intern m.containers host _).mem (h.allocatedContainers a ha)
    containers := h.containers.intern fun _ => rfl }

protected theorem internComponentType (h : m.Intact) (className : String) :
    (m.internComponentType className).2.Intact := by
  have hgrows := Registry.grows_intern m.componentTypes className (.ofClassName className)
  rw [internComponentType_snd]
  refine { h with
    operationTypes := fun o ho => hgrows.mem (h.operationTypes o ho)
    assemblyTypes := fun a ha => hgrows.mem (h.assemblyTypes a ha)
    componentTypes := fun t ht => ?_ }
  rcases Registry.mem_entities_intern ht with hold | ⟨⟨id, rfl⟩, hnew⟩
  · obtain ⟨other, hfind, hmade⟩ := h.componentTypes t hold
    exact ⟨other, hgrows.find? hfind, hmade⟩
  · exact ⟨className, hnew, by rw [ComponentType.id_ofClassName]⟩

protected theorem internOperation (h : m.Intact) (htype : type ∈ m.componentTypes.entities)
    (signature : Signature) : (m.internOperation type signature).2.Intact := by
  rw [internOperation_snd]
  refine { h with
    operationTypes := fun o ho => ?_
    operations := h.operations.intern fun _ => rfl }
  rcases Registry.mem_entities_intern ho with hold | ⟨⟨id, rfl⟩, _⟩
  · exact h.operationTypes o hold
  · exact htype

protected theorem internAssembly (h : m.Intact) (htype : type ∈ m.componentTypes.entities)
    (name : String) : (m.internAssembly name type).2.Intact := by
  rw [internAssembly_snd]
  refine { h with
    assemblyTypes := fun a ha => ?_
    allocatedAssemblies := fun a ha =>
      (Registry.grows_intern m.assemblies name _).mem (h.allocatedAssemblies a ha)
    assemblies := h.assemblies.intern fun _ => rfl }
  rcases Registry.mem_entities_intern ha with hold | ⟨⟨id, rfl⟩, _⟩
  · exact h.assemblyTypes a hold
  · exact htype

protected theorem internAllocation (h : m.Intact) (hassembly : assembly ∈ m.assemblies.entities)
    (hcontainer : container ∈ m.containers.entities) :
    (m.internAllocation assembly container).2.Intact := by
  rw [internAllocation_snd]
  refine { h with
    allocatedAssemblies := fun a ha => ?ofAssembly
    allocatedContainers := fun a ha => ?ofContainer
    allocations := h.allocations.intern fun _ => rfl }
  case ofAssembly =>
    rcases Registry.mem_entities_intern ha with hold | ⟨⟨id, rfl⟩, _⟩
    · exact h.allocatedAssemblies a hold
    · exact hassembly
  case ofContainer =>
    rcases Registry.mem_entities_intern ha with hold | ⟨⟨id, rfl⟩, _⟩
    · exact h.allocatedContainers a hold
    · exact hcontainer

/-- Each entity that an execution refers to is interned before those that refer to it. -/
protected theorem resolve (h : m.Intact) (host context : String) (operation : QualifiedSignature) :
    (m.resolve host context operation).2.Intact := by
  have hcontainer := Registry.mem_intern m.containers host (⟨·, host⟩)
  have htype := (m.internContainer host).2.mem_internComponentType operation.owner
  have hintact := ((h.internContainer host).internComponentType operation.owner).internOperation
    htype operation.signature
  have hassembly := Registry.mem_intern m.assemblies context
    (⟨·, context, (m.internComponentType operation.owner).1⟩)
  exact (hintact.internAssembly htype context).internAllocation hassembly hcontainer

end Intact

/-- Whatever is interned in whatever order, the model holds together. -/
theorem intact_of_reachable {m : Model} (h : Reachable m) : m.Intact := by
  induction h with
  | empty => exact .empty
  | container host _ ih => exact ih.internContainer host
  | componentType className _ ih => exact ih.internComponentType className
  | operation signature _ htype ih => exact ih.internOperation htype signature
  | assembly name _ htype ih => exact ih.internAssembly htype name
  | allocation _ hassembly hcontainer ih => exact ih.internAllocation hassembly hcontainer
  | resolve host context operation _ ih => exact ih.resolve host context operation

/-- An operation of the class `.a`, interned by hand, and then an execution of the operation of the
class `a` that is written like it. -/
def sharedOperation : Model :=
  let m := (internComponentType {} "a").2
  let (type, m) := m.internComponentType ".a"
  let m := (m.internOperation type ⟨"f", [], none, ["int"]⟩).2
  (m.resolve "srv" "a" ⟨"a", ⟨"f", [], none, ["int"]⟩⟩).2

theorem sharedOperation_intact :
    sharedOperation.componentTypes.entities = [⟨1, "", "a"⟩, ⟨2, "", "a"⟩] ∧
      sharedOperation.operations.entities = [⟨1, ⟨2, "", "a"⟩, ⟨"f", [], none, ["int"]⟩⟩] ∧
      Reachable sharedOperation ∧ sharedOperation.Intact := by
  have htype : Reachable ((internComponentType {} "a").2.internComponentType ".a").2 :=
    .componentType ".a" (.componentType "a" .empty)
  have hreachable : Reachable sharedOperation :=
    .resolve "srv" "a" _ (.operation _ htype (mem_internComponentType _ ".a"))
  exact ⟨by decide, by decide, hreachable, intact_of_reachable hreachable⟩

end Model

end Retrace
