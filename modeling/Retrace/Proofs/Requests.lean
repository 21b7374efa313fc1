import Retrace.Proofs.Registries

/-! Requests in any order. What a model holds after a list of requests does not depend on their
order, up to the ids: the same hosts, classes, operations, contexts and deployments. One thing does
by design. A context has one class, that of the first request for it, so another order may give it
another class if its requests do not agree on one.

Operations and allocations are interned by how they are written. As long as no two of those that are
asked for are written alike they are the same in any order, too. -/

namespace Retrace
open scoped List

/-- A request for all that an execution refers to. -/
structure Request where
  host : String
  context : String
  operation : QualifiedSignature
  deriving DecidableEq, Repr

/-! ## Entities without their ids -/

def ComponentType.unnumbered (t : ComponentType) : ComponentType :=
  { t with id := 0 }

def Operation.unnumbered (o : Operation) : Operation :=
  ⟨0, o.componentType.unnumbered, o.signature⟩

def Assembly.unnumbered (a : Assembly) : Assembly :=
  ⟨0, a.name, a.componentType.unnumbered⟩

/-- How the operation is written. -/
def Operation.written (o : Operation) : String :=
  Model.operationKey o.componentType o.signature

/-- The host and the context of the allocation. -/
def Allocation.place (a : Allocation) : String × String :=
  (a.container.name, a.assembly.name)

theorem ComponentType.unnumbered_ofClassName (className : String) (id : Nat) :
    (ofClassName className id).unnumbered = ofClassName className 0 := by
  unfold ofClassName
  split <;> rfl

namespace Request

variable (r : Request)

/-- The class that is asked for, without an id. -/
def type : ComponentType :=
  ComponentType.ofClassName r.operation.owner 0

/-- The operation that is asked for, without ids. -/
def operationAsked : Operation :=
  ⟨0, r.type, r.operation.signature⟩

/-- The context that is asked for, of the class that is asked for, without ids. -/
def assemblyAsked : Assembly :=
  ⟨0, r.context, r.type⟩

/-- The host and the context that are asked for. -/
def placeAsked : String × String :=
  (r.host, r.context)

end Request

/-- How a host and a context are written together. -/
def writtenPlace (place : String × String) : String :=
  place.1 ++ "::" ++ place.2

namespace Model

/-- The model after some requests. -/
def resolveAll (requests : List Request) : Model :=
  requests.foldl (fun m r => (m.resolve r.host r.context r.operation).2) {}

theorem resolveAll_snoc (requests : List Request) (r : Request) :
    resolveAll (requests ++ [r]) =
      ((resolveAll requests).resolve r.host r.context r.operation).2 :=
  List.foldl_append

/-! ## What a model holds after some requests -/

/-- Does each registry hold what the first of the requests for each name asked for? -/
structure Keeps (m : Model) (requests : List Request) : Prop where
  containers : m.containers.Keeps Container.name (requests.map fun r => (r.host, r.host))
  componentTypes : m.componentTypes.Keeps ComponentType.unnumbered
    (requests.map fun r => (r.operation.owner, r.type))
  operations : m.operations.Keeps Operation.unnumbered
    (requests.map fun r => (r.operationAsked.written, r.operationAsked))
  assemblies : m.assemblies.Keeps Assembly.unnumbered
    (requests.map fun r => (r.context, r.assemblyAsked))
  allocations : m.allocations.Keeps Allocation.place
    (requests.map fun r => (writtenPlace r.placeAsked, r.placeAsked))

theorem Keeps.empty : Keeps {} [] :=
  ⟨.empty, .empty, .empty, .empty, .empty⟩

/-- The class is interned as it was asked for, but for its id. -/
theorem Keeps.internComponentType {m : Model} {requests : List Request} (h : m.Keeps requests)
    (className : String) :
    (m.internComponentType className).1.unnumbered = .ofClassName className 0 :=
  h.componentTypes.interned (f := fun className => .ofClassName className 0)
    (by simp [Request.type]) className _ (ComponentType.unnumbered_ofClassName className)

theorem Keeps.internContainer {m : Model} {requests : List Request} (h : m.Keeps requests)
    (host : String) : (m.internContainer host).1.name = host :=
  h.containers.interned (f := id) (by simp) host (⟨·, host⟩) fun _ => rfl

theorem Keeps.internAssembly {m : Model} {requests : List Request} (h : m.Keeps requests)
    (context : String) (type : ComponentType) : (m.internAssembly context type).1.name = context :=
  (h.assemblies.coarsen Assembly.name).interned (f := id) (by simp [Request.assemblyAsked])
    context (⟨·, context, type⟩) fun _ => rfl

/-- Each registry sees one request, whatever the others hold but for the entities it refers to. -/
theorem resolve_model (m : Model) (host context : String) (operation : QualifiedSignature)
    {container : Container} {type : ComponentType} {assembly : Assembly}
    (hcontainer : (m.internContainer host).1 = container)
    (htype : (m.internComponentType operation.owner).1 = type)
    (hassembly : (m.internAssembly context type).1 = assembly) :
    (m.resolve host context operation).2 =
      { containers := (m.internContainer host).2.containers
        componentTypes := (m.internComponentType operation.owner).2.componentTypes
        operations := (m.internOperation type operation.signature).2.operations
        assemblies := (m.internAssembly context type).2.assemblies
        allocations := (m.internAllocation assembly container).2.allocations } := by
  subst hcontainer htype hassembly
  rfl

theorem Keeps.resolve {m : Model} {requests : List Request} (h : m.Keeps requests) (r : Request) :
    (m.resolve r.host r.context r.operation).2.Keeps (requests ++ [r]) := by
  obtain ⟨container, hcontainer⟩ : ∃ c, (m.internContainer r.host).1 = c := ⟨_, rfl⟩
  obtain ⟨type, htype⟩ : ∃ t, (m.internComponentType r.operation.owner).1 = t := ⟨_, rfl⟩
  obtain ⟨assembly, hassembly⟩ : ∃ a, (m.internAssembly r.context type).1 = a := ⟨_, rfl⟩
  have hhost : container.name = r.host := hcontainer ▸ h.internContainer r.host
  have hclass : type.unnumbered = r.type := htype ▸ h.internComponentType r.operation.owner
  have hcontext : assembly.name = r.context := hassembly ▸ h.internAssembly r.context type
  rw [resolve_model m r.host r.context r.operation hcontainer htype hassembly]
  constructor <;> rw [List.map_append, List.map_singleton]
  case containers => exact h.containers.intern r.host (⟨·, r.host⟩) fun _ => rfl
  case componentTypes =>
    exact h.componentTypes.intern r.operation.owner (.ofClassName r.operation.owner)
      (ComponentType.unnumbered_ofClassName _)
  case operations =>
    have hasked (id : Nat) :
        (⟨id, type, r.operation.signature⟩ : Operation).unnumbered = r.operationAsked := by
      rw [Operation.unnumbered, hclass]
      rfl
    have hkey : Model.operationKey type r.operation.signature = r.operationAsked.written := by
      rw [← hasked 0]
      rfl
    rw [← hkey]
    exact h.operations.intern _ (⟨·, type, r.operation.signature⟩) hasked
  case assemblies =>
    refine h.assemblies.intern r.context (⟨·, r.context, type⟩) fun id => ?_
    rw [Assembly.unnumbered, hclass]
    rfl
  case allocations =>
    have hasked (id : Nat) : (⟨id, assembly, container⟩ : Allocation).place = r.placeAsked := by
      rw [Allocation.place, hhost, hcontext]
      rfl
    have hkey : allocationKey assembly container = writtenPlace r.placeAsked := by
      rw [← hasked 0]
      rfl
    rw [← hkey]
    exact h.allocations.intern _ (⟨·, assembly, container⟩) hasked

theorem keeps_resolveAll (requests : List Request) : (resolveAll requests).Keeps requests := by
  induction requests using List.reverseRecOn with
  | nil => exact .empty
  | append_singleton requests r ih => exact resolveAll_snoc requests r ▸ ih.resolve r

/-! ## Requests in another order -/

/-- Do the models hold the same hosts, classes, operations, contexts and deployments, whatever their
ids are? -/
structure Alike (m n : Model) : Prop where
  containers : ∀ host, host ∈ m.containers.entities.map Container.name ↔
    host ∈ n.containers.entities.map Container.name
  componentTypes : ∀ t, t ∈ m.componentTypes.entities.map ComponentType.unnumbered ↔
    t ∈ n.componentTypes.entities.map ComponentType.unnumbered
  operations : ∀ o, o ∈ m.operations.entities.map Operation.unnumbered ↔
    o ∈ n.operations.entities.map Operation.unnumbered
  assemblies : ∀ a, a ∈ m.assemblies.entities.map Assembly.unnumbered ↔
    a ∈ n.assemblies.entities.map Assembly.unnumbered
  allocations : ∀ place, place ∈ m.allocations.entities.map Allocation.place ↔
    place ∈ n.allocations.entities.map Allocation.place

/-- Do all requests under a name ask for the same? -/
def Settled {β : Type} (requests : List Request) (key : Request → String) (asked : Request → β)
    (name : String) : Prop :=
  ∀ r ∈ requests, ∀ r' ∈ requests, key r = name → key r' = name → asked r = asked r'

theorem Settled.pairs {β : Type} {requests : List Request} {key : Request → String}
    {asked : Request → β} {name : String} (h : Settled requests key asked name) :
    ∀ p ∈ requests.map fun r => (key r, asked r), ∀ q ∈ requests.map fun r => (key r, asked r),
      p.1 = name → q.1 = name → p.2 = q.2 := by
  intro p hp q hq hpname hqname
  obtain ⟨r, hr, rfl⟩ := List.mem_map.mp hp
  obtain ⟨r', hr', rfl⟩ := List.mem_map.mp hq
  exact h r hr r' hr' hpname hqname

/-- Do the models agree on all that some requests say in any order? Hosts, classes and the names of
contexts are the same, and so is how operations and allocations are written. What is interned under
a name is the same, too, if all requests under it ask for the same. -/
structure AgreeOn (requests : List Request) (m n : Model) : Prop where
  containers : m.containers.entities.map Container.name ~ n.containers.entities.map Container.name
  componentTypes : m.componentTypes.entities.map ComponentType.unnumbered ~
    n.componentTypes.entities.map ComponentType.unnumbered
  operationsWritten : m.operations.entities.map Operation.written ~
    n.operations.entities.map Operation.written
  operations : ∀ o, Settled requests (·.operationAsked.written) (·.operationAsked) o.written →
    (o ∈ m.operations.entities.map Operation.unnumbered ↔
      o ∈ n.operations.entities.map Operation.unnumbered)
  contexts : m.assemblies.entities.map Assembly.name ~ n.assemblies.entities.map Assembly.name
  assemblies : ∀ a : Assembly, Settled requests (·.context) (·.type) a.name →
    (a ∈ m.assemblies.entities.map Assembly.unnumbered ↔
      a ∈ n.assemblies.entities.map Assembly.unnumbered)
  allocationsWritten : m.allocations.entities.map Allocation.name ~
    n.allocations.entities.map Allocation.name
  allocations : ∀ place,
    Settled requests (writtenPlace ·.placeAsked) (·.placeAsked) (writtenPlace place) →
      (place ∈ m.allocations.entities.map Allocation.place ↔
        place ∈ n.allocations.entities.map Allocation.place)

variable {requests requests' : List Request}

theorem agreeOn_of_perm (h : requests ~ requests') :
    AgreeOn requests (resolveAll requests) (resolveAll requests') := by
  have hm := keeps_resolveAll requests
  have hn := keeps_resolveAll requests'
  constructor
  case containers => exact hm.containers.entities_perm hn.containers (h.map _) (f := id) (by simp)
  case componentTypes =>
    exact hm.componentTypes.entities_perm hn.componentTypes (h.map _)
      (f := fun className => .ofClassName className 0) (by simp [Request.type])
  case operationsWritten =>
    exact (hm.operations.coarsen Operation.written).entities_perm
      (hn.operations.coarsen Operation.written) ((h.map _).map _) (f := id) (by simp)
  case operations =>
    intro o ho
    exact hm.operations.mem_entities_iff_of_settled hn.operations (h.map _) (f := Operation.written)
      (by simp) ho.pairs
  case contexts =>
    exact (hm.assemblies.coarsen Assembly.name).entities_perm
      (hn.assemblies.coarsen Assembly.name) ((h.map _).map _) (f := id)
      (by simp [Request.assemblyAsked])
  case assemblies =>
    intro a ha
    have hasked : Settled requests (·.context) (·.assemblyAsked) a.name := by
      intro r hr r' hr' hname hname'
      have hcontext : r.context = r'.context := hname.trans hname'.symm
      have htype : r.type = r'.type := ha r hr r' hr' hname hname'
      change (⟨0, r.context, r.type⟩ : Assembly) = ⟨0, r'.context, r'.type⟩
      rw [hcontext, htype]
    exact hm.assemblies.mem_entities_iff_of_settled hn.assemblies (h.map _) (f := Assembly.name)
      (by simp [Request.assemblyAsked]) hasked.pairs
  case allocationsWritten =>
    exact (hm.allocations.coarsen writtenPlace).entities_perm
      (hn.allocations.coarsen writtenPlace) ((h.map _).map _) (f := id) (by simp)
  case allocations =>
    intro place hplace
    exact hm.allocations.mem_entities_iff_of_settled hn.allocations (h.map _) (f := writtenPlace)
      (by simp) hplace.pairs

/-- Does the model hold what was asked for and nothing else, and has each context the class that the
first of the requests for it names? -/
structure Answers (requests : List Request) (m : Model) : Prop where
  containers : ∀ host, host ∈ m.containers.entities.map Container.name ↔
    host ∈ requests.map Request.host
  componentTypes : ∀ t, t ∈ m.componentTypes.entities.map ComponentType.unnumbered ↔
    t ∈ requests.map Request.type
  operationsWritten : ∀ name, name ∈ m.operations.entities.map Operation.written ↔
    name ∈ requests.map (·.operationAsked.written)
  operations : ∀ o ∈ m.operations.entities, o.unnumbered ∈ requests.map Request.operationAsked
  contexts : ∀ name, name ∈ m.assemblies.entities.map Assembly.name ↔
    name ∈ requests.map Request.context
  assemblies : ∀ a ∈ m.assemblies.entities,
    ∃ r, requests.find? (·.context = a.name) = some r ∧ a.unnumbered = r.assemblyAsked
  allocationsWritten : ∀ name, name ∈ m.allocations.entities.map Allocation.name ↔
    name ∈ requests.map (writtenPlace ·.placeAsked)
  allocations : ∀ a ∈ m.allocations.entities, a.place ∈ requests.map Request.placeAsked

theorem assembly_first {a : Assembly} (ha : a ∈ (resolveAll requests).assemblies.entities) :
    ∃ r, requests.find? (·.context = a.name) = some r ∧ a.unnumbered = r.assemblyAsked := by
  have hkeeps := (keeps_resolveAll requests).assemblies
  obtain ⟨name, hlookup⟩ := hkeeps.mem_entities.mp (List.mem_map_of_mem ha)
  rw [Registry.lookup_map_find?, Option.map_eq_some_iff] at hlookup
  obtain ⟨r, hfind, hr⟩ := hlookup
  have hcontext : r.context = name := by simpa using List.find?_some hfind
  have hname : a.name = name := hcontext ▸ congrArg Assembly.name hr.symm
  exact ⟨r, hname ▸ hfind, hr.symm⟩

theorem answers_resolveAll (requests : List Request) :
    Answers requests (resolveAll requests) := by
  have h := keeps_resolveAll requests
  constructor
  case containers =>
    intro host
    rw [h.containers.mem_entities_iff (f := id) (by simp), List.map_map]
    rfl
  case componentTypes =>
    intro t
    rw [h.componentTypes.mem_entities_iff (f := fun className => .ofClassName className 0)
      (by simp [Request.type]), List.map_map]
    rfl
  case operationsWritten =>
    intro name
    have hwritten := (h.operations.coarsen Operation.written).mem_entities_iff (b := name)
      (f := id) (by simp)
    rw [List.map_map, List.map_map] at hwritten
    exact hwritten
  case operations =>
    intro o ho
    have hasked := h.operations.mem_asked ho
    rw [List.map_map] at hasked
    exact hasked
  case contexts =>
    intro name
    have hnamed := (h.assemblies.coarsen Assembly.name).mem_entities_iff (b := name)
      (f := id) (by simp [Request.assemblyAsked])
    rw [List.map_map, List.map_map] at hnamed
    exact hnamed
  case assemblies => exact fun a ha => assembly_first ha
  case allocationsWritten =>
    intro name
    have hwritten := (h.allocations.coarsen writtenPlace).mem_entities_iff (b := name)
      (f := id) (by simp)
    rw [List.map_map, List.map_map] at hwritten
    exact hwritten
  case allocations =>
    intro a ha
    have hasked := h.allocations.mem_asked ha
    rw [List.map_map] at hasked
    exact hasked

/-- In any order, requests come to models that hold what was asked for and agree on all that is not
decided by who was first. -/
theorem resolveAll_perm (h : requests ~ requests') :
    AgreeOn requests (resolveAll requests) (resolveAll requests') ∧
      Answers requests (resolveAll requests) ∧ Answers requests' (resolveAll requests') :=
  ⟨agreeOn_of_perm h, answers_resolveAll requests, answers_resolveAll requests'⟩

/-! A cart and a box in one context, and the cart in its own. The constructor of a class, and an
operation that returns nothing and is called like it. A context that looks like the end of a host,
and a host that does. -/

def cartOnShelf : Request :=
  ⟨"srv", "shelf", ⟨"shop.Cart", ⟨"add", [], some "void", ["int"]⟩⟩⟩

def boxOnShelf : Request :=
  ⟨"srv", "shelf", ⟨"shop.Box", ⟨"open", [], some "void", []⟩⟩⟩

def cartAlone : Request :=
  ⟨"srv", "shop.Cart", ⟨"shop.Cart", ⟨"add", [], some "void", ["int"]⟩⟩⟩

def constructor : Request :=
  ⟨"srv", "p.C", ⟨"p.C", ⟨"C", ["void"], none, []⟩⟩⟩

def namesake : Request :=
  ⟨"srv", "p.C", ⟨"p.C", ⟨"C", [], some "void", []⟩⟩⟩

def longContext : Request :=
  ⟨"srv", "a::b", ⟨"p.C", ⟨"f", [], none, []⟩⟩⟩

def longHost : Request :=
  ⟨"srv::a", "b", ⟨"p.C", ⟨"f", [], none, []⟩⟩⟩

theorem shelf_perm :
    [cartOnShelf, boxOnShelf, cartAlone] ~ [cartAlone, boxOnShelf, cartOnShelf] ∧
      AgreeOn [cartOnShelf, boxOnShelf, cartAlone]
        (resolveAll [cartOnShelf, boxOnShelf, cartAlone])
        (resolveAll [cartAlone, boxOnShelf, cartOnShelf]) ∧
      Answers [cartOnShelf, boxOnShelf, cartAlone]
        (resolveAll [cartOnShelf, boxOnShelf, cartAlone]) ∧
      Answers [cartAlone, boxOnShelf, cartOnShelf]
        (resolveAll [cartAlone, boxOnShelf, cartOnShelf]) := by
  have hperm : [cartOnShelf, boxOnShelf, cartAlone] ~ [cartAlone, boxOnShelf, cartOnShelf] := by
    decide
  exact ⟨hperm, resolveAll_perm hperm⟩

/-- Another order may give a context another class. Of two operations that are written alike, and of
two places that are, it is the first one that is kept. -/
theorem not_alike_of_perm :
    (¬ ∀ requests requests' : List Request, requests ~ requests' →
      (resolveAll requests).Alike (resolveAll requests')) ∧
    (¬ ∀ requests requests' : List Request, requests ~ requests' →
      ∀ o, o ∈ (resolveAll requests).operations.entities.map Operation.unnumbered ↔
        o ∈ (resolveAll requests').operations.entities.map Operation.unnumbered) ∧
    (¬ ∀ requests requests' : List Request, requests ~ requests' →
      ∀ place, place ∈ (resolveAll requests).allocations.entities.map Allocation.place ↔
        place ∈ (resolveAll requests').allocations.entities.map Allocation.place) := by
  refine ⟨fun h => ?context, fun h => ?operation, fun h => ?place⟩
  case context =>
    have hshelf := (h [cartOnShelf, boxOnShelf] [boxOnShelf, cartOnShelf]
      (List.Perm.swap ..)).assemblies cartOnShelf.assemblyAsked
    revert hshelf
    decide
  case operation =>
    have hwritten := h [constructor, namesake] [namesake, constructor] (List.Perm.swap ..)
      constructor.operationAsked
    revert hwritten
    decide
  case place =>
    have hwritten := h [longContext, longHost] [longHost, longContext] (List.Perm.swap ..)
      longContext.placeAsked
    revert hwritten
    decide

end Model

end Retrace
