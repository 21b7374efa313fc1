import Retrace.Signature

/-! The system model: the hosts, classes, operations and deployments that executions refer to.
Entities are interned: asking twice for one name gives one entity, made at the first request and
never changed. Within its registry, an entity's id is its rank in the order of first requests,
counted from one; the id zero is left to the entities of the root execution, which are in no
registry. -/

namespace Retrace

/-- A host. -/
structure Container where
  id : Nat
  name : String
  deriving DecidableEq, Repr

/-- A class. -/
structure ComponentType where
  id : Nat
  package : String
  name : String
  deriving DecidableEq, Repr

/-- An operation of a class. -/
structure Operation where
  id : Nat
  componentType : ComponentType
  signature : Signature
  deriving DecidableEq, Repr

/-- A named instance of a class: the context in which operations run. -/
structure Assembly where
  id : Nat
  name : String
  componentType : ComponentType
  deriving DecidableEq, Repr

/-- A context on a host. -/
structure Allocation where
  id : Nat
  assembly : Assembly
  container : Container
  deriving DecidableEq, Repr

namespace ComponentType

def fullName (t : ComponentType) : String :=
  if t.package.isEmpty then t.name else t.package ++ "." ++ t.name

/-- The type of a class, whose package ends at the last dot of its name. -/
def ofClassName (className : String) (id : Nat) : ComponentType :=
  match Text.cutLast '.' className.toList with
  | some (package, name) => ⟨id, String.ofList package, String.ofList name⟩
  | none => ⟨id, "", className⟩

end ComponentType

namespace Allocation

def name (a : Allocation) : String :=
  a.container.name ++ "::" ++ a.assembly.name

end Allocation

/-- Interned entities by name, in the order of first requests. -/
structure Registry (α : Type) where
  entries : List (String × α) := []
  deriving DecidableEq, Repr

namespace Registry

variable {α : Type}

def size (r : Registry α) : Nat :=
  r.entries.length

def isEmpty (r : Registry α) : Bool :=
  r.entries.isEmpty

def find? (r : Registry α) (name : String) : Option α :=
  r.entries.lookup name

/-- The entities, by id. -/
def entities (r : Registry α) : List α :=
  r.entries.map (·.2)

/-- The entity of a name, made with the next id if there is none yet. -/
def intern (r : Registry α) (name : String) (make : Nat → α) : α × Registry α :=
  match r.find? name with
  | some entity => (entity, r)
  | none =>
    let entity := make (r.size + 1)
    (entity, ⟨r.entries ++ [(name, entity)]⟩)

end Registry

structure Model where
  containers : Registry Container := {}
  componentTypes : Registry ComponentType := {}
  operations : Registry Operation := {}
  assemblies : Registry Assembly := {}
  allocations : Registry Allocation := {}
  deriving DecidableEq, Repr

namespace Model

def internContainer (m : Model) (host : String) : Container × Model :=
  let (container, containers) := m.containers.intern host fun id => ⟨id, host⟩
  (container, { m with containers })

def internComponentType (m : Model) (className : String) : ComponentType × Model :=
  let (type, componentTypes) :=
    m.componentTypes.intern className (ComponentType.ofClassName className)
  (type, { m with componentTypes })

/-- The name under which an operation is interned. -/
def operationKey (type : ComponentType) (signature : Signature) : String :=
  type.fullName ++ "#" ++ signature.render

def internOperation (m : Model) (type : ComponentType) (signature : Signature) :
    Operation × Model :=
  let (operation, operations) :=
    m.operations.intern (operationKey type signature) fun id => ⟨id, type, signature⟩
  (operation, { m with operations })

def internAssembly (m : Model) (name : String) (type : ComponentType) : Assembly × Model :=
  let (assembly, assemblies) := m.assemblies.intern name fun id => ⟨id, name, type⟩
  (assembly, { m with assemblies })

/-- The name under which an allocation is interned. -/
def allocationKey (assembly : Assembly) (container : Container) : String :=
  container.name ++ "::" ++ assembly.name

def internAllocation (m : Model) (assembly : Assembly) (container : Container) :
    Allocation × Model :=
  let (allocation, allocations) :=
    m.allocations.intern (allocationKey assembly container) fun id => ⟨id, assembly, container⟩
  (allocation, { m with allocations })

/-- What an execution of an operation in a context on a host refers to. -/
structure Resolved where
  allocation : Allocation
  operation : Operation
  deriving DecidableEq, Repr

/-- Interns all that an execution refers to. -/
def resolve (m : Model) (host context : String) (operation : QualifiedSignature) :
    Resolved × Model :=
  let (container, m) := m.internContainer host
  let (type, m) := m.internComponentType operation.owner
  let (operation, m) := m.internOperation type operation.signature
  let (assembly, m) := m.internAssembly context type
  let (allocation, m) := m.internAllocation assembly container
  (⟨allocation, operation⟩, m)

/-! ## The root execution's entities -/

def rootName : String := "$"

def rootType : ComponentType := ⟨0, "", rootName⟩

def rootOperation : Operation := ⟨0, rootType, ⟨rootName, [], none, []⟩⟩

def rootAllocation : Allocation := ⟨0, ⟨0, rootName, rootType⟩, ⟨0, rootName⟩⟩

end Model

end Retrace
