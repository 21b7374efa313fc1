import Retrace.Json.Reader

/-! Flow events. A probe reports that it enters an operation, leaves it, calls another one, or
splits into a concurrent continuation. Each event carries the id of its trace and its position in
it. Events of a kind that is not known are kept with these, so that they still take part in the
numbering.

Written as JSON, an event is an object whose first member `type` names its kind. Read, it may also
be an array that starts with the name of a known kind. -/

namespace Retrace

inductive OperationKind where
  | operation
  | constructor
  deriving DecidableEq, Repr

namespace OperationKind

def name : OperationKind → String
  | operation => "Operation"
  | constructor => "Constructor"

/-- The kind as it is written in JSON. -/
def wireName : OperationKind → String
  | operation => "operation"
  | constructor => "constructor"

def ofWireName? (name : String) : Option OperationKind :=
  if name = "operation" then some operation
  else if name = "constructor" then some constructor
  else none

end OperationKind

/-- When an event happened, and its place in its trace. -/
structure Stamp where
  timestamp : Int
  traceId : Int
  orderIndex : Int
  deriving DecidableEq, Repr

/-- An operation as a probe names it: its signature and the class it runs on, both free text. -/
structure OperationRef where
  signature : String
  owner : String
  deriving DecidableEq, Repr

inductive Event where
  | before (kind : OperationKind) (stamp : Stamp) (operation : OperationRef)
  | after (kind : OperationKind) (stamp : Stamp) (operation : OperationRef)
  | afterFailed (kind : OperationKind) (stamp : Stamp) (operation : OperationRef) (cause : String)
  | call (kind : OperationKind) (stamp : Stamp) (caller callee : OperationRef)
  | split (stamp : Stamp)
  | unknown (typeName : String) (stamp : Stamp)
  deriving DecidableEq, Repr

namespace Event

def stamp : Event → Stamp
  | before _ stamp _ => stamp
  | after _ stamp _ => stamp
  | afterFailed _ stamp _ _ => stamp
  | call _ stamp _ _ => stamp
  | split stamp => stamp
  | unknown _ stamp => stamp

def timestamp (e : Event) : Int := e.stamp.timestamp

def traceId (e : Event) : Int := e.stamp.traceId

def orderIndex (e : Event) : Int := e.stamp.orderIndex

/-- The operation that reports the event: for a call, the caller. -/
def operation? : Event → Option OperationRef
  | before _ _ operation => some operation
  | after _ _ operation => some operation
  | afterFailed _ _ operation _ => some operation
  | call _ _ caller _ => some caller
  | split _ => none
  | unknown _ _ => none

def callee? : Event → Option OperationRef
  | call _ _ _ callee => some callee
  | _ => none

def cause? : Event → Option String
  | afterFailed _ _ _ cause => some cause
  | _ => none

def kind? : Event → Option OperationKind
  | before kind _ _ => some kind
  | after kind _ _ => some kind
  | afterFailed kind _ _ _ => some kind
  | call kind _ _ _ => some kind
  | split _ => none
  | unknown _ _ => none

def isCall : Event → Bool
  | call .. => true
  | _ => false

def isBefore : Event → Bool
  | before .. => true
  | _ => false

def typeName : Event → String
  | before .operation _ _ => "BeforeOperation"
  | before .constructor _ _ => "BeforeConstructor"
  | after .operation _ _ => "AfterOperation"
  | after .constructor _ _ => "AfterConstructor"
  | afterFailed .operation _ _ _ => "AfterOperationFailed"
  | afterFailed .constructor _ _ _ => "AfterConstructorFailed"
  | call .operation _ _ _ => "CallOperation"
  | call .constructor _ _ _ => "CallConstructor"
  | split _ => "Split"
  | unknown name _ => name

/-! ## The written form -/

/-- The fields of a written event after its type. -/
inductive Layout where
  | operation (make : Stamp → OperationRef → Event)
  | failure (make : Stamp → OperationRef → String → Event)
  | call (make : Stamp → OperationRef → OperationRef → Event)
  | split

/-- What the known types of events look like. -/
def layout? (typeName : String) : Option Layout :=
  if typeName = "BeforeOperation" then some (.operation (before .operation))
  else if typeName = "BeforeConstructor" then some (.operation (before .constructor))
  else if typeName = "AfterOperation" then some (.operation (after .operation))
  else if typeName = "AfterConstructor" then some (.operation (after .constructor))
  else if typeName = "AfterOperationFailed" then some (.failure (afterFailed .operation))
  else if typeName = "AfterConstructorFailed" then some (.failure (afterFailed .constructor))
  else if typeName = "CallOperation" then some (.call (call .operation))
  else if typeName = "CallConstructor" then some (.call (call .constructor))
  else if typeName = "Split" then some .split
  else none

namespace Layout

/-- The names of the fields in order, and how many of them an array has to have. -/
def fields : Layout → List String × Nat
  | operation _ =>
    (["timestamp", "trace_id", "order_index", "operation_signature", "class_signature"], 4)
  | failure _ =>
    (["timestamp", "trace_id", "order_index", "operation_signature", "class_signature", "cause"], 4)
  | call _ =>
    (["timestamp", "trace_id", "order_index", "operation_signature", "class_signature",
      "callee_operation_signature", "callee_class_signature"], 6)
  | split => (["timestamp", "trace_id", "order_index"], 3)

end Layout

def readStamp? (field : String → Option Json) : Option Stamp := do
  let timestamp ← Json.required (Json.signed? 64) (field "timestamp")
  let traceId ← Json.required (Json.signed? 64) (field "trace_id")
  let orderIndex ← Json.required (Json.signed? 32) (field "order_index")
  some ⟨timestamp, traceId, orderIndex⟩

/-- Reads the signature of an operation, and its class, which is empty if left out. -/
def readOperation? (field : String → Option Json) (signature owner : String) :
    Option OperationRef := do
  let signature ← Json.required Json.str? (field signature)
  let owner ← Json.optional Json.str? "" (field owner)
  some ⟨signature, owner⟩

namespace Layout

def read? (layout : Layout) (field : String → Option Json) : Option Event := do
  let stamp ← readStamp? field
  match layout with
  | operation make =>
    let subject ← readOperation? field "operation_signature" "class_signature"
    some (make stamp subject)
  | failure make =>
    let subject ← readOperation? field "operation_signature" "class_signature"
    let cause ← Json.optional Json.str? "" (field "cause")
    some (make stamp subject cause)
  | call make =>
    let caller ← readOperation? field "operation_signature" "class_signature"
    let callee ← readOperation? field "callee_operation_signature" "callee_class_signature"
    some (make stamp caller callee)
  | split => some (.split stamp)

end Layout

/-- Reads an event from an object by its type, known or not. -/
def ofMembers? (members : List (String × Json)) : Option Event := do
  let field := fun name => Json.lastMember? name members
  let typeName ← Json.required Json.str? (field "type")
  match layout? typeName with
  | some layout => layout.read? field
  | none => (readStamp? field).map (unknown typeName)

/-- Reads an event of a known type from an array. -/
def ofItems? (items : List Json) : Option Event :=
  match items with
  | .str typeName :: rest => do
    let layout ← layout? typeName
    let field ← Json.fields? layout.fields.1 layout.fields.2 (.array rest)
    layout.read? field
  | _ => none

def ofJson? : Json → Option Event
  | .object members => ofMembers? members
  | .array items => ofItems? items
  | _ => none

def stampMembers (stamp : Stamp) : List (String × Json) :=
  [("timestamp", .int stamp.timestamp), ("trace_id", .int stamp.traceId),
    ("order_index", .int stamp.orderIndex)]

def operationMembers (operation : OperationRef) : List (String × Json) :=
  [("operation_signature", .str operation.signature), ("class_signature", .str operation.owner)]

def calleeMembers (operation : OperationRef) : List (String × Json) :=
  [("callee_operation_signature", .str operation.signature),
    ("callee_class_signature", .str operation.owner)]

/-- The members of a written event after its type; an event of an unknown type cannot be written. -/
def members? : Event → Option (List (String × Json))
  | before _ stamp operation => some (stampMembers stamp ++ operationMembers operation)
  | after _ stamp operation => some (stampMembers stamp ++ operationMembers operation)
  | afterFailed _ stamp operation cause =>
    some (stampMembers stamp ++ operationMembers operation ++ [("cause", .str cause)])
  | call _ stamp caller callee =>
    some (stampMembers stamp ++ operationMembers caller ++ calleeMembers callee)
  | split stamp => some (stampMembers stamp)
  | unknown _ _ => none

def toJson? (e : Event) : Option Json :=
  e.members?.map fun members => .object (("type", .str e.typeName) :: members)

end Event

end Retrace
