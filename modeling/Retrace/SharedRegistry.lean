import Retrace.Model

/-! A registry with many callers. A call asks for the entity of a name and knows how to make it from
an id. First it looks for the name, as any number of calls may do at once. Only if there is none it
comes back later and enters, which one call does at a time. Since others may have been faster it
looks again, and makes the entity only if there is still none. Ids are taken from a counter of 32
bits, and none is taken for an entity that is not made.

A call receives a handle. Handles are the same if they come from one making; that the entities look
alike is not enough. -/

namespace Retrace

/-- Entities with an id. -/
class HasId (α : Type) where
  id : α → Nat

instance : HasId Container := ⟨Container.id⟩
instance : HasId ComponentType := ⟨ComponentType.id⟩
instance : HasId Operation := ⟨Operation.id⟩
instance : HasId Assembly := ⟨Assembly.id⟩
instance : HasId Allocation := ⟨Allocation.id⟩

/-- An entity, and which making it comes from. -/
structure Handle (α : Type) where
  making : Nat
  entity : α
  deriving DecidableEq, Repr

/-- A call, and what it has received. It has received nothing while it is between its two looks. -/
structure Call (α : Type) where
  name : String
  make : Nat → α
  answer : Option (Handle α) := none

structure SharedRegistry (α : Type) where
  registry : Registry (Handle α) := {}
  nextId : UInt32 := 1
  /-- What was made so far: for which names, and with which ids. -/
  makings : List (String × Nat) := []
  calls : List (Call α) := []

namespace SharedRegistry

variable {α : Type}

/-- The handle of a name, made with the next id if there is none yet. -/
def enter (s : SharedRegistry α) (name : String) (make : Nat → α) : Handle α × SharedRegistry α :=
  match s.registry.find? name with
  | some handle => (handle, s)
  | none =>
    let id := s.nextId.toNat
    let handle : Handle α := ⟨s.makings.length, make id⟩
    (handle, { s with
      registry := ⟨s.registry.entries ++ [(name, handle)]⟩
      nextId := s.nextId + 1
      makings := s.makings ++ [(name, id)] })

inductive Turn (α : Type) where
  /-- A new call looks for its name. -/
  | look (name : String) (make : Nat → α)
  /-- The call at a position, which has found nothing, enters. -/
  | enter (position : Nat)

/-- Takes a turn. A call that has its answer takes no more. -/
def turn (s : SharedRegistry α) : Turn α → Option (SharedRegistry α)
  | .look name make => some { s with calls := s.calls ++ [⟨name, make, s.registry.find? name⟩] }
  | .enter position =>
    match s.calls[position]? with
    | some ⟨name, make, none⟩ =>
      let (handle, s) := s.enter name make
      some { s with calls := s.calls.set position ⟨name, make, some handle⟩ }
    | _ => none

/-- Takes turns, in any order in which there are some to take. -/
def run (s : SharedRegistry α) : List (Turn α) → Option (SharedRegistry α)
  | [] => some s
  | t :: turns => (s.turn t).bind (·.run turns)

/-- A listing of handles in any order, sorted by id. -/
def sortedById [HasId α] (listing : List (Handle α)) : List (Handle α) :=
  listing.mergeSort fun a b => HasId.id a.entity ≤ HasId.id b.entity

end SharedRegistry

end Retrace
