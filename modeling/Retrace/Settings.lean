import Retrace.Json.Basic

/-! How to reconstruct traces. `guessCalls` lets a call marker announce an operation that it names
only up to spelling, and `normaliseConstructors` compares constructors by their class. Workers say
how many traces may be reconstructed at a time; each trace is reconstructed on its own, so their
number does not change what comes out. -/

namespace Retrace

/-- How a call marker is matched to the operation that it announces. -/
structure Matching where
  normaliseConstructors : Bool := true
  guessCalls : Bool := true
  deriving DecidableEq, Repr

structure Settings where
  matching : Matching := {}
  workers : Nat := 1
  ignoreInvalid : Bool := false
  deriving DecidableEq, Repr

namespace Settings

/-- Exact matching only. -/
def strict : Settings :=
  { matching := ⟨false, false⟩ }

/-- What is wrong with the settings as such. -/
def complaint? (s : Settings) : Option String :=
  if s.workers = 0 then some "invalid configuration: workers must be >= 1, got 0" else none

/-- The names of the settings, in order. -/
def names : List String :=
  ["enhance_java_constructors", "enhance_call_detection", "workers", "ignore_invalid_traces"]

/-- Reads settings from an object that has no members of other names, or from an array of settings
in order. Settings that are left out have their defaults. -/
def ofJson? (json : Json) : Option Settings := do
  let known := match json with
    | .object members => members.all fun m => names.contains m.1
    | _ => true
  if known then
    let field ← json.fields? names 0
    let normaliseConstructors ←
      Json.optional Json.bool? true (field "enhance_java_constructors")
    let guessCalls ← Json.optional Json.bool? true (field "enhance_call_detection")
    let workers ← Json.optional (Json.unsigned? 64) 1 (field "workers")
    let ignoreInvalid ← Json.optional Json.bool? false (field "ignore_invalid_traces")
    some { matching := ⟨normaliseConstructors, guessCalls⟩, workers, ignoreInvalid }
  else none

def toJson (s : Settings) : Json :=
  .object [("enhance_java_constructors", .bool s.matching.normaliseConstructors),
    ("enhance_call_detection", .bool s.matching.guessCalls),
    ("workers", .int s.workers), ("ignore_invalid_traces", .bool s.ignoreInvalid)]

end Settings

end Retrace
