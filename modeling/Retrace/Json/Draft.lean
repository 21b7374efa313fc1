import Retrace.Json.Quoted

/-! What a text says as JSON, read as far as it can be read. A draft is the tree of a text up to its
first defect, with the defect left in place, so that whoever asks the draft for a value of some
shape meets the text's faults in the order in which they stand there: a number where a string was
wanted counts if it comes before the text breaks off, and not otherwise.

A string that cannot be read for a surrogate that stands alone, and a number beyond every double,
are kept as such: they are defects only of values that are wanted. -/

namespace Retrace.Json

inductive Draft where
  | null
  | bool (value : Bool)
  | number (value : Numeral)
  | str (value : Option String)
  | array (items : List Draft) (broken : Option Defect)
  | object (members : List (Option String × Draft)) (broken : Option Defect)
  | defect (what : Defect)
  deriving Repr, Inhabited

namespace Draft

/-- The fault of a value that is not of the shape wanted: its own defect, if it has one at its
start, and otherwise that it is mismatched. An array or object is not looked into. -/
def mismatch : Draft → JsonFault
  | defect what => what.wanted
  | number .excessive => .malformed
  | str none => .malformed
  | _ => .mismatched

mutual

/-- The fault met when the value is skipped. -/
def skip : Draft → Except JsonFault Unit
  | array items broken => skipItems items broken
  | object members broken => skipMembers members broken
  | defect what => .error what.skipped
  | _ => .ok ()

def skipItems : List Draft → Option Defect → Except JsonFault Unit
  | [], none => .ok ()
  | [], some what => .error what.skipped
  | item :: rest, broken =>
    match skip item with
    | .error fault => .error fault
    | .ok () => skipItems rest broken

def skipMembers : List (Option String × Draft) → Option Defect → Except JsonFault Unit
  | [], none => .ok ()
  | [], some what => .error what.skipped
  | (_, value) :: rest, broken =>
    match skip value with
    | .error fault => .error fault
    | .ok () => skipMembers rest broken

end

mutual

/-- The value as it stands, whatever its shape. Arrays and objects may be nested as deep as `room`
says. -/
def value (room : Nat) : Draft → Except JsonFault Json
  | null => .ok .null
  | bool b => .ok (.bool b)
  | number (.int n) => .ok (.int n)
  | number .fraction => .ok .fraction
  | number .excessive => .error .malformed
  | str (some s) => .ok (.str s)
  | str none => .error .malformed
  | array items broken =>
    match room with
    | 0 => .error .malformed
    | room + 1 => (itemValues room items broken).map .array
  | object members broken =>
    match room with
    | 0 => .error .malformed
    | room + 1 => (memberValues room members broken).map .object
  | defect what => .error what.wanted

def itemValues (room : Nat) : List Draft → Option Defect → Except JsonFault (List Json)
  | [], none => .ok []
  | [], some what => .error what.wanted
  | item :: rest, broken =>
    match value room item with
    | .error fault => .error fault
    | .ok v => (itemValues room rest broken).map (v :: ·)

def memberValues (room : Nat) :
    List (Option String × Draft) → Option Defect → Except JsonFault (List (String × Json))
  | [], none => .ok []
  | [], some what => .error what.wanted
  | (none, _) :: _, _ => .error .malformed
  | (some name, member) :: rest, broken =>
    match value room member with
    | .error fault => .error fault
    | .ok v => (memberValues room rest broken).map ((name, v) :: ·)

end

/-- An integer of a signed width. -/
def signed (bits : Nat) : Draft → Except JsonFault Int
  | number (.int n) => if FitsSigned bits n then .ok n else .error .mismatched
  | d => .error d.mismatch

/-- An integer of an unsigned width. -/
def unsigned (bits : Nat) : Draft → Except JsonFault Nat
  | number (.int n) => if FitsUnsigned bits n then .ok n.toNat else .error .mismatched
  | d => .error d.mismatch

def string : Draft → Except JsonFault String
  | str (some s) => .ok s
  | d => .error d.mismatch

def flag : Draft → Except JsonFault Bool
  | bool b => .ok b
  | d => .error d.mismatch

/-- A value or `null`. -/
def optional {α : Type} (read : Draft → Except JsonFault α) : Draft → Except JsonFault (Option α)
  | null => .ok none
  | d => (read d).map some

/-- Reads the items one after the other, and then sees how the array ends. -/
def readItems {α : Type} (read : Draft → Except JsonFault α) :
    List Draft → Option Defect → Except JsonFault (List α)
  | [], none => .ok []
  | [], some what => .error what.wanted
  | item :: rest, broken =>
    match read item with
    | .error fault => .error fault
    | .ok a => (readItems read rest broken).map (a :: ·)

def list {α : Type} (read : Draft → Except JsonFault α) : Draft → Except JsonFault (List α)
  | array items broken => readItems read items broken
  | d => .error d.mismatch

end Draft

mutual

/-- The draft of a value is the value itself, without a defect. -/
def draft : Json → Draft
  | null => .null
  | bool b => .bool b
  | int n => .number (.int n)
  | fraction => .number .fraction
  | str s => .str (some s)
  | array items => .array (draftItems items) none
  | object members => .object (draftMembers members) none

def draftItems : List Json → List Draft
  | [] => []
  | item :: rest => draft item :: draftItems rest

def draftMembers : List (String × Json) → List (Option String × Draft)
  | [] => []
  | (name, value) :: rest => (some name, draft value) :: draftMembers rest

end

end Retrace.Json
