import Retrace.Text.Cut

/-! Operation signatures. Probes name an operation by free text such as
`public static void shop.Cart.add(int, java.lang.String)`. Parsing tells the class that owns the
operation from its signature, so that two spellings of one operation can be compared.

The text before the first opening bracket is the head, the text from there to the last closing
bracket holds the parameters, and what follows is ignored. The last word of the head is the
qualified name, the word before it is the return type unless it is a modifier, and the words before
that are modifiers. Text whose brackets do not pair up this way, or whose parameters run over a line
end, has a head only.

A constructor has no return type. Its qualified name is the class itself, possibly followed by
`.<init>` or `.new`, and its name is the last segment of the class. -/

namespace Retrace

structure Signature where
  name : String
  modifiers : List String
  returnType : Option String
  parameters : List String
  deriving DecidableEq, Repr

structure QualifiedSignature where
  owner : String
  signature : Signature
  deriving DecidableEq, Repr

namespace Signature

/-- The words before a name that say how an operation is declared, not what it returns. -/
def modifierWords : List String :=
  ["public", "protected", "private", "static", "final", "abstract", "synchronized", "native",
    "transient", "volatile", "strictfp", "default"]

def render (s : Signature) : String :=
  String.join (s.modifiers.map (· ++ " ")) ++ (s.returnType.map (· ++ " ")).getD "" ++ s.name ++
    "(" ++ ", ".intercalate s.parameters ++ ")"

end Signature

namespace QualifiedSignature

/-- The head and the text of the parameters, if the brackets pair up. -/
def sections? (text : List Char) : Option (List Char × List Char) :=
  match Text.cutFirst '(' text with
  | none => some (text, [])
  | some (head, rest) =>
    match Text.cutLast ')' rest with
    | none => none
    | some (parameters, tail) =>
      if '(' ∈ tail ∨ '\n' ∈ parameters then none else some (head, parameters)

/-- The pieces between commas that are not blank. -/
def parameterList (text : List Char) : List String :=
  (((text.splitOn ',').map Text.trim).filter (!·.isEmpty)).map String.ofList

/-- The class of a constructor whose qualified name is given. -/
def constructorOwner (name : List Char) : List Char :=
  match Text.cutLast '.' name with
  | some (owner, last) =>
    if last = "<init>".toList ∨ last = "new".toList then owner else name
  | none => name

/-- The owner and the name of the operation whose qualified name is given. -/
def ownerAndName (isConstructor : Bool) (name : List Char) : List Char × List Char :=
  if isConstructor then (constructorOwner name, Text.afterLast '.' (constructorOwner name))
  else (Text.cutLast '.' name).getD ([], name)

/-- The return type and the modifiers among the words before the qualified name. -/
def returnTypeAndModifiers (isConstructor : Bool) (words : List String) :
    Option String × List String :=
  match words.getLast? with
  | none => (none, [])
  | some word =>
    if isConstructor ∨ word ∈ Signature.modifierWords then (none, words)
    else (some word, words.dropLast)

def ofSections (isConstructor : Bool) (head parameters : List Char) : QualifiedSignature :=
  let words := (Text.words head).map String.ofList
  let (owner, name) := ownerAndName isConstructor (words.getLast?.getD "").toList
  let (returnType, modifiers) := returnTypeAndModifiers isConstructor words.dropLast
  { owner := String.ofList owner
    signature :=
      { name := String.ofList name
        modifiers
        returnType
        parameters := parameterList parameters } }

def parse (text : String) (isConstructor : Bool) : QualifiedSignature :=
  match sections? text.toList with
  | some (head, parameters) => ofSections isConstructor head parameters
  | none => ofSections isConstructor (Text.trim text.toList) []

/-- The package of the owner, empty without one. -/
def package (s : QualifiedSignature) : String :=
  match Text.cutLast '.' s.owner.toList with
  | some (package, _) => String.ofList package
  | none => ""

/-- The owner without its package. -/
def simpleOwner (s : QualifiedSignature) : String :=
  String.ofList (Text.afterLast '.' s.owner.toList)

end QualifiedSignature

/-- Do the texts name operations of one class with equal signatures, and so perhaps the same one? -/
def signaturesAgree (callee calleeClass operation operationClass : String)
    (isConstructor : Bool) : Bool :=
  calleeClass == operationClass &&
    (QualifiedSignature.parse callee isConstructor).signature ==
      (QualifiedSignature.parse operation isConstructor).signature

end Retrace
