import Retrace.Decimal
import Retrace.Settings
import Retrace.Text.Cut

/-! The command line: options and one input file. An option is written long, `--workers 4` or
`--workers=4`, or short, `-j 4`, `-j4` or `-j=4`; short flags may stand together after one dash.
After `--` everything is the input. An argument that starts with a dash and has more to it is never
the value of the option before it.

An option's value is looked at when the next known option or the input comes, or at the end. So an
unknown argument right after a bad value is what is refused. -/

namespace Retrace.CommandLine

inductive Format where
  | text
  | json
  deriving DecidableEq, Repr

namespace Format

def name : Format → String
  | text => "text"
  | json => "json"

end Format

structure Arguments where
  input : String := ""
  config : Option String := none
  workers : Option Nat := none
  verbatimConstructors : Bool := false
  exactCalls : Bool := false
  ignoreInvalid : Bool := false
  select : Option String := none
  format : Format := .text
  summaryOnly : Bool := false
  withoutMessages : Bool := false
  output : Option String := none
  debug : Bool := false
  deriving DecidableEq, Repr

/-- Why a command line is not run, which includes being asked for help. -/
inductive Refusal where
  | missingInput
  | invalidValue
  | notANumber
  | unknownArgument
  | givenTwice
  | valueForFlag
  | helpWanted
  | versionWanted
  deriving DecidableEq, Repr

/-- Options without a value. -/
inductive Flag where
  | verbatimConstructors
  | exactCalls
  | ignoreInvalid
  | summaryOnly
  | withoutMessages
  | debug
  | help
  | version
  deriving DecidableEq, Repr

/-- Options with a value. -/
inductive Valued where
  | config
  | workers
  | select
  | format
  | output
  deriving DecidableEq, Repr

def longFlag? (name : String) : Option Flag :=
  [("no-java-constructors", .verbatimConstructors), ("no-call-detection", .exactCalls),
    ("ignore-invalid", .ignoreInvalid), ("summary", .summaryOnly),
    ("no-messages", .withoutMessages), ("debug", .debug), ("help", .help),
    ("version", .version)].lookup name

def shortFlag? (letter : Char) : Option Flag :=
  [('c', .summaryOnly), ('h', .help), ('V', .version)].lookup letter

def longValued? (name : String) : Option Valued :=
  [("config", .config), ("workers", .workers), ("select-traces", .select), ("format", .format),
    ("output", .output)].lookup name

def shortValued? (letter : Char) : Option Valued :=
  [('j', .workers), ('e', .select), ('o', .output)].lookup letter

/-- What has been read and not looked at yet. -/
inductive Pending where
  | nothing
  | option (which : Valued) (value : Option String)
  | input (path : String)
  deriving DecidableEq, Repr

structure Reading where
  arguments : Arguments := {}
  /-- The options with a value that have been given. -/
  given : List Valued := []
  pending : Pending := .nothing
  /-- Has the input been met, looked at or not? -/
  hasInput : Bool := false
  /-- Is all the rest input? -/
  onlyInput : Bool := false

namespace Reading

def setFlag (a : Arguments) : Flag → Except Refusal Arguments
  | .verbatimConstructors =>
    if a.verbatimConstructors then .error .givenTwice
    else .ok { a with verbatimConstructors := true }
  | .exactCalls => if a.exactCalls then .error .givenTwice else .ok { a with exactCalls := true }
  | .ignoreInvalid =>
    if a.ignoreInvalid then .error .givenTwice else .ok { a with ignoreInvalid := true }
  | .summaryOnly => if a.summaryOnly then .error .givenTwice else .ok { a with summaryOnly := true }
  | .withoutMessages =>
    if a.withoutMessages then .error .givenTwice else .ok { a with withoutMessages := true }
  | .debug => if a.debug then .error .givenTwice else .ok { a with debug := true }
  | .help => .error .helpWanted
  | .version => .error .versionWanted

def readPath (value : String) : Except Refusal String :=
  if value.isEmpty then .error .invalidValue else .ok value

def readFormat (value : String) : Except Refusal Format :=
  if value = "text" then .ok .text
  else if value = "json" then .ok .json
  else .error .invalidValue

def readWorkers (value : String) : Except Refusal Nat :=
  match Decimal.readUnsigned 64 value.toList with
  | .ok n => .ok n
  | .error _ => .error .notANumber

def setValued (a : Arguments) (which : Valued) (value : String) : Except Refusal Arguments :=
  match which with
  | .config => (readPath value).map fun path => { a with config := some path }
  | .workers => (readWorkers value).map fun n => { a with workers := some n }
  | .select => .ok { a with select := some value }
  | .format => (readFormat value).map fun format => { a with format }
  | .output => (readPath value).map fun path => { a with output := some path }

/-- Looks at an option's value. -/
def takeValue (r : Reading) (which : Valued) (value : String) : Except Refusal Reading :=
  if r.given.contains which then .error .givenTwice
  else
    (setValued r.arguments which value).map fun arguments =>
      { r with arguments, given := which :: r.given }

/-- Looks at what is pending. -/
def settle (r : Reading) : Except Refusal Reading :=
  let cleared := { r with pending := .nothing }
  match r.pending with
  | .nothing => .ok r
  | .option _ none => .error .invalidValue
  | .option which (some value) => cleared.takeValue which value
  | .input path =>
    (readPath path).map fun input => { cleared with arguments := { r.arguments with input } }

def takeFlag (r : Reading) (flag : Flag) : Except Refusal Reading :=
  match r.settle with
  | .error why => .error why
  | .ok r => (setFlag r.arguments flag).map fun arguments => { r with arguments }

/-- Takes an option with the value attached to it, or waits for its value. -/
def takeOption (r : Reading) (which : Valued) (attached : Option String) : Except Refusal Reading :=
  match r.settle with
  | .error why => .error why
  | .ok r =>
    match attached with
    | some value => r.takeValue which value
    | none => .ok { r with pending := .option which none }

def takeInput (r : Reading) (path : String) : Except Refusal Reading :=
  if r.hasInput then .error .unknownArgument
  else
    match r.settle with
    | .error why => .error why
    | .ok r => .ok { r with pending := .input path, hasInput := true }

/-- Takes a long option without its dashes. -/
def takeLong (r : Reading) (text : List Char) : Except Refusal Reading :=
  let (name, value) := match Text.cutFirst '=' text with
    | some (name, value) => (String.ofList name, some (String.ofList value))
    | none => (String.ofList text, none)
  match longValued? name with
  | some which => r.takeOption which value
  | none =>
    match longFlag? name with
    | some flag => if value.isSome then .error .valueForFlag else r.takeFlag flag
    | none => .error .unknownArgument

/-- The value attached to a short option. -/
def attached? : List Char → Option String
  | [] => none
  | '=' :: value => some (String.ofList value)
  | value => some (String.ofList value)

/-- Takes the letters after a dash. -/
def takeShort (r : Reading) : List Char → Except Refusal Reading
  | [] => .ok r
  | letter :: rest =>
    match shortValued? letter with
    | some which => r.takeOption which (attached? rest)
    | none =>
      match shortFlag? letter with
      | some flag =>
        match r.takeFlag flag with
        | .error why => .error why
        | .ok r => takeShort r rest
      | none => .error .unknownArgument

/-- Takes an argument that is no option: the value that is waited for, or the input. -/
def takePlain (r : Reading) (arg : String) : Except Refusal Reading :=
  match r.pending with
  | .option which none => .ok { r with pending := .option which (some arg) }
  | _ => r.takeInput arg

def take (r : Reading) (arg : String) : Except Refusal Reading :=
  if r.onlyInput then r.takeInput arg
  else
    match arg.toList with
    | ['-', '-'] => .ok { r with onlyInput := true }
    | '-' :: '-' :: text => r.takeLong text
    | ['-'] => r.takePlain arg
    | '-' :: letters => r.takeShort letters
    | _ => r.takePlain arg

def takeAll (r : Reading) : List String → Except Refusal Reading
  | [] => .ok r
  | arg :: rest =>
    match r.take arg with
    | .error why => .error why
    | .ok r => takeAll r rest

end Reading

/-- Reads the arguments after the program's name. -/
def parse (args : List String) : Except Refusal Arguments :=
  match Reading.takeAll {} args with
  | .error why => .error why
  | .ok r =>
    match r.settle with
    | .error why => .error why
    | .ok r => if r.hasInput then .ok r.arguments else .error .missingInput

namespace Arguments

/-- The settings with what the command line says put over them. -/
def override (a : Arguments) (s : Settings) : Settings :=
  { matching :=
      { normaliseConstructors := s.matching.normaliseConstructors && !a.verbatimConstructors
        guessCalls := s.matching.guessCalls && !a.exactCalls }
    workers := a.workers.getD s.workers
    ignoreInvalid := s.ignoreInvalid || a.ignoreInvalid }

end Arguments

end Retrace.CommandLine
