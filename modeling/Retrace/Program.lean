import Retrace.CommandLine
import Retrace.Report.Document
import Retrace.Report.Text
import Retrace.Settings.File

/-! The program: from a command line to a report. It reads the settings file if one is named, puts
the command line over it, reads the selection and the input, reconstructs, and writes the report.
The first of these steps that fails is the one that is told. If all went well, it still fails for
traces that failed, unless it is told to ignore them.

Files are reached through `Files` only, so the program runs as well on files that are kept in
memory. -/

namespace Retrace.Program

/-- Why a file cannot be read. -/
inductive ReadError where
  | notFound
  | isDirectory
  | notADirectory
  | denied
  | notText
  | other (message : String)
  deriving DecidableEq, Repr

namespace ReadError

def message : ReadError → String
  | notFound => "No such file or directory (os error 2)"
  | isDirectory => "Is a directory (os error 21)"
  | notADirectory => "Not a directory (os error 20)"
  | denied => "Permission denied (os error 13)"
  | notText => "stream did not contain valid UTF-8"
  | other message => message

end ReadError

/-- How files are read and written. Writing answers whether it was done. -/
structure Files (m : Type → Type) where
  read : String → m (Except ReadError String)
  write : String → String → m Bool

inductive SettingsError where
  | unreadable (path : String) (why : ReadError)
  | unparsable (path : String)
  | invalid (complaint : String)
  deriving DecidableEq, Repr

namespace SettingsError

def message : SettingsError → String
  | unreadable path why => s!"failed to read config file {path}: {why.message}"
  | unparsable path => s!"failed to parse config file {path}: TOML parse error"
  | invalid complaint => complaint

end SettingsError

/-- Why the program stops before its end. -/
inductive Failure where
  | settings (error : SettingsError)
  | selection (error : SelectionError)
  | unreadable (path : String) (why : ReadError)
  | notTraces (path : String) (error : BatchError)
  | unwritable (path : String)
  deriving DecidableEq, Repr

namespace Failure

def message : Failure → String
  | settings error => error.message
  | selection error => error.message
  | unreadable path _ => s!"Failed to read trace input: {path}"
  | notTraces path _ => s!"Invalid trace input: {path}"
  | unwritable path => s!"Failed to write output: {path}"

/-- What lies behind the failure, as far as the message does not say it. -/
def cause? : Failure → Option String
  | settings _ => none
  | selection error => error.cause?.map (·.message)
  | unreadable _ why => some why.message
  | notTraces _ error => some error.message
  | unwritable _ => none

/-- The failure as it is told to the user. -/
def diagnostic (f : Failure) : String :=
  let cause := (f.cause?.map ("\n\nCaused by:\n    " ++ ·)).getD ""
  s!"Error: {f.message}{cause}"

end Failure

/-- How the program ends. -/
structure Finish where
  exitCode : Nat
  output : String := ""
  diagnostics : List String := []
  /-- What is told about the traces on the way. -/
  notices : List Notice := []
  deriving DecidableEq, Repr

def checkSettings (s : Settings) : Except SettingsError Settings :=
  match s.complaint? with
  | some complaint => .error (.invalid complaint)
  | none => .ok s

/-- The settings in what was read of a settings file. -/
def settingsOf (path : String) : Except ReadError String → Except SettingsError Settings
  | .error why => .error (.unreadable path why)
  | .ok content =>
    match Settings.ofText? content with
    | some s => checkSettings s
    | none => .error (.unparsable path)

/-- The batches in what was read of an input file. -/
def batchesOf (path : String) : Except ReadError String → Except Failure (List Batch)
  | .error why => .error (.unreadable path why)
  | .ok content =>
    match Batch.readAll content with
    | .ok batches => .ok batches
    | .error error => .error (.notTraces path error)

def selectionOf (expression : Option String) : Except Failure Selection :=
  match expression with
  | none => .ok .all
  | some expression =>
    match Selection.parse expression with
    | .ok selection => .ok selection
    | .error error => .error (.selection error)

/-- The report without its last line end. -/
def report (a : CommandLine.Arguments) (r : Reconstruction) : String :=
  match a.format with
  | .json => (Report.Document.ofReconstruction r !a.summaryOnly).write
  | .text =>
    let texts := if a.summaryOnly then [] else r.outcomes.map (Report.text · !a.withoutMessages)
    String.join texts ++ Report.summary r.tallies

/-- Is a notice told to a user who may have asked for all of them? -/
def isTold (debug : Bool) (n : Notice) : Bool :=
  debug || n.level != .debug

/-- The end of a run whose report has been written. -/
def verdict (debug : Bool) (s : Settings) (r : Reconstruction) (output : String) : Finish :=
  let failed := r.tallies.failed
  let notices := r.notices.filter (isTold debug)
  if 0 < failed && !s.ignoreInvalid then
    { exitCode := 1, output, notices
      diagnostics := [s!"flowtrace: {failed} trace(s) could not be reconstructed"] }
  else { exitCode := 0, output, notices }

def stop (f : Failure) : Finish :=
  { exitCode := 1, diagnostics := [f.diagnostic] }

def usage : String :=
  "Reconstruct execution and message traces from monitored flow events

Usage: flowtrace [OPTIONS] <INPUT>

Arguments:
  <INPUT>  Trace batches to read: a JSON array or one JSON document per line

Options:
      --config <TOML>         Reconstruction settings (TOML)
  -j, --workers <N>           Number of traces reconstructed in parallel
      --no-java-constructors  Compare constructor signatures verbatim
      --no-call-detection     Only match call markers that reference the callee exactly
      --ignore-invalid        Do not fail the run when traces are invalid
  -e, --select-traces <EXPR>  Traces to reconstruct (e.g., --select-traces select=1,2,10-20)
      --format <FORMAT>       Output format (text or json) [default: text]
  -c, --summary               Show only the summary of outcomes
      --no-messages           Omit call and reply messages from text output
  -o, --output <FILE>         Write output to a file instead of stdout
      --debug                 Enable debug logging
  -h, --help                  Print help
  -V, --version               Print version
"

/-- How a command line that is not run ends. -/
def refuse : CommandLine.Refusal → Finish
  | .helpWanted => { exitCode := 0, output := usage }
  | .versionWanted => { exitCode := 0, output := s!"flowtrace {Report.programVersion}\n" }
  | _ => { exitCode := 2, diagnostics := [usage] }

section

variable {m : Type → Type} [Monad m] (files : Files m)

/-- The settings that a run goes by. -/
def loadSettings (a : CommandLine.Arguments) : m (Except SettingsError Settings) := do
  let fromFile ← match a.config with
    | none => pure (.ok {})
    | some path => do
      let content ← files.read path
      pure (settingsOf path content)
  match fromFile with
  | .error error => pure (.error error)
  | .ok s => pure (checkSettings (a.override s))

/-- Reconstructs the batches of the input and writes the report. -/
def work (a : CommandLine.Arguments) (s : Settings) (selection : Selection) : m Finish := do
  let content ← files.read a.input
  match batchesOf a.input content with
  | .error f => pure (stop f)
  | .ok batches =>
    let r := Reconstruction.ofBatches s selection batches
    let text := report a r ++ "\n"
    match a.output with
    | none => pure (verdict a.debug s r text)
    | some path => do
      let written ← files.write path text
      pure (if written then verdict a.debug s r "" else stop (.unwritable path))

/-- Runs the program with the arguments after its name. -/
def run (args : List String) : m Finish := do
  match CommandLine.parse args with
  | .error why => pure (refuse why)
  | .ok a =>
    let settings ← loadSettings files a
    match settings with
    | .error error => pure (stop (.settings error))
    | .ok s =>
      match selectionOf a.select with
      | .error f => pure (stop f)
      | .ok selection => work files a s selection

end

end Retrace.Program
