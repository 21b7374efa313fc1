import Retrace.Program

/-! The program on the files of the system. -/

namespace Retrace.Main

open Program

def readFailure : IO.Error → ReadError
  | .noFileOrDirectory .. => .notFound
  | .inappropriateType .. => .isDirectory
  | .permissionDenied .. => .denied
  | e => .other (toString e)

def readFile (path : String) : IO (Except ReadError String) := do
  try
    let bytes ← IO.FS.readBinFile path
    match String.fromUTF8? bytes with
    | some text => pure (.ok text)
    | none => pure (.error .notText)
  catch e => pure (.error (readFailure e))

def writeFile (path content : String) : IO Bool := do
  try
    IO.FS.writeFile path content
    pure true
  catch _ => pure false

def files : Files IO := ⟨readFile, writeFile⟩

def noticeLine (n : Notice) : String :=
  let details := n.details.map fun (name, value) => s!" {name}={value}"
  s!"{n.level.name} {n.message}{String.join details}"

end Retrace.Main

def main (args : List String) : IO UInt32 := do
  let finish ← Retrace.Program.run Retrace.Main.files args
  let stdout ← IO.getStdout
  let stderr ← IO.getStderr
  for notice in finish.notices do
    stderr.putStrLn (Retrace.Main.noticeLine notice)
  stdout.putStr finish.output
  for diagnostic in finish.diagnostics do
    stderr.putStrLn diagnostic
  return finish.exitCode.toUInt32
