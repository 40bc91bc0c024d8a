import Userstyle.Cli.Run

/-!
# The program

The outer layer of the command line: it reads files, hands their texts to the command, and writes
what the command hands back.
-/

namespace Userstyle.Cli

/-- What went wrong with a file. -/
def FileFault.ofError : IO.Error → FileFault
  | .noFileOrDirectory .. => .notFound
  | .inappropriateType _ 20 _ => .notDirectory
  | .inappropriateType _ 21 _ => .isDirectory
  | e => .other (toString e)

/-- Reads a file of the machine. -/
def readFile (path : String) : IO (Except FileFault String) := do
  try
    let bytes ← IO.FS.readBinFile path
    match String.fromUTF8? bytes with
    | some text => return .ok text
    | none => return .error .notText
  catch e => return .error (.ofError e)

/-- Writes a file of the machine. -/
def writeFile (path text : String) : IO (Except FileFault Unit) := do
  try
    IO.FS.writeFile path text
    return .ok ()
  catch e => return .error (.ofError e)

/-- The files that a command reads. -/
def Command.sources : Command → List String
  | .convert o => o.config.toList ++ [o.input]
  | .inspect o => [o.input]

/-- Carries out a command on the machine. -/
def Invocation.perform (i : Invocation) : IO UInt32 := do
  let texts ← i.command.sources.mapM fun path => return (path, ← readFile path)
  let plan := i.command.plan fun path => (texts.lookup path).getD (.error .notFound)
  IO.eprint (logText i.verbose plan.events)
  match plan.result with
  | .error message =>
    IO.eprint (errorText message)
    return failureStatus.toUInt32
  | .ok (.report text) =>
    IO.print text
    return 0
  | .ok (.script s output) =>
    match output with
    | none => IO.print s.text
    | some path =>
      if let .error fault ← writeFile path s.text then
        IO.eprint (errorText (createMessage path fault))
        return failureStatus.toUInt32
    IO.eprint (logText i.verbose (eventsAfter i.command.input s output))
    return 0

end Userstyle.Cli

open Userstyle.Cli in
/-- Converts or inspects a style sheet, or shows help, as the command line says. -/
def main (arguments : List String) : IO UInt32 :=
  match Invocation.read arguments with
  | .error (.help topic) => do
    IO.print topic.helpText
    return 0
  | .error .faulty => return usageStatus.toUInt32
  | .ok i => i.perform
