import Userstyle.Cli.Directory
import Userstyle.Cli.Help
import Userstyle.Metadata.Config
import Userstyle.Report
import Userstyle.Script.Builder

/-!
# Running a command

A command reads its files, works out what it has to say, and only then writes anything. `plan` is
the part before writing: it needs to know what reading a path gives, and nothing else of the world.
`run` carries a command out in a directory.
-/

namespace Userstyle.Cli

/-- What a command has to hand over when all its work is done. -/
inductive Product where
  /-- A report for standard output. -/
  | report (text : String)
  /-- A script, for a file or for standard output. -/
  | script (s : Userscript) (output : Option String)
  deriving DecidableEq, Repr

/-- The events of a command up to its product or its failure. -/
structure Plan where
  /-- What happened so far. -/
  events : List Event
  /-- The product, or the message about the failure. -/
  result : Except String Product

/-- What reading a path gives. -/
abbrev Source := String → Except FileFault String

/-- Reads a file for a command. -/
def readText (source : Source) (path : String) : Except String String :=
  match source path with
  | .ok text => .ok text
  | .error fault => .error ("Failed to read '" ++ path ++ "': " ++ fault.message)

/-- The metadata that the options of a command set. -/
def ConvertOptions.metadata (o : ConvertOptions) : Metadata where
  name := o.name
  scope := o.scope.getD defaultScope
  author := o.author
  homepage := o.homepage

/-- The metadata of a configuration file with the options of the command laid over it. The message
about a text that is no configuration does not go on to say what is wrong with it. -/
def loadMetadata (source : Source) (o : ConvertOptions) : Except String Metadata :=
  match o.config with
  | none => .ok (Metadata.empty.overlay o.metadata)
  | some path =>
    match readText source path with
    | .error message => .error message
    | .ok text =>
      match Metadata.ofConfig? text with
      | none => .error ("Invalid config '" ++ path ++ "'")
      | some m => .ok (m.overlay o.metadata)

/-- What became of a computation on an input file. The failure says what could not be done. -/
def planWith {α : Type} (task input : String) (x : Logged α) (further : α → List Event)
    (product : α → Product) : Plan :=
  match x.result with
  | .error e => ⟨x.events, .error ("Failed to " ++ task ++ " '" ++ input ++ "': " ++ e.message)⟩
  | .ok a => ⟨x.events ++ further a, .ok (product a)⟩

/-- Converts a style sheet. -/
def planConvert (source : Source) (o : ConvertOptions) : Plan :=
  match loadMetadata source o with
  | .error message => ⟨[], .error message⟩
  | .ok m =>
    match readText source o.input with
    | .error message => ⟨[], .error message⟩
    | .ok css =>
      planWith "convert" o.input (Script.convert css m) (fun s => s.diagnostics.map .diagnosed)
        fun s => .script s o.output

/-- Sums up a style sheet. -/
def planInspect (source : Source) (o : InspectOptions) : Plan :=
  match readText source o.input with
  | .error message => ⟨[], .error message⟩
  | .ok css =>
    planWith "inspect" o.input (inspect css) (fun _ => []) fun r =>
      .report (if o.json then r.jsonText else r.text o.input)

/-- The work of a command up to writing. -/
def Command.plan (source : Source) : Command → Plan
  | .convert o => planConvert source o
  | .inspect o => planInspect source o

/-- The style sheet that a command reads. -/
def Command.input : Command → String
  | .convert o => o.input
  | .inspect o => o.input

/-- Whether a log shows an event. -/
def shows (verbose : Bool) (e : Event) : Bool := verbose || e.level = .warn

/-- The log of events, a line for each that is shown. -/
def logText (verbose : Bool) (events : List Event) : String :=
  String.join ((events.filter (shows verbose)).map (·.line ++ "\n"))

/-- The last line of the log of a command that failed. -/
def errorText (message : String) : String := "Error: " ++ message ++ "\n"

/-- The events that follow when a script has been handed over. -/
def eventsAfter (input : String) (s : Userscript) (output : Option String) : List Event :=
  let written :=
    match output with
    | some path =>
      [.converted input path s.text.utf8ByteSize s.patterns.patterns.length]
    | none => []
  written ++ if s.runsEverywhere then [.runsEverywhere] else []

/-- The message about a file that cannot be created. -/
def createMessage (path : String) (fault : FileFault) : String :=
  "Failed to create '" ++ path ++ "': " ++ fault.message

/-- What a command left behind. -/
structure Outcome where
  /-- The exit status. -/
  status : Nat
  /-- What went to standard output. -/
  stdout : String
  /-- What went to standard error. -/
  stderr : String
  /-- The files afterwards. -/
  directory : Directory

/-- The exit status of a command that failed. -/
def failureStatus : Nat := 1

/-- The exit status of a command line that is not in order. -/
def usageStatus : Nat := 2

/-- Carries out a command that was understood. -/
def Invocation.run (d : Directory) (i : Invocation) : Outcome :=
  let plan := i.command.plan d.read
  let log := logText i.verbose
  match plan.result with
  | .error message => ⟨failureStatus, "", log plan.events ++ errorText message, d⟩
  | .ok (.report text) => ⟨0, text, log plan.events, d⟩
  | .ok (.script s none) =>
    ⟨0, s.text, log (plan.events ++ eventsAfter i.command.input s none), d⟩
  | .ok (.script s (some path)) =>
    match d.write path s.text with
    | .error fault =>
      ⟨failureStatus, "", log plan.events ++ errorText (createMessage path fault), d⟩
    | .ok d' => ⟨0, "", log (plan.events ++ eventsAfter i.command.input s (some path)), d'⟩

/-- Carries out a command line in a directory. Help goes to standard output; `help` has its wording.
A command line that is not in order does nothing, and what would be said about it on standard error
is left out. -/
def run (d : Directory) (arguments : List String) (help : Topic → String := Topic.helpText) :
    Outcome :=
  match Invocation.read arguments with
  | .error (.help topic) => ⟨0, help topic, "", d⟩
  | .error .faulty => ⟨usageStatus, "", "", d⟩
  | .ok i => i.run d

end Userstyle.Cli
