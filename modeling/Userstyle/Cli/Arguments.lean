/-!
# Command lines

A command line names one of two commands and sets options. An option is given by its long name
(`--input x`, `--input=x`) or by its letter (`-i x`, `-ix`, `-i=x`), and letters of options without
a value can be put together. An option is given at most once, and a value in an argument of its own
does not begin with a hyphen. The option `verbose` may stand before the command or behind it.

Help is asked for by the option `help`, before the command or behind it, or by the command `help`. A
command line is read from its beginning on, so what stands behind that option does not matter, and
what stands in front of it has to be in order.
-/

namespace Userstyle.Cli

/-- The values that an option can take. -/
inductive ValueKind where
  /-- The path of a file, which is not empty. -/
  | path
  /-- Any text. -/
  | text
  deriving DecidableEq, Repr

/-- An option that a command understands. -/
structure Setting where
  /-- The name behind two hyphens. -/
  long : String
  /-- The letter behind one hyphen. -/
  short : Option Char
  /-- The kind of its value; a switch has none. -/
  value : Option ValueKind
  /-- What it is for. -/
  about : String
  deriving DecidableEq, Repr

/-- The switch for more messages. -/
def verboseSetting : Setting := ⟨"verbose", some 'v', none, "Verbose output"⟩

/-- The switch that asks for help. -/
def helpSetting : Setting := ⟨"help", some 'h', none, "Print help"⟩

/-- The option for the style sheet. -/
def inputSetting : Setting := ⟨"input", some 'i', some .path, "Input stylesheet"⟩

/-- What options belong to, and what help is about. -/
inductive Topic where
  /-- The program as a whole. -/
  | program
  /-- The command that converts. -/
  | convert
  /-- The command that inspects. -/
  | inspect
  /-- The command that shows help. -/
  | help
  deriving DecidableEq, Repr

/-- The options of a topic. The help lists them in this order. -/
def Topic.settings : Topic → List Setting
  | .program => [verboseSetting, helpSetting]
  | .convert =>
    [inputSetting, verboseSetting,
     ⟨"output", some 'o', some .path, "Output userscript file (stdout when omitted)"⟩,
     ⟨"config", none, some .path, "JSON file with name, namespace, author and homepage"⟩,
     ⟨"name", none, some .text, "Script name"⟩,
     ⟨"namespace", none, some .text, "Script namespace"⟩,
     ⟨"author", none, some .text, "Script author"⟩,
     ⟨"homepage", none, some .text, "Script homepage"⟩,
     helpSetting]
  | .inspect =>
    [inputSetting, verboseSetting, ⟨"json", none, none, "Print the report as JSON"⟩, helpSetting]
  | .help => []

/-- Why a command line is not read to a command. -/
inductive Stop where
  /-- Help is asked for. -/
  | help (topic : Topic)
  /-- The command line is not in order. -/
  | faulty
  deriving DecidableEq, Repr

/-- The options given so far, by long name; the value of a switch is empty. -/
abbrev Given := List (String × String)

/-- Notes an option of a topic with its value. It must not have been given before, unless it asks
for help. -/
def give (topic : Topic) (g : Given) (s : Setting) (value : String) : Except Stop Given :=
  if s = helpSetting then .error (.help topic)
  else if g.any fun given => given.1 == s.long then .error .faulty
  else if s.value = some .path ∧ value.isEmpty then .error .faulty
  else .ok (g ++ [(s.long, value)])

/-- What one argument gave: the options so far and the option that still wants a value. -/
abbrev Step := Given × Option Setting

/-- Notes an option together with its value. -/
def giveWhole (topic : Topic) (g : Given) (s : Setting) (value : List Char) : Except Stop Step :=
  (give topic g s (String.ofList value)).map fun g => (g, none)

/-- Reads the letters behind a single hyphen. What follows the letter of an option with a value is
that value, less an equals sign at its beginning. -/
def readLetters (topic : Topic) (g : Given) : List Char → Except Stop Step
  | [] => .ok (g, none)
  | c :: r =>
    match topic.settings.find? fun s => s.short == some c with
    | none => .error .faulty
    | some s =>
      match s.value, r with
      | none, _ =>
        match give topic g s "" with
        | .error stop => .error stop
        | .ok g => readLetters topic g r
      | some _, [] => .ok (g, some s)
      | some _, '=' :: value => giveWhole topic g s value
      | some _, value => giveWhole topic g s value

/-- Reads what stands behind two hyphens. -/
def readLong (topic : Topic) (g : Given) (text : List Char) : Except Stop Step :=
  let name := text.takeWhile (· != '=')
  match topic.settings.find? fun s => s.long.toList == name with
  | none => .error .faulty
  | some s =>
    match s.value, text.dropWhile (· != '=') with
    | none, [] => giveWhole topic g s []
    | none, _ :: _ => .error .faulty
    | some _, [] => .ok (g, some s)
    | some _, _ :: value => giveWhole topic g s value

/-- What an argument is by its hyphens. -/
inductive Argument where
  /-- The letters of options. -/
  | letters (text : List Char)
  /-- The long name of an option. -/
  | long (text : List Char)
  /-- Neither of them. -/
  | other
  deriving DecidableEq, Repr

/-- Sorts an argument by its hyphens. One hyphen alone and two hyphens alone are no options. -/
def Argument.of (text : String) : Argument :=
  match text.toList with
  | ['-'] => .other
  | ['-', '-'] => .other
  | '-' :: '-' :: r => .long r
  | '-' :: r => .letters r
  | _ => .other

/-- Whether an argument can be the value of the option before it. -/
def isValue (text : String) : Bool := text == "-" || text.toList.head? != some '-'

/-- Reads the options at the beginning of a list of arguments, the first of which may be the value
of an option that wants one. Returns the options with the arguments from the first other one on. -/
def readSettings (topic : Topic) (g : Given) :
    Option Setting → List String → Except Stop (Given × List String)
  | none, [] => .ok (g, [])
  | some _, [] => .error .faulty
  | some s, value :: rest =>
    if isValue value then
      match give topic g s value with
      | .error stop => .error stop
      | .ok g => readSettings topic g none rest
    else .error .faulty
  | none, argument :: rest =>
    match Argument.of argument with
    | .other => .ok (g, argument :: rest)
    | .letters text =>
      match readLetters topic g text with
      | .error stop => .error stop
      | .ok (g, wanting) => readSettings topic g wanting rest
    | .long text =>
      match readLong topic g text with
      | .error stop => .error stop
      | .ok (g, wanting) => readSettings topic g wanting rest

/-- What to convert and how. -/
structure ConvertOptions where
  /-- The style sheet. -/
  input : String
  /-- The file for the script; standard output without one. -/
  output : Option String
  /-- The configuration file. -/
  config : Option String
  /-- The name of the script. -/
  name : Option String
  /-- The namespace of the script. -/
  scope : Option String
  /-- The author of the script. -/
  author : Option String
  /-- The homepage of the script. -/
  homepage : Option String
  deriving DecidableEq, Repr

/-- What to inspect and how. -/
structure InspectOptions where
  /-- The style sheet. -/
  input : String
  /-- Whether the report is shown as JSON. -/
  json : Bool
  deriving DecidableEq, Repr

/-- A command with its options. -/
inductive Command where
  /-- Convert a style sheet into a script. -/
  | convert (options : ConvertOptions)
  /-- Sum up a style sheet. -/
  | inspect (options : InspectOptions)
  deriving DecidableEq, Repr

/-- A command line that was understood. -/
structure Invocation where
  /-- Whether to show all messages. -/
  verbose : Bool
  /-- What to do. -/
  command : Command
  deriving DecidableEq, Repr

/-- The value of an option, if it was given. -/
def Given.value? (g : Given) (long : String) : Option String := g.lookup long

/-- Whether an option was given. -/
def Given.has (g : Given) (long : String) : Bool := (g.lookup long).isSome

/-- Reads the options of a command, behind which nothing but two hyphens may stand. -/
def readAll (topic : Topic) (arguments : List String) : Except Stop Given :=
  match readSettings topic [] none arguments with
  | .error stop => .error stop
  | .ok (g, []) => .ok g
  | .ok (g, ["--"]) => .ok g
  | .ok _ => .error .faulty

/-- The command that converts, with the options given. -/
def ConvertOptions.ofGiven? (g : Given) : Option ConvertOptions := do
  let input ← g.value? "input"
  return {
    input
    output := g.value? "output"
    config := g.value? "config"
    name := g.value? "name"
    scope := g.value? "namespace"
    author := g.value? "author"
    homepage := g.value? "homepage" }

/-- The command that inspects, with the options given. -/
def InspectOptions.ofGiven? (g : Given) : Option InspectOptions := do
  let input ← g.value? "input"
  return { input, json := g.has "json" }

/-- Reads what stands behind the command that shows help: nothing, or the name of a command. -/
def readHelp : List String → Stop
  | [] => .help .program
  | ["convert"] => .help .convert
  | ["inspect"] => .help .inspect
  | ["help"] => .help .help
  | _ => .faulty

/-- The command with the options given, if none is missing. -/
def Topic.command? (topic : Topic) (g : Given) : Option Command :=
  match topic with
  | .convert => (ConvertOptions.ofGiven? g).map .convert
  | .inspect => (InspectOptions.ofGiven? g).map .inspect
  | _ => none

/-- Reads the options of a command, given those in front of its name. -/
def Invocation.readCommand (topic : Topic) (before : Given) (arguments : List String) :
    Except Stop Invocation :=
  match readAll topic arguments with
  | .error stop => .error stop
  | .ok g =>
    match topic.command? g with
    | none => .error .faulty
    | some command => .ok ⟨before.has "verbose" || g.has "verbose", command⟩

/-- Reads a whole command line. -/
def Invocation.read (arguments : List String) : Except Stop Invocation :=
  match readSettings .program [] none arguments with
  | .error stop => .error stop
  | .ok (before, "convert" :: rest) => readCommand .convert before rest
  | .ok (before, "inspect" :: rest) => readCommand .inspect before rest
  | .ok (_, "help" :: rest) => .error (readHelp rest)
  | .ok _ => .error .faulty

end Userstyle.Cli
