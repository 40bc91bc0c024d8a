import Userstyle.Cli.Arguments

/-!
# Help

The help about a topic says what it is for, how its command line is written, and what can stand in
it, in two columns.
-/

namespace Userstyle.Cli

/-- What a topic is for. -/
def Topic.about : Topic → String
  | .program => "Userstyle to userscript converter"
  | .convert => "Convert a userstyle into a userscript"
  | .inspect => "Show how a userstyle's @-moz-document blocks translate"
  | .help => "Print this message or the help of the given subcommand(s)"

/-- How the command line of a topic is written. -/
def Topic.usage : Topic → String
  | .program => "us-cli [OPTIONS] <COMMAND>"
  | .convert => "us-cli convert [OPTIONS] --input <INPUT>"
  | .inspect => "us-cli inspect [OPTIONS] --input <INPUT>"
  | .help => "us-cli help [COMMAND]..."

/-- How an option is written. Its value goes by its name in capital letters. -/
def Setting.usage (s : Setting) : String :=
  let letter := match s.short with
    | some c => String.ofList ['-', c, ',', ' ']
    | none => "    "
  let value := match s.value with
    | some _ => " <" ++ String.ofList (s.long.toList.map Char.toUpper) ++ ">"
    | none => ""
  letter ++ "--" ++ s.long ++ value

/-- Rows under a heading. The second column begins two blanks behind the longest text of the
first. -/
def titled (heading : String) (rows : List (String × String)) : List String :=
  let width := rows.foldl (fun width row => max width row.1.length) 0
  let line (row : String × String) : String :=
    "  " ++ row.1.pushn ' ' (width + 2 - row.1.length) ++ row.2 ++ "\n"
  match rows with
  | [] => []
  | _ => [heading ++ ":\n" ++ String.join (rows.map line)]

/-- What can stand in the command line of a topic apart from options. -/
def Topic.operands : Topic → String × List (String × String)
  | .program =>
    ("Commands", [("convert", Topic.convert.about), ("inspect", Topic.inspect.about),
      ("help", Topic.help.about)])
  | .help => ("Arguments", [("[COMMAND]...", "Print help for the subcommand(s)")])
  | _ => ("Arguments", [])

/-- The help about a topic. -/
def Topic.helpText (topic : Topic) : String :=
  let options := topic.settings.map fun s => (s.usage, s.about)
  "\n".intercalate ([topic.about ++ "\n", "Usage: " ++ topic.usage ++ "\n"] ++
    titled topic.operands.1 topic.operands.2 ++ titled "Options" options)

end Userstyle.Cli
