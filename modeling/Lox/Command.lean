import Lox.Command.Arguments
import Lox.Command.Directory
import Lox.Session.Conversation

/-!
# The command

The command runs a script, given as an argument or in a file, or holds a conversation
on its standard input.  Its result is an exit status and what it writes to the
standard output and the standard error.

* `Report` — the result of the command.
* `Command.run` — the whole command, in a working directory.
-/

namespace Lox

/-- The result of a command. -/
structure Report where
  /-- The exit status. -/
  status : Nat
  /-- What was written to the standard output. -/
  output : ByteArray
  /-- What was written to the standard error. -/
  errors : ByteArray

/-- A report of plain texts. -/
def Report.ofTexts (status : Nat) (output errors : String) : Report :=
  ⟨status, output.toUTF8, errors.toUTF8⟩

namespace Command

/-! ## Fixed texts -/

/-- The text that tells the version. -/
def versionText : String := "treelox 0.1.0\n"

/-- The text that tells how to write the arguments. -/
def usageText : String := "Usage: treelox [OPTIONS] [CONTENTS]\n"

/-- The help text. -/
def helpText : String :=
  "A tree-walking interpreter for a small dynamically-typed scripting language.\n\n"
    ++ usageText
    ++ "\nArguments:\n"
    ++ "  [CONTENTS]  An inline script, or the path of a script with `--file`\n"
    ++ "\nOptions:\n"
    ++ "  -f, --file       Tells treelox to look at a file instead of a script\n"
    ++ "  -p, --pipe-mode  Pipe mode prints the value of the last top-level expression "
    ++ "statement once the script has finished\n"
    ++ "  -h, --help       Print help\n"
    ++ "  -V, --version    Print version\n"

/-- The message for a script that cannot be read. -/
def unreadableText (path : String) (reason : Unreadable) : String :=
  s!"Failed to read the input file '{path}': {reason.message}\n"

/-- The message for a conversation that cannot go on. -/
def brokenText (cause : IoError) : String := s!"\nFailed to read input: {cause.message}\n"

/-! ## Parts of the command -/

/-- Arguments that are wrong. -/
def misuse : Report := Report.ofTexts 2 "" usageText

/-- A script that cannot be read. -/
def unreadable (path : String) (reason : Unreadable) : Report :=
  Report.ofTexts 66 "" (unreadableText path reason)

/-- Runs a script; in a pipe its value is printed.  There is no report if the fuel
does not suffice. -/
def script (fuel : Nat) (pipe : Bool) (source : String) : Option Report :=
  match Session.run fuel source (State.new (Sink.new none none)) with
  | .ok value st =>
    let echo := match value with
      | some v => if pipe then v.text ++ "\n" else ""
      | none => ""
    some ⟨0, st.out.accepted ++ echo.toUTF8, .empty⟩
  | .error (.raised failure) st =>
    some ⟨failure.exitStatus, st.out.accepted, (failure.message ++ "\n").toUTF8⟩
  | .error _ _ => none

/-- Holds a conversation over lines of input.  There is no report if the fuel does
not suffice. -/
def conversation (fuel : Nat) (lines : List (Except IoError String)) : Option Report :=
  let start : Console := ⟨State.new (Sink.new none none), Sink.new none none⟩
  match Console.converse fuel lines start with
  | .ok () console => some ⟨0, console.session.out.accepted, console.diagnostics.accepted⟩
  | .error (.raised cause) console =>
    some ⟨1, console.session.out.accepted,
      console.diagnostics.accepted ++ (brokenText cause).toUTF8⟩
  | .error _ _ => none

/-! ## The whole -/

/-- Runs the command with its arguments and its standard input in a directory. -/
def run (fuel : Nat) (arguments : List String) (input : List UInt8) (directory : Directory) :
    Option Report :=
  match Request.ofArguments arguments with
  | .help => some (Report.ofTexts 0 helpText "")
  | .version => some (Report.ofTexts 0 versionText "")
  | .misuse => some misuse
  | .converse => conversation fuel (Text.lines false input)
  | .script source false pipe => script fuel pipe source
  | .script path true pipe =>
    match directory.read path with
    | .ok source => script fuel pipe source
    | .error reason => some (unreadable path reason)

end Command
end Lox
