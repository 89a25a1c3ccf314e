import Lox.Command

/-!
# The program

The outer layer of the command: it reads the arguments, the script file and the
standard input, and writes what the command reports.
-/

namespace Lox.Main

/-- More turns of a loop than any run can take. -/
def fuel : Nat := 1000000000000000000

/-- Writes a report and gives its exit status. -/
def deliver (report : Report) : IO UInt32 := do
  (← IO.getStdout).write report.output
  (← IO.getStdout).flush
  (← IO.getStderr).write report.errors
  return report.status.toUInt32

/-- Delivers the report of a finished run. -/
def deliver? : Option Report → IO UInt32
  | some report => deliver report
  | none => return 1

/-- The reason why a file cannot be read. -/
def reason : IO.Error → Command.Unreadable
  | .noFileOrDirectory _ _ _ => .missing
  | .inappropriateType _ code _ => if code = 21 then .isDirectory else .notDirectory
  | e => .stated (toString e)

/-- The text of a file. -/
def load (path : String) : IO (Except Command.Unreadable String) := do
  try
    let bytes ← IO.FS.readBinFile path
    match String.fromUTF8? bytes with
    | some text => return .ok text
    | none => return .error .notText
  catch e => return .error (reason e)

/-- Writes what a console holds, and empties its sinks. -/
def emit (console : Console) : IO Console := do
  (← IO.getStdout).write console.session.out.accepted
  (← IO.getStdout).flush
  (← IO.getStderr).write console.diagnostics.accepted
  return ⟨⟨console.session.env, Sink.new none none⟩, Sink.new none none⟩

/-- The bytes of the standard input up to the next line feed, after those in `read`. -/
partial def lineBytes (read : ByteArray) : IO ByteArray := do
  let next ← (← IO.getStdin).read 1
  let read := read ++ next
  if next.isEmpty || next.toList.contains Text.lineFeed then return read else lineBytes read

/-- The next line of the standard input, if there is one. -/
def nextLine : IO (Option (Except IoError String)) := do
  try
    return (Text.lines false (← lineBytes .empty).toList).head?
  catch e => return some (.error (.stated (toString e)))

/-- Holds a conversation on the standard input. -/
partial def converse (console : Console) : IO UInt32 := do
  let step (run : Run IoError Console Unit) (console : Console) : IO Console := do
    match run console with
    | .ok () console => emit console
    | .error _ console => emit console
  let console ← step Console.prompt console
  match ← nextLine with
  | none =>
    let _ ← step (Console.say "\n") console
    return 0
  | some (.error e) =>
    (← IO.getStderr).putStr (Command.brokenText e)
    return 1
  | some (.ok line) => converse (← step (Console.turn fuel line) console)

end Lox.Main

open Lox in
/-- Runs the command. -/
def main (arguments : List String) : IO UInt32 := do
  match Command.Request.ofArguments arguments with
  | .help => Main.deliver (Report.ofTexts 0 Command.helpText "")
  | .version => Main.deliver (Report.ofTexts 0 Command.versionText "")
  | .misuse => Main.deliver Command.misuse
  | .converse => Main.converse ⟨State.new (Sink.new none none), Sink.new none none⟩
  | .script source false pipe => Main.deliver? (Command.script Main.fuel pipe source)
  | .script path true pipe =>
    match ← Main.load path with
    | .ok source => Main.deliver? (Command.script Main.fuel pipe source)
    | .error reason => Main.deliver (Command.unreadable path reason)
