import Lox.Session
import Lox.Text.Blank
import Lox.Text.Lines

/-!
# Conversations

A conversation runs lines of input in a session.  It prompts for every line, echoes
the value of a line that has one, and goes on after a line that failed; blank lines
are skipped.  What is wrong with a line is told on a sink of its own.
-/

namespace Lox

/-- What a conversation works on. -/
structure Console where
  /-- The state of the session, with the sink for output and prompts. -/
  session : State
  /-- The sink for messages. -/
  diagnostics : Sink

namespace Console

/-- Works on the output sink. -/
def onOutput (action : EStateM IoError Sink Unit) : Run IoError Console Unit :=
  fun ⟨⟨env, out⟩, diagnostics⟩ =>
    match action out with
    | .ok () out => .ok () ⟨⟨env, out⟩, diagnostics⟩
    | .error e out => .error (.raised e) ⟨⟨env, out⟩, diagnostics⟩

/-- Writes to the output. -/
def say (text : String) : Run IoError Console Unit := onOutput (Sink.write text)

/-- Writes a message. -/
def complain (text : String) : Run IoError Console Unit := fun ⟨session, diagnostics⟩ =>
  match Sink.write text diagnostics with
  | .ok () diagnostics => .ok () ⟨session, diagnostics⟩
  | .error e diagnostics => .error (.raised e) ⟨session, diagnostics⟩

/-- Prompts for a line. -/
def prompt : Run IoError Console Unit := do
  say "> "
  onOutput Sink.flush

/-- Runs a line, and tells its value or its failure. -/
def answer (fuel : Nat) (line : String) : Run IoError Console Unit := fun ⟨session, diagnostics⟩ =>
  match Session.runLine fuel line session with
  | .ok none session => .ok () ⟨session, diagnostics⟩
  | .ok (some v) session => say ("=> " ++ v.text ++ "\n") ⟨session, diagnostics⟩
  | .error (.raised failure) session => complain (failure.message ++ "\n") ⟨session, diagnostics⟩
  | .error (.unsupported choice) session => .error (.unsupported choice) ⟨session, diagnostics⟩
  | .error (.stray size place) session => .error (.stray size place) ⟨session, diagnostics⟩
  | .error .outOfFuel session => .error .outOfFuel ⟨session, diagnostics⟩

/-- One line of a conversation. -/
def turn (fuel : Nat) (line : String) : Run IoError Console Unit :=
  if Text.isBlank line then pure () else answer fuel line

/-- A conversation over lines of input.  A line that cannot be read ends it. -/
def converse (fuel : Nat) : List (Except IoError String) → Run IoError Console Unit
  | [] => do
    prompt
    say "\n"
  | .error e :: _ => do
    prompt
    throw (.raised e)
  | .ok line :: rest => do
    prompt
    turn fuel line
    converse fuel rest

end Console
end Lox
