import Lox.Sink

/-!
# Lines of an input

Input comes as bytes.  A line ends at a line feed, and a carriage return just before
the line feed belongs to the line's end.  The last line may lack its line feed.  Each
line on its own has to be UTF-8 text.
-/

namespace Lox.Text

/-- The text of some bytes. -/
def decode (bytes : List UInt8) : Except IoError String :=
  match String.fromUTF8? ⟨bytes.toArray⟩ with
  | some text => .ok text
  | none => .error .notText

/-- The code of a line feed. -/
def lineFeed : UInt8 := 10

/-- The code of a carriage return. -/
def carriageReturn : UInt8 := 13

/-- A line without the carriage return at its end. -/
def dropReturn (line : List UInt8) : List UInt8 :=
  if line.getLast? = some carriageReturn then line.dropLast else line

/-- The lines of an input.  If the input is `broken`, reading past its last byte
fails, and a line that has not ended there is lost. -/
def lines (broken : Bool) (bytes : List UInt8) : List (Except IoError String) :=
  if bytes.contains lineFeed then
    decode (dropReturn (bytes.takeWhile (· != lineFeed)))
      :: lines broken ((bytes.dropWhile (· != lineFeed)).drop 1)
  else if broken then [.error .unreadable]
  else if bytes.isEmpty then []
  else [decode bytes]
termination_by bytes.length
decreasing_by
  have shorter := (List.dropWhile_sublist (· != lineFeed) (l := bytes)).length_le
  have some : 0 < bytes.length := List.length_pos_of_mem (List.contains_iff_mem.1 ‹_›)
  rw [List.length_drop]
  omega

end Lox.Text
