/-!
# Sinks

A sink takes the output of a program as bytes.  It may stop taking bytes after a
number of them, and it may refuse to be flushed after a number of times.

* `IoError` — what can go wrong with input and output, and its wording.
* `Sink.write`, `Sink.flush` — the operations on a sink.
-/

namespace Lox

/-- A failure of input or output. -/
inductive IoError where
  /-- The sink takes no more bytes. -/
  | closed
  /-- The sink cannot be flushed. -/
  | unflushed
  /-- The input cannot be read. -/
  | unreadable
  /-- The input is no text. -/
  | notText
  /-- A failure described in words of its own. -/
  | stated (message : String)
  deriving DecidableEq, Repr

/-- The wording of a failure. -/
def IoError.message : IoError → String
  | closed => "sink closed"
  | unflushed => "flush failed"
  | unreadable => "read failed"
  | notText => "stream did not contain valid UTF-8"
  | stated message => message

/-- A sink of bytes. -/
structure Sink where
  /-- The bytes taken so far. -/
  accepted : ByteArray
  /-- The number of bytes that the sink takes over its whole life, if limited. -/
  limit : Option Nat
  /-- The number of times that it can still be flushed, if limited. -/
  flushes : Option Nat

namespace Sink

/-- An empty sink. -/
def new (limit flushes : Option Nat) : Sink := ⟨.empty, limit, flushes⟩

/-- The part of `bytes` that the sink still takes. -/
def fitting (sink : Sink) (bytes : ByteArray) : ByteArray :=
  match sink.limit with
  | none => bytes
  | some limit => bytes.extract 0 (limit - sink.accepted.size)

/-- Writes a text.  What fits is taken; it is a failure if something is left over. -/
def write (text : String) : EStateM IoError Sink Unit := fun sink =>
  let bytes := text.toUTF8
  let taken := sink.fitting bytes
  let after := { sink with accepted := sink.accepted ++ taken }
  if taken.size < bytes.size then .error .closed after else .ok () after

/-- Flushes the sink. -/
def flush : EStateM IoError Sink Unit := fun sink =>
  match sink.flushes with
  | none => .ok () sink
  | some 0 => .error .unflushed sink
  | some (n + 1) => .ok () { sink with flushes := some n }

end Sink
end Lox
