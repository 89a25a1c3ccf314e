/-!
# Arguments of the command

Arguments are read from left to right.  Options may stand before and after the one
positional argument; two hyphens alone end the options, and a single hyphen is
positional.  Short options may be combined.  The first argument that asks for help
or the version, or that is wrong, decides.
-/

namespace Lox.Command

/-- What the arguments ask for. -/
inductive Request where
  /-- The help text. -/
  | help
  /-- The version. -/
  | version
  /-- Nothing, since the arguments are wrong. -/
  | misuse
  /-- A conversation on the standard input. -/
  | converse
  /-- The script given as an argument, or in the file that it names. -/
  | script (contents : String) (file pipe : Bool)
  deriving DecidableEq, Repr

/-- The arguments read so far. -/
structure Options where
  /-- The positional argument is the path of a script. -/
  file : Bool := false
  /-- The value of the script is printed. -/
  pipe : Bool := false
  /-- The positional argument. -/
  contents : Option String := none
  deriving DecidableEq, Repr

namespace Options

/-- What the arguments ask for when all are read. -/
def request (o : Options) : Request :=
  match o.contents with
  | none => .converse
  | some contents => .script contents o.file o.pipe

/-- Sets a flag, which may be given once. -/
def setFile (o : Options) : Except Request Options :=
  if o.file then .error .misuse else .ok { o with file := true }

/-- Sets a flag, which may be given once. -/
def setPipe (o : Options) : Except Request Options :=
  if o.pipe then .error .misuse else .ok { o with pipe := true }

/-- Takes the positional argument, of which there may be one. -/
def setContents (o : Options) (contents : String) : Except Request Options :=
  if o.contents.isSome then .error .misuse else .ok { o with contents := some contents }

/-- Takes a short option. -/
def short (o : Options) : Char → Except Request Options
  | 'f' => o.setFile
  | 'p' => o.setPipe
  | 'h' => .error .help
  | 'V' => .error .version
  | _ => .error .misuse

/-- Takes a long option, which has to be written in full and without a value. -/
def long (o : Options) (name : String) : Except Request Options :=
  if name = "file" then o.setFile
  else if name = "pipe-mode" then o.setPipe
  else if name = "help" then .error .help
  else if name = "version" then .error .version
  else .error .misuse

/-- Takes an argument that stands before the end of the options. -/
def take (o : Options) (argument : String) : Except Request Options :=
  match argument.toList with
  | '-' :: '-' :: name => o.long (String.ofList name)
  | '-' :: c :: cs => (c :: cs).foldlM short o
  | _ => o.setContents argument

/-- Reads the arguments. -/
def read (o : Options) : List String → Except Request Options
  | [] => .ok o
  | "--" :: rest => rest.foldlM setContents o
  | argument :: rest => do
    let o ← o.take argument
    o.read rest

end Options

/-- What the arguments ask for. -/
def Request.ofArguments (arguments : List String) : Request :=
  match ({} : Options).read arguments with
  | .ok o => o.request
  | .error request => request

end Lox.Command
