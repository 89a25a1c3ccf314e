/-!
# The working directory

A directory holds files and empty directories by name.  A path is walked component
by component; whatever lies outside the directory counts as empty.

* `Unreadable` — why a path has no text, and its wording.
* `Directory.read` — the text of the file at a path.
-/

namespace Lox.Command

/-- The reason why there is no text at a path. -/
inductive Unreadable where
  | missing
  | isDirectory
  | notDirectory
  | notText
  /-- A reason described in words of its own. -/
  | stated (message : String)
  deriving DecidableEq, Repr

/-- The wording of a reason. -/
def Unreadable.message : Unreadable → String
  | missing => "No such file or directory (os error 2)"
  | isDirectory => "Is a directory (os error 21)"
  | notDirectory => "Not a directory (os error 20)"
  | notText => "stream did not contain valid UTF-8"
  | stated message => message

/-- The contents of a directory: bytes for a file, none for an empty directory. -/
structure Directory where
  entries : List (String × Option ByteArray)

namespace Directory

/-- A place that a path leads to. -/
inductive Place where
  /-- The directory itself. -/
  | here
  /-- An empty directory in it. -/
  | inside
  /-- Somewhere around it. -/
  | outside
  /-- A file in it. -/
  | file (bytes : ByteArray)

/-- The place that a component of a path leads to. -/
def step (directory : Directory) (place : Place) (component : String) : Except Unreadable Place :=
  match place with
  | .file _ => .error .notDirectory
  | _ =>
    if component = "" ∨ component = "." then .ok place
    else match place, component with
      | .inside, ".." => .ok .here
      | _, ".." => .ok .outside
      | .here, name =>
        match directory.entries.lookup name with
        | some (some bytes) => .ok (.file bytes)
        | some none => .ok .inside
        | none => .error .missing
      | _, _ => .error .missing

/-- The place that a path leads to. -/
def walk (directory : Directory) (path : String) : Except Unreadable Place :=
  match path.splitOn "/" with
  | [""] => .error .missing
  | "" :: components => components.foldlM directory.step .outside
  | components => components.foldlM directory.step .here

/-- The text of the file at a path. -/
def read (directory : Directory) (path : String) : Except Unreadable String := do
  match ← directory.walk path with
  | .file bytes =>
    match String.fromUTF8? bytes with
    | some text => .ok text
    | none => .error .notText
  | _ => .error .isDirectory

end Directory
end Lox.Command
