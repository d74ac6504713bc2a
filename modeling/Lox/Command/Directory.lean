import Lox.Text

/-!
# Lox.Command.Directory

Files by path, and why a file cannot be read.

A directory holds files and further directories under paths of names.
`Directory.read` follows a path from the directory: every name but the last
has to lead to a directory.  Nothing is known of what lies outside.
-/

namespace Lox

/-- Why a file cannot be read. -/
inductive FileError where
  | notFound
  | notDirectory
  | isDirectory
  | other (reason : Text)
  deriving DecidableEq, Repr

/-- The wording of a file error for a path. -/
def FileError.message (path : Text) : FileError → Text
  | notFound => text "ENOENT: no such file or directory, open '" ++ path ++ text "'"
  | notDirectory => text "ENOTDIR: not a directory, open '" ++ path ++ text "'"
  | isDirectory => text "EISDIR: illegal operation on a directory, read"
  | other reason => reason ++ text ", open '" ++ path ++ text "'"

/-- What a path leads to. -/
inductive Entry where
  | file (bytes : List UInt8)
  | directory
  deriving DecidableEq, Repr

/-- Files and directories, each under the names that lead to it. -/
structure Directory where
  entries : List (List Text × Entry)

namespace Directory

/-- The name for the directory itself. -/
def here : Text := text "."

/-- The name for the directory above. -/
def above : Text := text ".."

/-- The name for the outermost directory. -/
def root : Text := text "/"

/-- Split a path at its separators. -/
def splitPath : Text → List Text
  | [] => [[]]
  | u :: rest =>
    if u == unit '/' then [] :: splitPath rest
    else
      match splitPath rest with
      | [] => [[u]]
      | name :: more => (u :: name) :: more

/-- Add a file or directory under a path. -/
def add (directory : Directory) (path : Text) (entry : Entry) : Directory :=
  ⟨directory.entries ++ [(splitPath path, entry)]⟩

/-- What is under the given names.  The directories above, the outermost
directory and the directories on the way to an entry are there as well. -/
def find? (directory : Directory) (names : List Text) : Option Entry :=
  match directory.entries.lookup names with
  | some entry => some entry
  | none =>
    if names.all (· == above) || names == [root]
        || directory.entries.any (fun entry => names.isPrefixOf entry.1) then
      some .directory
    else
      none

/-- The names that lead one name further. -/
def enter (names : List Text) (name : Text) : List Text :=
  if name = [] ∨ name = here then names
  else if name = above then
    if names = [root] then names
    else if names.all (· == above) then names ++ [above]
    else names.dropLast
  else names ++ [name]

/-- Follow names from a place, which has to be a directory as long as there
are names to follow. -/
def follow (directory : Directory) (place : List Text) : List Text → Except FileError Entry
  | [] =>
    match directory.find? place with
    | some entry => .ok entry
    | none => .error .notFound
  | name :: rest =>
    match directory.find? place with
    | some .directory => follow directory (enter place name) rest
    | some (.file _) => .error .notDirectory
    | none => .error .notFound

/-- The bytes of the file that a path leads to. -/
def read (directory : Directory) (path : Text) : Except FileError (List UInt8) :=
  if path = [] then .error .notFound
  else
    let place := if path.head? = some (unit '/') then [root] else []
    match directory.follow place (splitPath path) with
    | .error error => .error error
    | .ok (.file bytes) => .ok bytes
    | .ok .directory => .error .isDirectory

end Directory

end Lox
