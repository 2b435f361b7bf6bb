import Stencil.Assoc
import Stencil.Loader
import Stencil.Text.Decode

/-! Files and directories.
A path is followed from the root or the working directory, one name after the other. The main
statement says what is at each place after something has been put at one. -/
namespace Stencil

inductive PathError
  | notFound
  | notADirectory
  | isADirectory
  | nameTooLong
  | nul
  /-- Any other reason that a system gives. -/
  | other (reason : String)
  deriving DecidableEq, Repr

def PathError.message : PathError → String
  | notFound => "No such file or directory (os error 2)"
  | notADirectory => "Not a directory (os error 20)"
  | isADirectory => "Is a directory (os error 21)"
  | nameTooLong => "File name too long (os error 36)"
  | nul => "file name contained an unexpected NUL byte"
  | other reason => reason

inductive ReadError
  | path (e : PathError)
  | encoding
  deriving DecidableEq, Repr

def ReadError.message : ReadError → String
  | path e => e.message
  | encoding => "stream did not contain valid UTF-8"

inductive DiskEntry
  | directory
  | file (content : Bytes)
  deriving DecidableEq, Repr

/-- The names on the way from the root. -/
abbrev Place := List (List Char)

structure Disk where
  entries : List (Place × DiskEntry) := []
  /-- The directory from which relative paths start. -/
  home : Place := []

namespace Disk

/-- What is at a place. The root is always a directory. -/
def at? (d : Disk) (place : Place) : Option DiskEntry :=
  if place = [] then some .directory else Assoc.get? place d.entries

def put (d : Disk) (place : Place) (entry : DiskEntry) : Disk :=
  { d with entries := (place, entry) :: Assoc.erase place d.entries }

theorem at?_put (d : Disk) (place other : Place) (entry : DiskEntry) (h : place ≠ []) :
    (d.put place entry).at? other = if other = place then some entry else d.at? other := by
  unfold at? put
  by_cases ho : other = place
  · simp [ho, h]
  · simp [Assoc.get?_erase, ho, Ne.symm ho]

def nameLimit : Nat := 255

def pathLimit : Nat := 4096

/-- Follows names from a place. Only a directory can be followed further. -/
def follow (d : Disk) : Place → List (List Char) → Except PathError Place
  | place, [] => .ok place
  | place, name :: names =>
    match d.at? place with
    | some .directory =>
      if name = ['.'] then follow d place names
      else if name = ['.', '.'] then follow d place.dropLast names
      else if nameLimit < Text.size name then .error .nameTooLong
      else
        let next := place ++ [name]
        match d.at? next with
        | some _ => follow d next names
        | none => .error .notFound
    | _ => .error .notADirectory

def origin (d : Disk) (path : String) : Place := if Path.isAbsolute path then [] else d.home

def vet (path : String) : Except PathError Unit :=
  if path.toList.contains '\x00' then .error .nul
  else if path.isEmpty then .error .notFound
  else if pathLimit ≤ Text.size path.toList then .error .nameTooLong
  else .ok ()

def namesOf (path : String) : List (List Char) := (Path.segments path.toList).filter (· != [])

def endsInSlash (path : String) : Bool := path.toList.getLast? == some '/'

/-- The names to follow to what a path names; a point at the end asks for a directory. -/
def names (path : String) : List (List Char) :=
  if endsInSlash path then namesOf path ++ [['.']] else namesOf path

def find (d : Disk) (path : String) : Except PathError Place := do
  vet path
  d.follow (d.origin path) (names path)

def read (d : Disk) (path : String) : Except PathError Bytes := do
  let place ← d.find path
  match d.at? place with
  | some (.file content) => .ok content
  | _ => .error .isADirectory

def readText (d : Disk) (path : String) : Except ReadError String :=
  match d.read path with
  | .error e => .error (.path e)
  | .ok content =>
    match Text.decode? content with
    | some text => .ok text
    | none => .error .encoding

def load (d : Disk) (path : String) : Except LoadError String :=
  match d.find path with
  | .error e => .error (.unreadable e.message)
  | .ok place =>
    match d.at? place with
    | some (.file content) => .ok (Text.decodeLossy content)
    | _ => .error .notAFile

/-- The place at which a path asks for a file to be written: one that is there, or a new one in a
directory that is. -/
def target (d : Disk) (path : String) : Except PathError Place := do
  vet path
  match (namesOf path).getLast? with
  | none => .error .isADirectory
  | some last =>
    let directory ← d.follow (d.origin path) (namesOf path).dropLast
    match d.at? directory with
    | some .directory =>
      if endsInSlash path ∨ last = ['.'] ∨ last = ['.', '.'] then .error .isADirectory
      else if nameLimit < Text.size last then .error .nameTooLong
      else
        let place := directory ++ [last]
        match d.at? place with
        | some .directory => .error .isADirectory
        | _ => .ok place
    | _ => .error .notADirectory

def write (d : Disk) (place : Place) (content : Bytes) : Disk := d.put place (.file content)

def loader (d : Disk) : Loader := .steady d.load

end Disk
end Stencil
