import Stencil.Text

/-! Paths of templates as texts.
Slashes separate the parts; repeated slashes, slashes at the end and parts that are a single point
mean nothing, except for a point at the very beginning. -/
namespace Stencil
namespace Path

inductive Component
  | root
  /-- A point at the beginning. -/
  | here
  | up
  | name (text : List Char)
  deriving DecidableEq, Repr

/-- The texts between slashes. -/
def segments : List Char → List (List Char)
  | [] => [[]]
  | c :: r =>
    if c = '/' then [] :: segments r
    else
      match segments r with
      | s :: ss => (c :: s) :: ss
      | [] => [[c]]

def isIdle (segment : List Char) : Bool := segment == [] || segment == ['.']

/-- The text that begins an absolute path or a path from the point, and what follows it. -/
def splitHead : List Char → List Char × List Char
  | '/' :: r => (['/'], r)
  | ['.'] => (['.'], [])
  | '.' :: '/' :: r => (['.'], '/' :: r)
  | text => ([], text)

def component (segment : List Char) : Component :=
  if segment = ['.', '.'] then .up else .name segment

/-- The components of a path. Two paths are equal if theirs are. -/
def components (path : String) : List Component :=
  let (head, body) := splitHead path.toList
  let first := if head = ['/'] then [.root] else if head = ['.'] then [.here] else []
  first ++ ((segments body).filter fun s => !isIdle s).map component

def unsegment : List (List Char) → List Char
  | [] => []
  | [s] => s
  | s :: ss => s ++ '/' :: unsegment ss

/-- The path without its last component and what is idle around it. -/
def parent? (path : String) : Option String :=
  let (head, body) := splitHead path.toList
  match (segments body).reverse.dropWhile isIdle with
  | _ :: before =>
    some (String.ofList (head ++ unsegment (before.dropWhile isIdle).reverse))
  | [] => if head = ['.'] then some "" else none

def isAbsolute (path : String) : Bool := path.toList.head? == some '/'

def join (base path : String) : String :=
  if isAbsolute path || base.isEmpty then path
  else if base.toList.getLast? = some '/' then base ++ path
  else base ++ "/" ++ path

/-- Marks a reference that starts from the directory of the including template. -/
def relativeMark : String := ".../"

def resolve (reference : String) (parent : Option String) : String :=
  match Text.after? relativeMark.toList reference.toList with
  | none => reference
  | some rest =>
    let rest := String.ofList rest
    match parent.bind parent? with
    | some directory => if directory.isEmpty then rest else join directory rest
    | none => rest

end Path
end Stencil
