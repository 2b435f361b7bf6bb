import Stencil.Path
import Stencil.Problem

/-! Loaders: where the text of a template comes from.
An answer may depend on the moment of the render at which it is asked for; a steady loader always
answers a path in the same way. -/
namespace Stencil

inductive LoadError
  | unreadable (reason : String)
  | notAFile
  deriving DecidableEq, Repr

def LoadError.problem (path : String) : LoadError → Problem
  | unreadable reason => .unreadable path reason
  | notAFile => .notAFile path

/-- How far a render has come. -/
structure Moment where
  /-- The pieces of output taken so far, the newest first. -/
  written : List Bytes := []
  /-- How many templates have been asked for. -/
  loads : Nat := 0
  deriving DecidableEq, Repr

structure Loader where
  load : Moment → String → Except LoadError String

namespace Loader

def steady (load : String → Except LoadError String) : Loader := ⟨fun _ path => load path⟩

/-- Whether a path is always answered in the same way. -/
def IsSteady (l : Loader) : Prop := ∀ m m' path, l.load m path = l.load m' path

theorem isSteady_steady (load : String → Except LoadError String) : (steady load).IsSteady :=
  fun _ _ _ => rfl

end Loader

/-- Templates held in memory, the newest first. -/
structure Library where
  entries : List (String × String) := []

namespace Library

def insert (l : Library) (path text : String) : Library := ⟨(path, text) :: l.entries⟩

/-- The text inserted last under a path with the same components. -/
def find? (l : Library) (path : String) : Option String :=
  (l.entries.find? fun e => Path.components e.1 == Path.components path).map fun e => e.2

def load (l : Library) (path : String) : Except LoadError String :=
  match l.find? path with
  | some text => .ok text
  | none => .error (.unreadable "no such template")

def loader (l : Library) : Loader := .steady l.load

@[simp] theorem find?_insert (l : Library) (path other text : String) :
    (l.insert path text).find? other =
      if Path.components path = Path.components other then some text else l.find? other := by
  by_cases h : Path.components path = Path.components other <;> simp [find?, insert, h]

end Library
end Stencil
