import Stencil.Sink

/-! Formatters and their registry.
A formatter turns a value into the pieces it writes; it may then fail. The registry answers with
the latest formatter of a name. -/
namespace Stencil

/-- What a formatter does with a value: it writes pieces and then may give a reason to stop. -/
structure Emission where
  pieces : List Bytes
  failure : Option String := none
  deriving DecidableEq, Repr

structure Formatter where
  name : String
  format : String → Emission

namespace Emission

/-- Writes the pieces to a sink, up to the first error. -/
def writeTo (e : Emission) (s : Sink) : Sink × Except WriteError Unit :=
  match s.writeAll e.pieces with
  | (s', false) => (s', .error .full)
  | (s', true) =>
    match e.failure with
    | none => (s', .ok ())
    | some reason => (s', .error (.formatter reason))

def ofText (text : String) : Emission := { pieces := [Text.encode text] }

end Emission

/-- Formatters by name. A later one hides an earlier one of its name. -/
structure FormatRegistry where
  /-- The newest first. -/
  formatters : List Formatter := []

namespace FormatRegistry

def register (r : FormatRegistry) (name : String) (format : String → Emission) :
    FormatRegistry := ⟨⟨name, format⟩ :: r.formatters⟩

/-- The latest formatter of the name. -/
def find? (r : FormatRegistry) (name : String) : Option Formatter :=
  r.formatters.find? fun f => f.name == name

/-- How many formatters have been registered, hidden ones included. -/
def size (r : FormatRegistry) : Nat := r.formatters.length

@[simp] theorem find?_register (r : FormatRegistry) (name other : String)
    (format : String → Emission) :
    (r.register name format).find? other =
      if name = other then some ⟨name, format⟩ else r.find? other := by
  by_cases h : name = other <;> simp [find?, register, h]

@[simp] theorem size_register (r : FormatRegistry) (name : String) (format : String → Emission) :
    (r.register name format).size = r.size + 1 := rfl

end FormatRegistry
end Stencil
