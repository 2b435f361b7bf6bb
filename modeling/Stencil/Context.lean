import Stencil.Scope
import Stencil.Operator
import Stencil.Node

/-! Contexts: the scopes that are open while a node is evaluated.
A name is looked for in the innermost scope first. Entering a loop closes the scopes inside the one
that owns the loop, so a row only ever sees the scopes that own it. -/
namespace Stencil

structure Context where
  root : Scope
  /-- The open rows, the innermost first. -/
  rows : List Scope := []

namespace Context

def frames (c : Context) : List Scope := c.rows ++ [c.root]

def push (c : Context) (row : Scope) : Context := { c with rows := row :: c.rows }

/-- Closes the innermost row. The root stays open. -/
def pop (c : Context) : Context := { c with rows := c.rows.tail }

def value? (c : Context) (name : String) : Option String :=
  c.frames.findSome? fun s => s.value? name

def loop? (c : Context) (name : String) : Option (List Scope) :=
  c.frames.findSome? fun s => s.loop? name

/-- The rows from the first that owns the loop outwards, and the rows of the loop. -/
def owner? (name : String) : List Scope → Option (List Scope × List Scope)
  | [] => none
  | row :: rows =>
    match row.loop? name with
    | some found => some (row :: rows, found)
    | none => owner? name rows

/-- The rows of a loop, and the context of the scope that owns it. -/
def enter? (c : Context) (name : String) : Option (Context × List Scope) :=
  match owner? name c.rows with
  | some (rows, found) => some ({ c with rows := rows }, found)
  | none => (c.root.loop? name).map fun found => ({ c with rows := [] }, found)

theorem enter?_map_snd (c : Context) (name : String) :
    (c.enter? name).map (·.2) = c.loop? name := by
  obtain ⟨root, rows⟩ := c
  simp only [enter?, loop?, frames]
  induction rows with
  | nil => cases h : root.loop? name <;> simp [owner?, h]
  | cons row rows ih =>
    simp only [owner?]
    cases h : row.loop? name with
    | some found => simp [h]
    | none => simpa [h] using ih

end Context

/-- Whether a test holds. Without a comparison a bound value must not be empty, and an unbound name
must be that of a loop; a comparison never holds of an unbound name. -/
def Test.holds (t : Test) (c : Context) : Bool :=
  match t.comparison, c.value? t.name with
  | none, some value => !value.isEmpty
  | none, none => (c.loop? t.name).isSome
  | some (operator, literal), some value => operator.holds value literal
  | some _, none => false

end Stencil
