import Stencil.Assoc

/-! Bindings: named values and named loops of rows, where every row binds names of its own.
The main statements say what is found under a name after something has been bound to it. -/
namespace Stencil

inductive Scope
  | mk (values : List (String × String)) (loops : List (String × List Scope))

namespace Scope

def values : Scope → List (String × String)
  | mk values _ => values

def loops : Scope → List (String × List Scope)
  | mk _ loops => loops

@[simp] theorem values_mk (values : List (String × String)) (loops : List (String × List Scope)) :
    (mk values loops).values = values := rfl

@[simp] theorem loops_mk (values : List (String × String)) (loops : List (String × List Scope)) :
    (mk values loops).loops = loops := rfl

def empty : Scope := mk [] []

instance : Inhabited Scope := ⟨empty⟩

def value? (s : Scope) (name : String) : Option String := Assoc.get? name s.values

def loop? (s : Scope) (name : String) : Option (List Scope) := Assoc.get? name s.loops

def withValue (s : Scope) (name value : String) : Scope :=
  mk (Assoc.set name value s.values) s.loops

def withLoop (s : Scope) (name : String) (rows : List Scope) : Scope :=
  mk s.values (Assoc.set name rows s.loops)

def isEmpty (s : Scope) : Bool := s.values.isEmpty && s.loops.isEmpty

@[simp] theorem value?_withValue (s : Scope) (name other value : String) :
    (s.withValue name value).value? other = if other = name then some value else s.value? other :=
  Assoc.get?_set _ _ _ _

@[simp] theorem value?_withLoop (s : Scope) (name other : String) (rows : List Scope) :
    (s.withLoop name rows).value? other = s.value? other := rfl

@[simp] theorem loop?_withLoop (s : Scope) (name other : String) (rows : List Scope) :
    (s.withLoop name rows).loop? other = if other = name then some rows else s.loop? other :=
  Assoc.get?_set _ _ _ _

@[simp] theorem loop?_withValue (s : Scope) (name other value : String) :
    (s.withValue name value).loop? other = s.loop? other := rfl

mutual

/-- Whether two scopes bind the same names to the same values and rows. -/
def same : Scope → Scope → Bool
  | mk values loops, other =>
    values.length == other.values.length && loops.length == other.loops.length &&
      values.all (fun p => other.value? p.1 == some p.2) && sameLoops loops other

def sameLoops : List (String × List Scope) → Scope → Bool
  | [], _ => true
  | (name, rows) :: r, other =>
    match other.loop? name with
    | some rows' => sameRows rows rows' && sameLoops r other
    | none => false

def sameRows : List Scope → List Scope → Bool
  | [], [] => true
  | a :: r, b :: r' => same a b && sameRows r r'
  | _, _ => false

end

end Scope
end Stencil
