import Stencil.Text

/-! Comparison operators. Texts compare as the sequences of their bytes, which for UTF-8 is the
order of their characters. -/
namespace Stencil

inductive Operator
  | equal
  | unequal
  | less
  | greater
  | atMost
  | atLeast
  deriving DecidableEq, Repr

namespace Operator

def all : List Operator := [.equal, .unequal, .less, .greater, .atMost, .atLeast]

def text : Operator → String
  | equal => "=="
  | unequal => "!="
  | less => "<"
  | greater => ">"
  | atMost => "<="
  | atLeast => ">="

def ofText? (s : String) : Option Operator := all.find? fun o => o.text == s

theorem ofText?_text (o : Operator) : ofText? o.text = some o := by cases o <;> rfl

def holds (o : Operator) (value literal : String) : Bool :=
  match o with
  | equal => value == literal
  | unequal => value != literal
  | less => decide (value < literal)
  | greater => decide (literal < value)
  | atMost => !decide (literal < value)
  | atLeast => !decide (value < literal)

end Operator
end Stencil
