import Stencil.Format
import Stencil.Operator

/-! The nodes of a template's tree. -/
namespace Stencil

/-- What a conditional asks of a name: to be bound and not empty, or to compare with a literal. -/
structure Test where
  name : String
  comparison : Option (Operator × String)
  deriving DecidableEq, Repr

inductive Node
  /-- The source text of a span. -/
  | text (span : Span)
  /-- The value of a name, or else the default, written by the formatter if there is one. -/
  | value (name : String) (default : Option String) (formatter : Option Formatter)
  | cond (test : Test) (yes no : List Node)
  /-- The body once for each row of a loop. -/
  | loop (name : String) (body : List Node)
  /-- Ends so many enclosing loops. -/
  | leave (level : Nat)
  /-- Goes on with the next row of the loop so many levels out. -/
  | next (level : Nat)
  /-- Another template in place of the tag at this line and span. -/
  | embed (reference : String) (line : Nat) (span : Span)

end Stencil
