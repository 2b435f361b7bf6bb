import Stencil.Token

/-! Attributes of a tag.
The grammar is `attribute*` with `attribute := WORD '=' value | OPERATOR value | value`, where a
value is a word or a quoted text. -/
namespace Stencil

inductive Attribute
  /-- The key is kept in lower case. -/
  | named (key value : String)
  | bare (value : String)
  | compare (operator value : String)
  deriving DecidableEq, Repr

namespace Attribute

inductive GrammarError
  | unexpected (token : Token)
  /-- The tag ends where a value is wanted. -/
  | valueMissing
  deriving DecidableEq, Repr

def GrammarError.message : GrammarError → String
  | .unexpected token => "unexpected " ++ token.describe
  | .valueMissing => "attribute value missing before end of tag"

def value? : Token → Option String
  | .word text | .quoted text => some text
  | _ => none

def lower (s : String) : String := String.ofList (s.toList.map Char.toLower)

/-- Reads the attributes off the tokens that are not blanks. -/
def parse : List Token → Except GrammarError (List Attribute)
  | [] => .ok []
  | .word _ :: .assign :: [] => .error .valueMissing
  | .word key :: .assign :: t :: rest =>
    match value? t with
    | some value => (parse rest).map (.named (lower key) value :: ·)
    | none => .error (.unexpected t)
  | .operator _ :: [] => .error .valueMissing
  | .operator op :: t :: rest =>
    match value? t with
    | some value => (parse rest).map (.compare op value :: ·)
    | none => .error (.unexpected t)
  | t :: rest =>
    match value? t with
    | some value => (parse rest).map (.bare value :: ·)
    | none => .error (.unexpected t)

/-- The value of the first attribute with the key. -/
def named? (key : String) (attributes : List Attribute) : Option String :=
  attributes.findSome? fun
    | named k v => if k = key then some v else none
    | _ => none

def bare? (attributes : List Attribute) : Option String :=
  attributes.findSome? fun
    | bare v => some v
    | _ => none

def compare? (attributes : List Attribute) : Option (String × String) :=
  attributes.findSome? fun
    | compare op v => some (op, v)
    | _ => none

end Attribute
end Stencil
