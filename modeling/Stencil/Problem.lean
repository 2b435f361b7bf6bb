import Stencil.Attribute
import Stencil.TagSet

/-! What can be wrong with a template, and where.
A problem is a cause; `Problem.message` is its only wording. A finding adds a place in a source, a
diagnostic also the template it belongs to. -/
namespace Stencil

inductive AttributeFault
  | stray (c : Char)
  | grammar (error : Attribute.GrammarError)
  deriving DecidableEq, Repr

def hexNumeral (n : Nat) : String := String.ofList (Nat.toDigits 16 n)

/-- A character as an error message shows it: printable ASCII stands for itself. -/
def escapeChar (c : Char) : String :=
  if c = '\t' then "\\t"
  else if c = '\r' then "\\r"
  else if c = '\n' then "\\n"
  else if c = '\'' ∨ c = '"' ∨ c = '\\' then String.ofList ['\\', c]
  else if 0x20 ≤ c.toNat ∧ c.toNat ≤ 0x7E then String.singleton c
  else "\\u\x7b" ++ hexNumeral c.toNat ++ "\x7d"

def AttributeFault.message : AttributeFault → String
  | .stray c => "unexpected character '" ++ escapeChar c ++ "'"
  | .grammar error => error.message

inductive Problem
  /-- A comment that never ends. -/
  | unterminatedComment (opening closing : String)
  /-- A keyword directly followed by something other than a blank. -/
  | missingBlank (tag : String)
  /-- A tag without its closing delimiter. -/
  | unterminatedTag (tag closing : String)
  /-- A tag that opens or closes a body cannot end with a slash. -/
  | selfClosing (tag : String)
  | malformed (tag : String) (fault : AttributeFault)
  | missingName (tag : String)
  | unknownFormat (tag format : String)
  | unknownOperator (tag operator : String)
  | badLevel (tag level : String)
  | outsideLoop (tag : String)
  | tooDeep (tag : String) (limit : Nat)
  /-- A terminator that ends nothing that is open. -/
  | unexpected (tag : String)
  /-- A tag whose body reaches the end of what encloses it without its terminator. -/
  | unclosed (tag expected : String)
  | unreadable (path reason : String)
  | notAFile (path : String)
  deriving DecidableEq, Repr

namespace Problem

def ignoring (tag reason : String) : String := s!"ignoring bad {tag} tag ({reason})"

def message : Problem → String
  | unterminatedComment opening closing => s!"\"{opening}\" has no matching \"{closing}\""
  | missingBlank tag => ignoring tag "missing whitespace after tag name"
  | unterminatedTag tag closing => ignoring tag s!"no closing \"{closing}\""
  | selfClosing tag => ignoring tag "container tags cannot be self-closing"
  | malformed tag fault => ignoring tag fault.message
  | missingName tag => ignoring tag "missing \"name=\" attribute"
  | unknownFormat tag format => ignoring tag s!"unknown format \"{format}\""
  | unknownOperator tag operator => ignoring tag s!"unknown operator \"{operator}\""
  | badLevel tag level => ignoring tag s!"bad \"level=\" attribute \"{level}\""
  | outsideLoop tag => ignoring tag "not inside a loop"
  | tooDeep tag limit =>
    ignoring tag
      ("inclusion deeper than " ++ Text.numeral limit ++ ", check for include cycle")
  | unexpected tag => s!"unexpected {tag} tag"
  | unclosed tag expected => s!"{tag} tag has no {expected} tag"
  | unreadable path reason => s!"failed to read template from file \"{path}\": {reason}"
  | notAFile path => s!"failed to read template from file \"{path}\": not a regular file"

end Problem

/-- A problem at a place in a source. -/
structure Finding where
  problem : Problem
  line : Nat
  span : Span
  deriving DecidableEq, Repr

structure Location where
  line : Nat
  span : Span
  source : String
  deriving DecidableEq, Repr

/-- A reported problem. It has no location only if its template cannot be read at all. -/
structure Diagnostic where
  problem : Problem
  /-- The name of the template it arose in. -/
  file : String
  location : Option Location
  deriving DecidableEq, Repr

namespace Diagnostic

def text (d : Diagnostic) : String :=
  match d.location with
  | some location => d.file ++ ":" ++ Text.numeral location.line ++ ": " ++ d.problem.message
  | none => d.file ++ ": " ++ d.problem.message

end Diagnostic

def Finding.toDiagnostic (f : Finding) (file source : String) : Diagnostic :=
  ⟨f.problem, file, some ⟨f.line, f.span, source⟩⟩

end Stencil
