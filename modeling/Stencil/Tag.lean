import Stencil.LineCount
import Stencil.Problem

/-! Reading one tag.
A tag is an opening delimiter, a keyword, attributes and a closing delimiter, which is looked for
only where a lexeme may begin, and inside words. -/
namespace Stencil

structure Tag where
  kind : TagKind
  attributes : List Attribute
  span : Span
  line : Nat
  deriving DecidableEq, Repr

/-- How the body of a tag ends. Offsets and rests are those just past the end. -/
inductive TagBody
  | closed (tokens : List Token) (stop : Nat) (rest : List Char)
  /-- A slash stands before the closing delimiter. -/
  | slashed (tokens : List Token) (stop : Nat) (rest : List Char)
  /-- A character that begins no token; its lexeme ends at `stop`. -/
  | stray (c : Char) (stop : Nat)
  | endless
  deriving DecidableEq, Repr

namespace TagBody

def push (token : Token) : TagBody → TagBody
  | closed tokens stop rest => closed (token :: tokens) stop rest
  | slashed tokens stop rest => slashed (token :: tokens) stop rest
  | other => other

def afterSlashed? (closing : List Char) : List Char → Option (List Char)
  | '/' :: text => Text.after? closing text
  | _ => none

/-- Reads a body that begins at `offset` up to `closing`. Inside a document comment (`wrapped`) a
slash before the closing delimiter has no meaning of its own. -/
def read (closing : List Char) (wrapped : Bool) (text : List Char) (offset : Nat) : TagBody :=
  match Text.after? closing text with
  | some rest => closed [] (offset + Text.size closing) rest
  | none =>
    match if wrapped then none else afterSlashed? closing text with
    | some rest => slashed [] (offset + 1 + Text.size closing) rest
    | none =>
      match h : Lexeme.read? (Text.begins closing) text with
      | none => endless
      | some (⟨none, covered⟩, _) => stray (covered.headD ' ') (offset + Text.size covered)
      | some (⟨some token, covered⟩, rest) =>
        have : rest.length < text.length := Lexeme.length_lt_of_read? h
        (read closing wrapped rest (offset + Text.size covered)).push token
termination_by text.length

def rest? : TagBody → Option (List Char)
  | closed _ _ rest | slashed _ _ rest => some rest
  | _ => none

@[simp] theorem rest?_push (token : Token) (b : TagBody) : (b.push token).rest? = b.rest? := by
  cases b <;> rfl

end TagBody

/-- What stands where an opening delimiter stands. -/
inductive TagReading
  | tag (tag : Tag) (rest : List Char)
  /-- A tag that cannot be read. The text after its opening is scanned again. -/
  | faulty (finding : Finding)
  /-- No keyword follows: the delimiter is text. -/
  | none
  deriving DecidableEq, Repr

namespace Tag

/-- The text after the opening delimiter, and whether it opens inside a document comment. Blanks
may precede the keyword there. -/
def open? (tags : TagSet) (text : List Char) : Option (Bool × List Char) :=
  match Text.after? tags.wrappedOpening.toList text with
  | some rest => some (true, rest.dropWhile Text.isBlank)
  | none => (Text.after? tags.opening.toList text).map fun rest => (false, rest)

def lacksBlank (found : TagSet.KeywordMatch) (tokens : List Token) : Bool :=
  !found.shorthand && tokens.head? != some .blank &&
    (found.kind.requiresName || !tokens.isEmpty)

def attributesOf (tags : TagSet) (found : TagSet.KeywordMatch) (tokens : List Token) :
    Except Problem (List Attribute) :=
  if lacksBlank found tokens then .error (.missingBlank (tags.keyword found.kind))
  else
    match Attribute.parse (tokens.filter (· != .blank)) with
    | .ok attributes => .ok attributes
    | .error e => .error (.malformed (tags.keyword found.kind) (.grammar e))

def readFound (tags : TagSet) (line : Nat) (wrapped : Bool) (found : TagSet.KeywordMatch)
    (text : List Char) (offset : Nat) : TagReading :=
  let spelling := tags.keyword found.kind
  let bodyStart := offset + (Text.size text - Text.size found.rest)
  let closing := if wrapped then tags.wrappedClosing else tags.closing
  let finish (tokens : List Token) (stop : Nat) (rest : List Char) : TagReading :=
    match attributesOf tags found tokens with
    | .ok attributes => .tag ⟨found.kind, attributes, ⟨offset, stop⟩, line⟩ rest
    | .error problem => .faulty ⟨problem, line, ⟨offset, stop⟩⟩
  match TagBody.read closing.toList wrapped found.rest bodyStart with
  | .closed tokens stop rest => finish tokens stop rest
  | .slashed tokens stop rest =>
    if found.kind.isContainer then .faulty ⟨.selfClosing spelling, line, ⟨offset, stop⟩⟩
    else finish tokens stop rest
  | .stray c stop => .faulty ⟨.malformed spelling (.stray c), line, ⟨offset, stop⟩⟩
  | .endless => .faulty ⟨.unterminatedTag spelling closing, line, ⟨offset, bodyStart⟩⟩

/-- Reads what stands at `offset` of the source with these bytes, where `text` is what is left of
it. Lines are counted on only where a keyword has been found. -/
def readCounting (tags : TagSet) (bytes : Bytes) (lines : LineCount) (text : List Char)
    (offset : Nat) : TagReading × LineCount :=
  match open? tags text with
  | none => (.none, lines)
  | some (wrapped, afterOpening) =>
    match tags.matchKeyword? afterOpening with
    | none => (.none, lines)
    | some found =>
      let lines := lines.upTo bytes offset
      (readFound tags lines.line wrapped found text offset, lines)

end Tag
end Stencil
