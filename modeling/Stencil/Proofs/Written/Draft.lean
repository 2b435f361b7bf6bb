import Stencil.Template

/-! How a tree is written.
A draft is a node without its places in a source. Drafts are first laid out as marks, the texts and
tags that stand for them, and the marks are then spelled. Both steps leave a choice: a conditional
that is all of an alternative may be a further arm, letters of keywords and keys may have either
case, and any quote may be used that a value does not contain. -/
namespace Stencil

/-- A node without its places in a source. -/
inductive Draft
  | text (content : List Char)
  | value (name : String) (default : Option String) (formatter : Option Formatter)
  | cond (test : Test) (yes no : List Draft)
  | loop (name : String) (body : List Draft)
  | leave (level : Nat)
  | next (level : Nat)
  | embed (reference : String)

inductive Mark
  | text (content : List Char)
  | tag (kind : TagKind) (attributes : List Attribute)
  deriving DecidableEq, Repr

/-- Whether a text can be quoted: it is on one line and does not contain both quotes. -/
def Quotable (s : String) : Prop :=
  '\n' ∉ s.toList ∧ ∃ quote, Token.isQuote quote ∧ quote ∉ s.toList

def Test.attributes (t : Test) : List Attribute :=
  .named "name" t.name :: (t.comparison.map fun c => .compare c.1.text c.2).toList

namespace Draft

def isText : Draft → Bool
  | text _ => true
  | _ => false

def tag? : Draft → Option (TagKind × List Attribute)
  | value name default formatter => some (.var, .named "name" name ::
      (default.map fun d => .named "default" d).toList ++
        (formatter.map fun f => .named "fmt" f.name).toList)
  | leave level => some (.leave, [.named "level" (Text.numeral level)])
  | next level => some (.next, [.named "level" (Text.numeral level)])
  | embed reference => some (.embed, [.named "name" reference])
  | _ => none

mutual

def ofNode (source : List Char) : Node → Draft
  | .text span => text ((Text.slice? source span).getD [])
  | .value name default formatter => value name default formatter
  | .cond test yes no => cond test (ofNodes source yes) (ofNodes source no)
  | .loop name body => loop name (ofNodes source body)
  | .leave level => leave level
  | .next level => next level
  | .embed reference _ _ => embed reference

def ofNodes (source : List Char) : List Node → List Draft
  | [] => []
  | node :: rest => ofNode source node :: ofNodes source rest

end

mutual

def WellFormed (settings : Settings) (loops : Nat) : Draft → Prop
  | text content => content ≠ [] ∧ ¬ ['\x7b', '\x7b'] <:+: content
  | value name default formatter => Quotable name ∧ (∀ d, default = some d → Quotable d) ∧
      ∀ f, formatter = some f → Quotable f.name ∧ settings.formats.find? f.name = some f
  | cond test yes no => Quotable test.name ∧ (∀ c, test.comparison = some c → Quotable c.2) ∧
      AllWellFormed settings loops yes ∧ AllWellFormed settings loops no
  | loop name body => Quotable name ∧ AllWellFormed settings (loops + 1) body
  | leave level | next level => 1 ≤ level ∧ level ≤ loops ∧ level < Text.countLimit
  | embed reference => Quotable reference

/-- The same of a list, where no text follows another one. -/
def AllWellFormed (settings : Settings) (loops : Nat) : List Draft → Prop
  | [] => True
  | draft :: rest => WellFormed settings loops draft ∧ AllWellFormed settings loops rest ∧
      (draft.isText = true → ∀ other ∈ rest.head?, other.isText = false)

end

end Draft

inductive Slot
  | list
  | alternative

/-- The marks stand for the drafts. -/
inductive Lays : Slot → List Draft → List Mark → Prop
  | nil : Lays .list [] []
  | text {content : List Char} {rest : List Draft} {marks : List Mark} :
    Lays .list rest marks → Lays .list (.text content :: rest) (.text content :: marks)
  | tag {draft : Draft} {kind : TagKind} {attributes : List Attribute} {rest : List Draft}
    {marks : List Mark} :
    draft.tag? = some (kind, attributes) → Lays .list rest marks →
    Lays .list (draft :: rest) (.tag kind attributes :: marks)
  | cond {test : Test} {yes no rest : List Draft} {first second marks : List Mark} :
    Lays .list yes first → Lays .alternative no second → Lays .list rest marks →
    Lays .list (.cond test yes no :: rest) (.tag .cond test.attributes :: first ++ second ++ marks)
  | loop {name : String} {body rest : List Draft} {inner marks : List Mark} :
    Lays .list body inner → Lays .list rest marks →
    Lays .list (.loop name body :: rest)
      (.tag .loop [.named "name" name] :: inner ++ .tag .endloop [] :: marks)
  | endif : Lays .alternative [] [.tag .endif []]
  | alt {no : List Draft} {marks : List Mark} :
    Lays .list no marks → Lays .alternative no (.tag .alt [] :: marks ++ [.tag .endif []])
  | elsif {test : Test} {yes no : List Draft} {first second : List Mark} :
    Lays .list yes first → Lays .alternative no second →
    Lays .alternative [.cond test yes no] (.tag .elsif test.attributes :: first ++ second)

inductive Attribute.Spells : Attribute → List Char → Prop
  | named {key value : String} {word : List Char} {quote : Char} :
    word.map Char.toLower = key.toList → Token.isQuote quote → quote ∉ value.toList →
    Spells (.named key value) (' ' :: word ++ '=' :: quote :: value.toList ++ [quote])
  | compare {operator value : String} {quote : Char} :
    Token.isQuote quote → quote ∉ value.toList →
    Spells (.compare operator value)
      (' ' :: operator.toList ++ ' ' :: quote :: value.toList ++ [quote])

inductive Attribute.AllSpell : List Attribute → List Char → Prop
  | nil : AllSpell [] []
  | cons {a : Attribute} {rest : List Attribute} {text more : List Char} :
    a.Spells text → AllSpell rest more → AllSpell (a :: rest) (text ++ more)

inductive Mark.AllSpell : List Mark → List Char → Prop
  | nil : AllSpell [] []
  | text {content more : List Char} {rest : List Mark} :
    AllSpell rest more → AllSpell (.text content :: rest) (content ++ more)
  | tag {kind : TagKind} {attributes : List Attribute} {word written more : List Char}
    {rest : List Mark} :
    word.map Char.toLower = (({} : TagSet).keyword kind).toList.map Char.toLower →
    Attribute.AllSpell attributes written → AllSpell rest more →
    AllSpell (.tag kind attributes :: rest)
      ('\x7b' :: '\x7b' :: word ++ written ++ '\x7d' :: '\x7d' :: more)

/-- The text is one in which the drafts can be written. -/
def Draft.Written (drafts : List Draft) (text : List Char) : Prop :=
  ∃ marks, Lays .list drafts marks ∧ Mark.AllSpell marks text

end Stencil
