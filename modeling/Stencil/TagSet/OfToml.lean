import Stencil.TagSet
import Stencil.Toml.Document

/-! Tag sets from TOML documents.
Two tables give texts that replace those of the default tag set, `delimiters` and `keywords`. -/
namespace Stencil

inductive TagSetError
  | parse
  /-- The entry is empty. -/
  | empty (field : String)
  deriving DecidableEq, Repr

namespace TagSet

/-- The texts given for some of the fields: by their names, or in an array by their order. -/
def textsOf? (fields : List String) : Toml.Value → Option (List (String × String))
  | .table entries =>
    let given := fields.filterMap fun field => (Assoc.get? field entries).map fun v => (field, v)
    given.mapM fun e =>
      match e.2 with
      | .string text => some (e.1, text)
      | _ => none
  | .array elements =>
    (fields.zip elements).mapM fun e =>
      match e.2 with
      | .string text => some (e.1, text)
      | _ => none
  | .date _ => some []
  | _ => none

def setDelimiter (t : TagSet) (field text : String) : TagSet :=
  match field with
  | "start" => { t with opening := text }
  | "end" => { t with closing := text }
  | "comment_start" => { t with commentOpening := text }
  | "comment_end" => { t with commentClosing := text }
  | "tag_comment_start" => { t with wrappedOpening := text }
  | "tag_comment_end" => { t with wrappedClosing := text }
  | "var_shorthand" => { t with shorthand := text }
  | _ => t

def delimiterFields : List String :=
  ["start", "end", "comment_start", "comment_end", "tag_comment_start", "tag_comment_end",
    "var_shorthand"]

def keywordFields : List (String × TagKind) :=
  [("var", .var), ("include", .embed), ("if", .cond), ("elsif", .elsif), ("else", .alt),
    ("endif", .endif), ("loop", .loop), ("endloop", .endloop), ("break", .leave),
    ("continue", .next)]

def setKeyword (t : TagSet) (field text : String) : TagSet :=
  match Assoc.get? field keywordFields with
  | some kind => t.withKeyword kind text
  | none => t

def section? (key : String) (fields : List String) (document : List (String × Toml.Value)) :
    Option (List (String × String)) :=
  match Assoc.get? key document with
  | none => some []
  | some v => textsOf? fields v

def ofDocument? (document : List (String × Toml.Value)) : Option TagSet := do
  let delimiters ← section? "delimiters" delimiterFields document
  let keywords ← section? "keywords" (keywordFields.map (·.1)) document
  let t : TagSet := delimiters.foldl (fun t e => t.setDelimiter e.1 e.2) {}
  some (keywords.foldl (fun t e => t.setKeyword e.1 e.2) t)

def validate (t : TagSet) : Except TagSetError TagSet :=
  match t.emptyEntry? with
  | some field => .error (.empty field)
  | none => .ok t

def ofToml (s : String) : Except TagSetError TagSet :=
  match (Toml.parse? s).bind ofDocument? with
  | some t => t.validate
  | none => .error .parse

end TagSet
end Stencil
