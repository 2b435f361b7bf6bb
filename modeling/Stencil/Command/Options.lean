import Stencil.Assoc
import Stencil.Text

/-! The options of the command line.
An option may be given once. The value of an option stands in the same word or in the next one,
which may then not begin with a hyphen unless it is nothing else. -/
namespace Stencil
namespace Command

structure Options where
  /-- The template file; the template is read from the input if there is none. -/
  template : Option String := none
  data : Option String := none
  tags : Option String := none
  output : Option String := none
  /-- How deep templates may be included. -/
  limit : Option Nat := none
  /-- Shows diagnostics with their source text. -/
  pretty : Bool := false
  deriving DecidableEq, Repr

inductive Valued
  | data
  | tags
  | output
  | limit
  deriving DecidableEq, Repr

inductive Request
  | misuse
  | help
  | run (o : Options)
  deriving DecidableEq, Repr

namespace Options

/-- Gives a file name, if none has been given and this one is not empty. -/
def once (old : Option String) (path : String) : Option (Option String) :=
  if old.isSome ∨ path.isEmpty then none else some (some path)

def set (o : Options) (option : Valued) (value : String) : Option Options :=
  match option with
  | .data => (once o.data value).map fun data => { o with data }
  | .tags => (once o.tags value).map fun tags => { o with tags }
  | .output => (once o.output value).map fun output => { o with output }
  | .limit =>
    if o.limit.isSome then none
    else (Text.count? value).map fun n => { o with limit := some n }

def setPretty (o : Options) : Option Options :=
  if o.pretty then none else some { o with pretty := true }

def setTemplate (o : Options) (path : String) : Option Options :=
  (once o.template path).map fun template => { o with template }

end Options

inductive Said
  | misuse
  | help
  | options (o : Options)
  /-- The value is in the next word. -/
  | wants (option : Valued) (o : Options)
  deriving DecidableEq, Repr

namespace Said

def ofOptions? : Option Options → Said
  | some o => .options o
  | none => .misuse

def value (o : Options) (option : Valued) (attached : List Char) : Said :=
  match attached with
  | [] => .wants option o
  | '=' :: value => ofOptions? (o.set option (String.ofList value))
  | value => ofOptions? (o.set option (String.ofList value))

def ofLetters : List Char → Options → Said
  | [], o => .options o
  | 'p' :: r, o =>
    match o.setPretty with
    | some o => ofLetters r o
    | none => .misuse
  | 'd' :: r, o => value o .data r
  | 't' :: r, o => value o .tags r
  | 'o' :: r, o => value o .output r
  | 'h' :: _, _ => .help
  | _ :: _, _ => .misuse

def longOptions : List (String × Valued) :=
  [("data", .data), ("tags", .tags), ("output", .output), ("max-include-depth", .limit)]

def ofLong (word : List Char) (o : Options) : Said :=
  let name := String.ofList (word.takeWhile (· != '='))
  let attached := word.dropWhile (· != '=')
  match Assoc.get? name longOptions with
  | some option => value o option attached
  | none =>
    if attached ≠ [] then .misuse
    else if name = "pretty" then ofOptions? o.setPretty
    else if name = "help" then .help
    else .misuse

end Said

def isOption (word : String) : Bool :=
  match word.toList with
  | '-' :: _ :: _ => true
  | _ => false

namespace Request

/-- Reads words after options that have been read. After two hyphens every word is a file. -/
def read (o : Options) (filesOnly : Bool) : List String → Request
  | [] => .run o
  | word :: words =>
    if filesOnly || !isOption word then
      match o.setTemplate word with
      | some o => read o filesOnly words
      | none => .misuse
    else if word = "--" then read o true words
    else
      let said := match word.toList with
        | '-' :: '-' :: long => Said.ofLong long o
        | _ :: letters => Said.ofLetters letters o
        | [] => .misuse
      match said, words with
      | .misuse, _ => .misuse
      | .help, _ => .help
      | .options o, words => read o filesOnly words
      | .wants _ _, [] => .misuse
      | .wants option o, value :: words =>
        if isOption value then .misuse
        else
          match o.set option value with
          | some o => read o filesOnly words
          | none => .misuse

def ofWords (words : List String) : Request := read {} false words

end Request
end Command
end Stencil
