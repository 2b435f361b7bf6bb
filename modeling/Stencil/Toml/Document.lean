import Stencil.Toml.Layout
import Stencil.Toml.Quoted

/-! Reading TOML documents. -/
namespace Stencil
namespace Toml

namespace Value

def elements (read : Reader Value) : Reader Value := fun text =>
  let element : Reader Value := fun text =>
    (read (skipFiller text)).map fun p => (p.1, skipFiller p.2)
  let next : Reader Value
    | ',' :: r => element r
    | _ => none
  let finish (values : List Value) (text : List Char) : Option (Value × List Char) :=
    match skipFiller text with
    | ']' :: r => some (.array values, r)
    | _ => none
  match element text with
  | none => finish [] text
  | some (first, text) =>
    let more := Reader.many next text
    finish (first :: more.1) (Reader.optional (Reader.literal ",") more.2).2

def pair (read : Reader Value) : Reader Entries.Pair := fun text => do
  let ((path, key), text) ← Quoted.keyPath text
  let (_, text) ← Reader.literal "=" text
  let (v, text) ← read (skipSpace text)
  some (⟨path, key, v⟩, text)

def inlineEntries (read : Reader Value) : Reader Value := fun text =>
  let spaced : Reader Entries.Pair := fun text =>
    (pair read text).map fun p => (p.1, skipSpace p.2)
  let next : Reader Entries.Pair
    | ',' :: r => spaced r
    | _ => none
  let finish (pairs : List Entries.Pair) (text : List Char) : Option (Value × List Char) :=
    match skipSpace text with
    | c :: r =>
      if c = '\x7d' then (Entries.putAll pairs []).map fun es => (.table (entryValues es), r)
      else none
    | [] => none
  match spaced text with
  | none => finish [] text
  | some (first, text) =>
    let more := Reader.many next text
    finish (first :: more.1) more.2

def numeric : Reader Value := fun text =>
  (((Date.read text).map fun p => (Value.date p.1, p.2)).or
    ((Number.float text).map fun p => (Value.float p.1, p.2))).or
    ((Number.integer text).map fun p => (Value.integer p.1, p.2))

def scalar : Reader Value := fun text =>
  match Reader.literal "true" text, Reader.literal "false" text with
  | some (_, rest), _ => some (.boolean true, rest)
  | none, some (_, rest) => some (.boolean false, rest)
  | none, none => ((Quoted.text text).map fun p => (Value.string p.1, p.2)).or (numeric text)

/-- A value in which arrays and tables nest at most so deep. -/
def read : Nat → Reader Value
  | levels, c :: r =>
    if c = '[' then
      match levels with
      | 0 => none
      | levels + 1 => elements (read levels) r
    else if c = '\x7b' then
      match levels with
      | 0 => none
      | levels + 1 => inlineEntries (read levels) r
    else scalar (c :: r)
  | _, [] => none

end Value

inductive Line
  | idle
  | pair (p : Entries.Pair)
  | header (ofArray : Bool) (path : List String) (key : String)

namespace Line

def readHeader (ofArray : Bool) (closing : String) : Reader Line := fun text => do
  let ((path, key), text) ← Quoted.keyPath text
  let (_, text) ← Reader.literal closing text
  let (_, text) ← endOfEntry text
  some (.header ofArray path key, text)

def readEntry : Reader Line
  | '#' :: r => do
    let (_, text) ← comment ('#' :: r)
    let (_, text) ← lineEnd text
    some (.idle, text)
  | '[' :: '[' :: r => readHeader true "]]" r
  | '[' :: r => readHeader false "]" r
  | '\n' :: r => some (.idle, r)
  | '\r' :: r => (newline ('\r' :: r)).map fun p => (.idle, p.2)
  | text => do
    let (p, text) ← Value.pair (Value.read (Quoted.nestingLimit - 1)) text
    let (_, text) ← endOfEntry text
    some (.pair p, text)

def read : Reader Line := fun text => (readEntry text).map fun p => (p.1, skipSpace p.2)

end Line

abbrev Section := (Bool × List String × String) × List Entries.Pair

/-- The pairs before the first header, and the sections that follow. -/
def sections : List Line → List Entries.Pair × List Section
  | [] => ([], [])
  | .idle :: r => sections r
  | .pair p :: r =>
    let s := sections r
    (p :: s.1, s.2)
  | .header ofArray path key :: r =>
    let s := sections r
    ([], ((ofArray, path, key), s.1) :: s.2)

def ofLines (lines : List Line) : Option Entries := do
  let (first, others) := sections lines
  let root ← Entries.putAll first []
  others.foldlM (fun root s =>
    let ((ofArray, path, key), pairs) := s
    if ofArray then root.addElement path key pairs else root.addTable path key pairs) root

/-- Reads a document. A byte order mark may stand before it. -/
def parse? (s : String) : Option (List (String × Value)) :=
  let text := match s.toList with
    | '\uFEFF' :: r => r
    | r => r
  let p := Reader.many Line.read (skipSpace text)
  if p.2 = [] then (ofLines p.1).map entryValues else none

end Toml
end Stencil
