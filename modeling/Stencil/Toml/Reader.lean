import Stencil.Text

/-! Readers: functions that take something off the beginning of a text.
`many` repeats a reader as long as it consumes something, so every reader built from it is total. -/
namespace Stencil
namespace Toml

abbrev Reader (α : Type) := List Char → Option (α × List Char)

namespace Reader

def char (p : Char → Bool) : Reader Char
  | c :: r => if p c then some (c, r) else none
  | [] => none

def literal (mark : String) : Reader Unit := fun text =>
  (Text.after? mark.toList text).map fun rest => ((), rest)

def chars (p : Char → Bool) (text : List Char) : List Char × List Char :=
  (text.takeWhile p, text.dropWhile p)

def many {α : Type} (read : Reader α) (text : List Char) : List α × List Char :=
  match read text with
  | none => ([], text)
  | some (a, rest) =>
    if rest.length < text.length then
      let more := many read rest
      (a :: more.1, more.2)
    else ([], text)
termination_by text.length

def optional {α : Type} (read : Reader α) (text : List Char) : Option α × List Char :=
  match read text with
  | some (a, rest) => (some a, rest)
  | none => (none, text)

def exactly (n : Nat) (p : Char → Bool) : Reader (List Char) := fun text =>
  let taken := text.take n
  if taken.length = n ∧ taken.all p then some (taken, text.drop n) else none

def number (n : Nat) : Reader Nat := fun text =>
  match exactly n Char.isDigit text with
  | some (digits, rest) => (Text.natOfDigits? digits).map fun k => (k, rest)
  | none => none

end Reader

def isSpace (c : Char) : Bool := c == ' ' || c == '\t'

/-- Characters that comments and quoted texts may hold: no control character but the tab. -/
def isPlain (c : Char) : Bool := c == '\t' || (0x20 ≤ c.toNat && c.toNat != 0x7F)

def skipSpace (text : List Char) : List Char := text.dropWhile isSpace

def newline : Reader Unit
  | '\n' :: r => some ((), r)
  | '\r' :: '\n' :: r => some ((), r)
  | _ => none

def lineEnd : Reader Unit
  | [] => some ((), [])
  | text => newline text

def comment : Reader Unit
  | '#' :: r => some ((), r.dropWhile isPlain)
  | _ => none

def endOfEntry : Reader Unit := fun text =>
  lineEnd (Reader.optional comment (skipSpace text)).2

def filler : Reader Unit
  | ' ' :: r => some ((), r)
  | '\t' :: r => some ((), r)
  | text => (newline text).or (comment text)

def skipFiller (text : List Char) : List Char := (Reader.many filler text).2

end Toml
end Stencil
