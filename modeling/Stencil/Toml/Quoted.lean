import Stencil.Toml.Number

/-! Quoted texts and keys of TOML documents.
Basic texts have escapes, literal ones have none; three quotes enclose a text over several lines,
and up to two more may stand before the closing ones. -/
namespace Stencil
namespace Toml
namespace Quoted

def codePoint (width : Nat) : Reader Char := fun text => do
  let (digits, rest) ← Reader.exactly width Number.isHexDigit text
  let n := Number.ofDigits 16 digits
  if n.isValidChar then some (Char.ofNat n, rest) else none

def escape : Reader Char
  | '\\' :: c :: r =>
    match c with
    | 'b' => some ('\x08', r)
    | 't' => some ('\t', r)
    | 'n' => some ('\n', r)
    | 'f' => some ('\x0c', r)
    | 'r' => some ('\r', r)
    | '"' => some ('"', r)
    | '\\' => some ('\\', r)
    | 'u' => codePoint 4 r
    | 'U' => codePoint 8 r
    | _ => none
  | _ => none

def basicChar : Reader Char := fun text =>
  (Reader.char (fun c => isPlain c && c != '"' && c != '\\') text).or (escape text)

def literalChar : Reader Char := Reader.char fun c => isPlain c && c != '\''

def upTo (quote : Char) (piece : Reader Char) : Reader String := fun text =>
  let p := Reader.many piece text
  match p.2 with
  | c :: rest => if c = quote then some (String.ofList p.1, rest) else none
  | [] => none

/-- A backslash at the end of a line, with all blanks and line ends that follow. -/
def joint : Reader Unit
  | '\\' :: r =>
    match newline (skipSpace r) with
    | some (_, rest) =>
      let blank : Reader Unit := fun text =>
        (newline text).or ((Reader.char isSpace text).map fun p => ((), p.2))
      some ((), (Reader.many blank rest).2)
    | none => none
  | _ => none

/-- One or two quotes inside a text that three enclose. -/
def loneQuotes (quote : Char) : Reader (List Char) := fun text =>
  let run := Reader.chars (· == quote) text
  if run.1.length = 1 ∨ run.1.length = 2 then some run else none

def piece (quote : Char) (char : Reader Char) : Reader (List Char) := fun text =>
  let single := (char text).map fun p => ([p.1], p.2)
  let line := (newline text).map fun p => (['\n'], p.2)
  (single.or line).or (loneQuotes quote text)

def basicPiece : Reader (List Char) := fun text =>
  ((joint text).map fun p => ([], p.2)).or (piece '"' basicChar text)

/-- Pieces up to the closing quotes. A line end right after the opening ones means nothing. -/
def upToThree (quote : Char) (piece : Reader (List Char)) : Reader String := fun text =>
  let start := (Reader.optional newline text).2
  let p := Reader.many piece start
  let run := Reader.chars (· == quote) p.2
  let n := run.1.length
  if 3 ≤ n ∧ n ≤ 5 then
    some (String.ofList (p.1.flatten ++ List.replicate (n - 3) quote), run.2)
  else none

def text : Reader String
  | '"' :: '"' :: '"' :: r => upToThree '"' basicPiece r
  | '"' :: r => upTo '"' basicChar r
  | '\'' :: '\'' :: '\'' :: r => upToThree '\'' (piece '\'' literalChar) r
  | '\'' :: r => upTo '\'' literalChar r
  | _ => none

def isBareKey (c : Char) : Bool := c.isAlphanum || c == '_' || c == '-'

def simpleKey : Reader String
  | '"' :: r => upTo '"' basicChar r
  | '\'' :: r => upTo '\'' literalChar r
  | text =>
    let p := Reader.chars isBareKey text
    if p.1 = [] then none else some (String.ofList p.1, p.2)

def spacedKey : Reader String := fun text =>
  (simpleKey (skipSpace text)).map fun p => (p.1, skipSpace p.2)

/-- The number of keys of a path, and of arrays and tables inside one another, has to stay below. -/
def nestingLimit : Nat := 80

def keyPath : Reader (List String × String) := fun text => do
  let (first, text) ← spacedKey text
  let more : Reader String
    | '.' :: r => spacedKey r
    | _ => none
  let (others, text) := Reader.many more text
  let keys := first :: others
  if keys.length < nestingLimit then some ((keys.dropLast, keys.getLastD first), text) else none

end Quoted
end Toml
end Stencil
