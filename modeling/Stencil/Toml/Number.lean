import Stencil.Toml.Value

/-! Numbers of TOML documents: integers of 64 bits in four bases, and floating-point numbers.
Underscores may stand between digits. -/
namespace Stencil
namespace Toml
namespace Number

def groupedDigit (isDigit : Char → Bool) : Reader Char
  | '_' :: r => Reader.char isDigit r
  | text => Reader.char isDigit text

/-- Digits with underscores between them, at least one. -/
def grouped (isDigit : Char → Bool) : Reader (List Char) := fun text => do
  let (first, text) ← Reader.char isDigit text
  let (more, text) := Reader.many (groupedDigit isDigit) text
  some (first :: more, text)

def sign (text : List Char) : Bool × List Char :=
  match text with
  | '-' :: r => (true, r)
  | '+' :: r => (false, r)
  | r => (false, r)

/-- Decimal digits that begin with a zero only if there is no other. -/
def decimalDigits : Reader (List Char)
  | '0' :: r => some (['0'], r)
  | text => grouped Char.isDigit text

def digitValue (c : Char) : Nat :=
  if c.isDigit then c.toNat - '0'.toNat
  else if c.isUpper then c.toNat - 'A'.toNat + 10
  else c.toNat - 'a'.toNat + 10

def ofDigits (base : Nat) (digits : List Char) : Nat :=
  digits.foldl (fun n c => base * n + digitValue c) 0

def isHexDigit (c : Char) : Bool :=
  c.isDigit || ('a' ≤ c && c ≤ 'f') || ('A' ≤ c && c ≤ 'F')

def inRange (n : Int) : Option Int :=
  if -9223372036854775808 ≤ n ∧ n < 9223372036854775808 then some n else none

def based (base : Nat) (isDigit : Char → Bool) : Reader Int := fun text => do
  let (digits, text) ← grouped isDigit text
  let n ← inRange (ofDigits base digits)
  some (n, text)

def integer : Reader Int
  | '0' :: 'x' :: r => based 16 isHexDigit r
  | '0' :: 'o' :: r => based 8 (fun c => '0' ≤ c && c ≤ '7') r
  | '0' :: 'b' :: r => based 2 (fun c => c == '0' || c == '1') r
  | text => do
    let (negative, text) := sign text
    let (digits, text) ← decimalDigits text
    let n : Int := ofDigits 10 digits
    let n ← inRange (if negative then -n else n)
    some (n, text)

def exponent : Reader Int := fun text => do
  let (_, text) ← Reader.char (fun c => c == 'e' || c == 'E') text
  let (negative, text) := sign text
  let (digits, text) ← grouped Char.isDigit text
  let n : Int := ofDigits 10 digits
  some (if negative then -n else n, text)

def places : Reader (List Char)
  | '.' :: r => grouped Char.isDigit r
  | _ => none

/-- A number with a point or an exponent. A positive one must be finite. -/
def decimal : Reader Binary64 := fun text => do
  let (negative, text) := sign text
  let (whole, text) ← decimalDigits text
  let (fraction, text) := Reader.optional places text
  let (power, text) := Reader.optional exponent text
  if fraction.isNone ∧ power.isNone then none
  else
    let behind := fraction.getD []
    let x := Binary64.ofDecimal negative (ofDigits 10 (whole ++ behind))
      (power.getD 0 - behind.length)
    if x = .infinite false then none else some (x, text)

def special : Reader Binary64 := fun text =>
  let (negative, text) := sign text
  match Reader.literal "inf" text, Reader.literal "nan" text with
  | some (_, rest), _ => some (.infinite negative, rest)
  | none, some (_, rest) => some (.nan, rest)
  | none, none => none

def float : Reader Binary64 := fun text => (decimal text).or (special text)

end Number
end Toml
end Stencil
