import Stencil.Text

/-! Binary floating-point numbers of 64 bits.
A finite number is `m * 2 ^ q` with `m < 2 ^ 53`. A decimal is rounded to the nearest of them, the
even `m` of two, and a number is written with the fewest decimal digits that are rounded back to
it. All arithmetic is exact. -/
namespace Stencil

inductive Binary64
  | finite (negative : Bool) (m : Nat) (q : Int)
  | infinite (negative : Bool)
  | nan
  deriving DecidableEq, Repr

namespace Binary64

/-- Two to the power of 53, which `m` stays below. -/
def precision : Nat := 9007199254740992

def least : Int := -1074

def greatest : Int := 971

/-- A quotient rounded to the nearest integer, to the even one of two. -/
def roundDiv (num den : Nat) : Nat :=
  let d := num / den
  let r := num % den
  if 2 * r < den then d
  else if den < 2 * r then d + 1
  else if d % 2 = 0 then d else d + 1

def scaled (base num den : Nat) (e : Int) : Nat × Nat :=
  if 0 ≤ e then (num * Nat.pow base e.toNat, den) else (num, den * Nat.pow base (-e).toNat)

def digitCount (n : Nat) : Nat := (Nat.toDigits 10 n).length

def ofFraction (negative : Bool) (num den : Nat) : Binary64 :=
  let guess : Int := (Nat.log2 num : Int) - (Nat.log2 den : Int) - 53
  let round (q : Int) : Nat :=
    let f := scaled 2 num den (-q)
    roundDiv f.1 f.2
  let q0 := max guess least
  let q := if round q0 < precision then q0 else q0 + 1
  let m := round q
  let (m, q) := if m < precision then (m, q) else (precision / 2, q + 1)
  if greatest < q then .infinite negative else .finite negative m q

/-- The number nearest to `digits * 10 ^ e`. -/
def ofDecimal (negative : Bool) (digits : Nat) (e : Int) : Binary64 :=
  if digits = 0 then .finite negative 0 least
  else
    let point : Int := digitCount digits + e
    if 400 < point then .infinite negative
    else if point < -400 then .finite negative 0 least
    else
      let f := scaled 10 digits 1 e
      ofFraction negative f.1 f.2

/-- The decimals that are rounded to `m * 2 ^ q`: four times the number lies between these, both
included if `m` is even. -/
def bounds (m : Nat) (q : Int) : Nat × Nat :=
  (if m = precision / 2 ∧ least < q then 4 * m - 1 else 4 * m - 2, 4 * m + 2)

/-- The decimal exponent `k` with `10 ^ (k - 1) ≤ num / den < 10 ^ k`, looked for upwards. -/
def magnitude (num den : Nat) : Nat → Int → Int
  | 0, k => k
  | tries + 1, k =>
    let f := scaled 10 1 1 k
    if num * f.2 < f.1 * den then k else magnitude num den tries (k + 1)

/-- Looks for the fewest digits that lie between the bounds, from `n` digits upwards: of the two
neighbours with so many digits the nearer one, the greater of equally near ones. -/
def shortestFrom (m : Nat) (q k : Int) (mantissa : Nat) : Nat → Nat → Nat × Int
  | 0, _ => (m, q)
  | tries + 1, n =>
    let step : Int := k - n
    let v := scaled 2 (4 * mantissa) 1 (q - 2)
    let unit := scaled 10 1 1 step
    -- everything times `v.2 * unit.2`, in units of the grid
    let value := v.1 * unit.2
    let grid := unit.1 * v.2
    let low := value / grid
    let b := bounds mantissa q
    let edge (x : Nat) : Nat :=
      let s := scaled 2 x 1 (q - 2)
      s.1 * unit.2
    let inside (d : Nat) : Bool :=
      if mantissa % 2 = 0 then edge b.1 ≤ d * grid && d * grid ≤ edge b.2
      else edge b.1 < d * grid && d * grid < edge b.2
    if inside low && inside (low + 1) then
      if value - low * grid < (low + 1) * grid - value then (low, step) else (low + 1, step)
    else if inside low then (low, step)
    else if inside (low + 1) then (low + 1, step)
    else shortestFrom m q k mantissa tries (n + 1)

def shortest (m : Nat) (q : Int) : Nat × Int :=
  let f := scaled 2 m 1 q
  let k := magnitude f.1 f.2 700 (-330)
  shortestFrom m q k m 17 1

def positional (digits : List Char) (e : Int) : List Char :=
  if 0 ≤ e then digits ++ List.replicate e.toNat '0' ++ ".0".toList
  else
    let places := (-e).toNat
    let padded := List.replicate (places + 1 - digits.length) '0' ++ digits
    let split := padded.length - places
    let fraction := ((padded.drop split).reverse.dropWhile (· == '0')).reverse
    padded.take split ++ '.' :: (if fraction = [] then ['0'] else fraction)

/-- The text of a number: the fewest digits, never an exponent, and at least one place. -/
def text : Binary64 → String
  | nan => "nan"
  | infinite negative => if negative then "-inf" else "inf"
  | finite negative m q =>
    let body :=
      if m = 0 then "0.0".toList
      else
        let (digits, e) := shortest m q
        positional (Nat.toDigits 10 digits) e
    String.ofList (if negative then '-' :: body else body)

end Binary64
end Stencil
