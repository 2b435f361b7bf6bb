import Stencil.Toml.Reader

/-! Dates and times.
A date, a time of day, or both with an optional distance from universal time. A fraction of a
second has nine places. -/
namespace Stencil
namespace Toml

structure Day where
  year : Nat
  month : Nat
  day : Nat
  deriving DecidableEq, Repr

structure Clock where
  hour : Nat
  minute : Nat
  second : Nat
  nanosecond : Nat
  deriving DecidableEq, Repr

inductive Offset
  | universal
  | minutes (ahead : Int)
  deriving DecidableEq, Repr

structure Date where
  day : Option Day
  clock : Option Clock
  offset : Option Offset
  deriving DecidableEq, Repr

namespace Day

def isLeap (year : Nat) : Bool := year % 4 == 0 && (year % 100 != 0 || year % 400 == 0)

def daysIn (year month : Nat) : Nat :=
  match month with
  | 2 => if isLeap year then 29 else 28
  | 4 | 6 | 9 | 11 => 30
  | _ => 31

def isValid (d : Day) : Bool :=
  1 ≤ d.month && d.month ≤ 12 && 1 ≤ d.day && d.day ≤ daysIn d.year d.month

end Day

def padded (width n : Nat) : String :=
  let digits := Nat.toDigits 10 n
  String.ofList (List.replicate (width - digits.length) '0' ++ digits)

def Day.text (d : Day) : String :=
  padded 4 d.year ++ "-" ++ padded 2 d.month ++ "-" ++ padded 2 d.day

def Clock.text (c : Clock) : String :=
  let whole := padded 2 c.hour ++ ":" ++ padded 2 c.minute ++ ":" ++ padded 2 c.second
  if c.nanosecond = 0 then whole
  else
    let places := (padded 9 c.nanosecond).toList.reverse.dropWhile (· == '0')
    whole ++ "." ++ String.ofList places.reverse

def Offset.text : Offset → String
  | universal => "Z"
  | minutes ahead =>
    (if ahead < 0 then "-" else "+") ++ padded 2 (ahead.natAbs / 60) ++ ":" ++
      padded 2 (ahead.natAbs % 60)

/-- The nanoseconds that the digits after the point of a second stand for. -/
def Clock.nanoseconds (digits : List Char) : Nat :=
  let kept := digits.take 9
  ((Text.natOfDigits? kept).getD 0) * Nat.pow 10 (9 - kept.length)

def Clock.fraction (text : List Char) : Option (Nat × List Char) :=
  match text with
  | '.' :: rest =>
    let p := Reader.chars Char.isDigit rest
    if p.1 = [] then none else some (Clock.nanoseconds p.1, p.2)
  | _ => some (0, text)

/-- A time of day. The last minute before a leap second has 61 seconds. -/
def Clock.read : Reader Clock := fun text => do
  let (hour, text) ← Reader.number 2 text
  let (_, text) ← Reader.literal ":" text
  let (minute, text) ← Reader.number 2 text
  let (_, text) ← Reader.literal ":" text
  let (second, text) ← Reader.number 2 text
  let (nanosecond, text) ← Clock.fraction text
  if hour ≤ 23 ∧ minute ≤ 59 ∧ second ≤ 60 then
    some (⟨hour, minute, second, nanosecond⟩, text)
  else none

def Day.read : Reader Day := fun text => do
  let (year, text) ← Reader.number 4 text
  let (_, text) ← Reader.literal "-" text
  let (month, text) ← Reader.number 2 text
  let (_, text) ← Reader.literal "-" text
  let (number, text) ← Reader.number 2 text
  let d : Day := ⟨year, month, number⟩
  if d.isValid then some (d, text) else none

def Offset.read : Reader Offset := fun text => do
  let (sign, text) ← Reader.char (fun c => "Zz+-".toList.contains c) text
  if sign = 'Z' ∨ sign = 'z' then some (.universal, text)
  else
    let (hour, text) ← Reader.number 2 text
    let (_, text) ← Reader.literal ":" text
    let (minute, text) ← Reader.number 2 text
    let total : Int := hour * 60 + minute
    if hour ≤ 23 ∧ minute ≤ 59 then
      some (.minutes (if sign = '-' then -total else total), text)
    else none

def Date.between : Reader Char := Reader.char fun c => c == 'T' || c == 't' || c == ' '

namespace Date

def text (d : Date) : String :=
  let day := (d.day.map Day.text).getD ""
  let clock := (d.clock.map Clock.text).getD ""
  let between := if d.day.isSome ∧ d.clock.isSome then "T" else ""
  day ++ between ++ clock ++ (d.offset.map Offset.text).getD ""

/-- A date at the beginning of a text. What follows a day belongs to it only if it is a whole time
of day. -/
def read : Reader Date := fun text =>
  match Day.read text with
  | some (d, rest) =>
    match (between rest).bind fun p => Clock.read p.2 with
    | some (c, rest) =>
      let o := Reader.optional Offset.read rest
      some (⟨some d, some c, o.1⟩, o.2)
    | none => some (⟨some d, none, none⟩, rest)
  | none => (Clock.read text).map fun p => (⟨none, some p.1, none⟩, p.2)

def ofText? (s : String) : Option Date :=
  match read s.toList with
  | some (d, []) => some d
  | _ => none

end Date
end Toml
end Stencil
