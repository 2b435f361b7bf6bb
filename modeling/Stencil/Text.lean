/-! Source text as characters with byte offsets.
Every offset counts bytes of the UTF-8 form, so a character is as wide as its encoding. The main
statements say that `after?` finds exactly the texts that begin with a mark, and that `cut?` splits
a text at a mark without losing anything. -/
namespace Stencil

abbrev Bytes := List UInt8

/-- A half-open range of byte offsets. -/
structure Span where
  start : Nat
  stop : Nat
  deriving DecidableEq, Repr

namespace Text

/-- The number of bytes that the characters take. -/
def size : List Char → Nat
  | [] => 0
  | c :: r => c.utf8Size + size r

@[simp] theorem size_nil : size [] = 0 := rfl

@[simp] theorem size_cons (c : Char) (r : List Char) : size (c :: r) = c.utf8Size + size r := rfl

@[simp] theorem size_append (a b : List Char) : size (a ++ b) = size a + size b := by
  induction a with
  | nil => simp
  | cons c r ih => simp [ih, Nat.add_assoc]

def bytes (text : List Char) : Bytes := text.flatMap String.utf8EncodeChar

def encode (s : String) : Bytes := bytes s.toList

theorem bytes_cons (c : Char) (r : List Char) :
    bytes (c :: r) = String.utf8EncodeChar c ++ bytes r := rfl

theorem length_bytes (text : List Char) : (bytes text).length = size text := by
  induction text with
  | nil => rfl
  | cons c r ih =>
    rw [bytes_cons, List.length_append, String.length_utf8EncodeChar, ih, size_cons]

@[simp] theorem bytes_append (a b : List Char) : bytes (a ++ b) = bytes a ++ bytes b := by
  simp [bytes]

/-- What follows `mark`, if the text begins with it. -/
def after? : List Char → List Char → Option (List Char)
  | [], text => some text
  | _ :: _, [] => none
  | m :: mark, c :: text => if m = c then after? mark text else none

theorem after?_eq_some_iff {mark text rest : List Char} :
    after? mark text = some rest ↔ text = mark ++ rest := by
  induction mark generalizing text with
  | nil => simp [after?]
  | cons m mark ih =>
    cases text with
    | nil => simp [after?]
    | cons c text =>
      by_cases h : m = c
      · simp [after?, h, ih]
      · simp [after?, h, Ne.symm h]

def begins (mark text : List Char) : Bool := (after? mark text).isSome

/-- The text before the first occurrence of `mark` and the text after it. -/
def cut? (mark : List Char) : List Char → Option (List Char × List Char)
  | [] => (after? mark []).map fun rest => ([], rest)
  | c :: text =>
    match after? mark (c :: text) with
    | some rest => some ([], rest)
    | none => (cut? mark text).map fun p => (c :: p.1, p.2)

theorem eq_of_cut? {mark text a b : List Char} (h : cut? mark text = some (a, b)) :
    text = a ++ mark ++ b := by
  induction text generalizing a b with
  | nil =>
    simp only [cut?, Option.map_eq_some_iff] at h
    obtain ⟨r, hr, he⟩ := h
    cases he
    simpa using after?_eq_some_iff.mp hr
  | cons c text ih =>
    unfold cut? at h
    split at h
    · rename_i rest hr
      cases h
      simpa using after?_eq_some_iff.mp hr
    · obtain ⟨p, hp, he⟩ := Option.map_eq_some_iff.mp h
      cases he
      simp [ih hp]

/-- The first characters that fill exactly `n` bytes, and the rest; nothing if a character would
be cut. -/
def split? : List Char → Nat → Option (List Char × List Char)
  | text, 0 => some ([], text)
  | [], _ + 1 => none
  | c :: r, n + 1 =>
    if c.utf8Size ≤ n + 1 then
      (split? r (n + 1 - c.utf8Size)).map fun p => (c :: p.1, p.2)
    else none

/-- The characters of a span, if both of its ends lie between characters. -/
def slice? (source : List Char) (span : Span) : Option (List Char) :=
  if span.start ≤ span.stop then
    (split? source span.start).bind fun p =>
      (split? p.2 (span.stop - span.start)).map fun q => q.1
  else none

theorem split?_append (a b : List Char) : split? (a ++ b) (size a) = some (a, b) := by
  induction a with
  | nil => cases b <;> rfl
  | cons c a ih =>
    have hpos := c.utf8Size_pos
    obtain ⟨n, hn⟩ : ∃ n, size (c :: a) = n + 1 := ⟨size (c :: a) - 1, by rw [size_cons]; omega⟩
    have hsize : n + 1 - c.utf8Size = size a := by rw [← hn, size_cons]; omega
    have hle : c.utf8Size ≤ n + 1 := by rw [← hn, size_cons]; omega
    rw [hn, List.cons_append, split?, if_pos hle, hsize, ih]
    rfl

theorem slice?_append (before covered after : List Char) :
    slice? (before ++ covered ++ after) ⟨size before, size (before ++ covered)⟩ =
      some covered := by
  have hle : size before ≤ size (before ++ covered) := by simp
  have hsize : size (before ++ covered) - size before = size covered := by simp
  rw [slice?, if_pos hle, List.append_assoc, split?_append, Option.bind_some, hsize,
    split?_append]
  rfl

/-- Blank characters: those with the property `White_Space`. -/
def isBlank (c : Char) : Bool :=
  let n := c.toNat
  (0x9 ≤ n && n ≤ 0xD) || n == 0x20 || n == 0x85 || n == 0xA0 || n == 0x1680 ||
    (0x2000 ≤ n && n ≤ 0x200A) || n == 0x2028 || n == 0x2029 || n == 0x202F || n == 0x205F ||
    n == 0x3000

theorem isBlank_of_isWhitespace {c : Char} (h : c.isWhitespace = true) : isBlank c = true := by
  simp only [Char.isWhitespace, Bool.or_eq_true, decide_eq_true_eq] at h
  rcases h with ((h | h) | h) | h <;> subst h <;> decide

def numeral (n : Nat) : String := String.ofList (Nat.toDigits 10 n)

/-- Reads a numeral made of ASCII digits only, with at least one of them. -/
def natOfDigits? : List Char → Option Nat
  | [] => none
  | cs =>
    cs.foldl (fun acc c => acc.bind fun n =>
      if c.isDigit then some (10 * n + (c.toNat - '0'.toNat)) else none) (some 0)

def countLimit : Nat := 18446744073709551616

/-- Reads a count: digits after an optional plus sign, below `countLimit`. -/
def count? (s : String) : Option Nat :=
  let digits := match s.toList with
    | '+' :: r => r
    | r => r
  (natOfDigits? digits).filter (· < countLimit)

end Text
end Stencil
