import Stencil.Text

/-! Reading bytes as UTF-8.
Bytes are read as characters and pieces that no character begins with or goes on from; a piece ends
as soon as it is seen that it cannot be completed. The main statements say that the bytes of a text
are read as that text. -/
namespace Stencil
namespace Text

/-- A character that has been begun: its code so far, how many bytes are still wanted, and the
range in which the next one has to lie. -/
structure Partial where
  code : Nat
  wanted : Nat
  low : Nat
  high : Nat
  deriving DecidableEq, Repr

/-- What a byte begins: a character of its own, a longer one, or nothing. -/
inductive Begun
  | single (c : Char)
  | longer (p : Partial)
  | bad
  deriving DecidableEq, Repr

def begin (byte : Nat) : Begun :=
  if byte < 0x80 then .single (Char.ofNat byte)
  else if byte < 0xC2 then .bad
  else if byte < 0xE0 then .longer ⟨byte - 0xC0, 1, 0x80, 0xBF⟩
  else if byte < 0xF0 then
    .longer ⟨byte - 0xE0, 2, if byte = 0xE0 then 0xA0 else 0x80, if byte = 0xED then 0x9F else 0xBF⟩
  else if byte < 0xF5 then
    .longer ⟨byte - 0xF0, 3, if byte = 0xF0 then 0x90 else 0x80, if byte = 0xF4 then 0x8F else 0xBF⟩
  else .bad

/-- What is complete after a byte between characters, and what has then been begun. -/
def start (byte : Nat) : List (Option Char) × Option Partial :=
  match begin byte with
  | .single c => ([some c], none)
  | .longer p => ([], some p)
  | .bad => ([none], none)

/-- The same where a character may have been begun. A byte that does not go on with it ends a piece
that is no character, and begins anew. -/
def step (state : Option Partial) (byte : Nat) : List (Option Char) × Option Partial :=
  match state with
  | none => start byte
  | some p =>
    if p.low ≤ byte ∧ byte ≤ p.high then
      let code := p.code * 64 + (byte - 0x80)
      if p.wanted ≤ 1 then ([some (Char.ofNat code)], none)
      else ([], some ⟨code, p.wanted - 1, 0x80, 0xBF⟩)
    else
      let fresh := start byte
      (none :: fresh.1, fresh.2)

/-- The characters of the bytes, nothing for each piece that is none. A character may have been
begun before them. -/
def decodeFrom : Option Partial → Bytes → List (Option Char)
  | none, [] => []
  | some _, [] => [none]
  | state, b :: r =>
    let s := step state b.toNat
    s.1 ++ decodeFrom s.2 r

def decode? (bytes : Bytes) : Option String :=
  ((decodeFrom none bytes).mapM id).map String.ofList

def replacement : Char := '\uFFFD'

/-- The text of any bytes, with a replacement for each piece that is no character. -/
def decodeLossy (bytes : Bytes) : String :=
  String.ofList ((decodeFrom none bytes).map fun c => c.getD replacement)

theorem decodeFrom_cons (state : Option Partial) (b : UInt8) (r : Bytes) :
    decodeFrom state (b :: r) =
      (step state b.toNat).1 ++ decodeFrom (step state b.toNat).2 r := by
  cases state <;> rfl

theorem decodeFrom_single {b : UInt8} (h : b.toNat < 0x80) (r : Bytes) :
    decodeFrom none (b :: r) = some (Char.ofNat b.toNat) :: decodeFrom none r := by
  simp [decodeFrom_cons, step, start, begin, h]

theorem decodeFrom_first {b : UInt8} {p : Partial} (h : begin b.toNat = .longer p) (r : Bytes) :
    decodeFrom none (b :: r) = decodeFrom (some p) r := by
  simp [decodeFrom_cons, step, start, h]

theorem decodeFrom_middle {b : UInt8} {p : Partial} (wanted : 1 < p.wanted)
    (low : p.low ≤ b.toNat) (high : b.toNat ≤ p.high) (r : Bytes) :
    decodeFrom (some p) (b :: r) =
      decodeFrom (some ⟨p.code * 64 + (b.toNat - 0x80), p.wanted - 1, 0x80, 0xBF⟩) r := by
  simp [decodeFrom_cons, step, low, high, Nat.not_le.mpr wanted]

theorem decodeFrom_last {b : UInt8} {p : Partial} (wanted : p.wanted ≤ 1)
    (low : p.low ≤ b.toNat) (high : b.toNat ≤ p.high) (r : Bytes) :
    decodeFrom (some p) (b :: r) =
      some (Char.ofNat (p.code * 64 + (b.toNat - 0x80))) :: decodeFrom none r := by
  simp [decodeFrom_cons, step, low, high, wanted]

theorem begin_two {n : Nat} (low : 0xC2 ≤ n) (high : n < 0xE0) :
    begin n = .longer ⟨n - 0xC0, 1, 0x80, 0xBF⟩ := by
  unfold begin
  rw [if_neg (by omega), if_neg (by omega), if_pos high]

theorem begin_three {n : Nat} (low : 0xE0 ≤ n) (high : n < 0xF0) :
    begin n = .longer ⟨n - 0xE0, 2, if n = 0xE0 then 0xA0 else 0x80,
      if n = 0xED then 0x9F else 0xBF⟩ := by
  unfold begin
  rw [if_neg (by omega), if_neg (by omega), if_neg (by omega), if_pos high]

theorem begin_four {n : Nat} (low : 0xF0 ≤ n) (high : n < 0xF5) :
    begin n = .longer ⟨n - 0xF0, 3, if n = 0xF0 then 0x90 else 0x80,
      if n = 0xF4 then 0x8F else 0xBF⟩ := by
  unfold begin
  rw [if_neg (by omega), if_neg (by omega), if_neg (by omega), if_neg (by omega), if_pos high]

/-- The bytes of a character are read as that character. -/
theorem decodeFrom_char (c : Char) (rest : Bytes) :
    decodeFrom none (String.utf8EncodeChar c ++ rest) = some c :: decodeFrom none rest := by
  have valid : c.val.toNat < 0xD800 ∨ (0xDFFF < c.val.toNat ∧ c.val.toNat < 0x110000) := c.valid
  have self : Char.ofNat c.val.toNat = c := Char.ofNat_toNat c
  unfold String.utf8EncodeChar
  generalize c.val.toNat = v at valid self
  have small {n : Nat} (h : n < 256) : (UInt8.ofNat n).toNat = n := by
    simp [Nat.mod_eq_of_lt h]
  dsimp only
  split
  · have first := small (show v < 256 by omega)
    rw [List.singleton_append, decodeFrom_single (by omega), first, self]
  · split
    · have first := small (show v / 64 % 32 + 192 < 256 by omega)
      have last := small (show v % 64 + 128 < 256 by omega)
      rw [List.cons_append, List.singleton_append,
        decodeFrom_first (begin_two (by omega) (by omega)),
        decodeFrom_last (by simp) (by simp; omega) (by simp; omega), first, last]
      dsimp only
      rw [show (v / 64 % 32 + 192 - 192) * 64 + (v % 64 + 128 - 128) = v by omega, self]
    · split
      · have first := small (show v / 4096 % 16 + 224 < 256 by omega)
        have second := small (show v / 64 % 64 + 128 < 256 by omega)
        have last := small (show v % 64 + 128 < 256 by omega)
        rw [List.cons_append, List.cons_append, List.singleton_append,
          decodeFrom_first (begin_three (by omega) (by omega)),
          decodeFrom_middle (by simp) (by dsimp only; split <;> omega)
            (by dsimp only; split <;> omega),
          decodeFrom_last (by simp) (by simp; omega) (by simp; omega), first, second, last]
        dsimp only
        rw [show ((v / 4096 % 16 + 224 - 224) * 64 + (v / 64 % 64 + 128 - 128)) * 64 +
          (v % 64 + 128 - 128) = v by omega, self]
      · have first := small (show v / 262144 % 8 + 240 < 256 by omega)
        have second := small (show v / 4096 % 64 + 128 < 256 by omega)
        have third := small (show v / 64 % 64 + 128 < 256 by omega)
        have last := small (show v % 64 + 128 < 256 by omega)
        rw [List.cons_append, List.cons_append, List.cons_append, List.singleton_append,
          decodeFrom_first (begin_four (by omega) (by omega)),
          decodeFrom_middle (by simp) (by dsimp only; split <;> omega)
            (by dsimp only; split <;> omega),
          decodeFrom_middle (by simp) (by simp; omega) (by simp; omega),
          decodeFrom_last (by simp) (by simp; omega) (by simp; omega), first, second, third, last]
        dsimp only
        rw [show (((v / 262144 % 8 + 240 - 240) * 64 + (v / 4096 % 64 + 128 - 128)) * 64 +
          (v / 64 % 64 + 128 - 128)) * 64 + (v % 64 + 128 - 128) = v by omega, self]

theorem decodeFrom_bytes (text : List Char) :
    decodeFrom none (bytes text) = text.map some := by
  induction text with
  | nil => rfl
  | cons c r ih =>
    have h : bytes (c :: r) = String.utf8EncodeChar c ++ bytes r := rfl
    rw [h, decodeFrom_char, ih, List.map_cons]

theorem decode?_encode (s : String) : decode? (encode s) = some s := by
  have h (l : List Char) : (l.map some).mapM id = some l := by
    induction l with
    | nil => rfl
    | cons c r ih => simp [ih]
  simp [decode?, encode, decodeFrom_bytes, h]

theorem decodeLossy_encode (s : String) : decodeLossy (encode s) = s := by
  simp [decodeLossy, encode, decodeFrom_bytes, Function.comp_def]

end Text
end Stencil
