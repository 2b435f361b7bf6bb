import Stencil.Text.Decode
import Stencil.Text.Continuation
import Stencil.Format.Escape
import Stencil.Proofs.Item.Order

/-! Texts as bytes.
What works byte by byte never cuts a character: a byte below 128 is a character of its own, and a
longer character has no such byte. The main statements say that lines are joined in the bytes of a
text as in the text, that a span of a source cuts out the bytes of the text that stands there, and
that both escapes of a text are the bytes of a text again. -/
namespace Stencil
namespace Text

/-- Whether the bytes are those of some text. -/
def IsUtf8 (b : Bytes) : Prop := ∃ text, b = bytes text

theorem isUtf8_nil : IsUtf8 [] := ⟨[], rfl⟩

theorem isUtf8_bytes (text : List Char) : IsUtf8 (bytes text) := ⟨text, rfl⟩

theorem IsUtf8.append {a b : Bytes} (ha : IsUtf8 a) (hb : IsUtf8 b) : IsUtf8 (a ++ b) := by
  obtain ⟨text, rfl⟩ := ha
  obtain ⟨more, rfl⟩ := hb
  exact ⟨text ++ more, (bytes_append ..).symm⟩

theorem isUtf8_flatten_map (texts : List (List Char)) : IsUtf8 (texts.map bytes).flatten := by
  induction texts with
  | nil => exact isUtf8_nil
  | cons text r ih => exact (isUtf8_bytes text).append ih

theorem IsUtf8.exists_of_mem {b : Bytes} (h : IsUtf8 b) : ∀ c ∈ decodeFrom none b, c.isSome := by
  obtain ⟨text, rfl⟩ := h
  rw [decodeFrom_bytes]
  intro c hc
  obtain ⟨d, -, rfl⟩ := List.mem_map.mp hc
  rfl

theorem IsUtf8.encode_decodeLossy {b : Bytes} (h : IsUtf8 b) : encode (decodeLossy b) = b := by
  obtain ⟨text, rfl⟩ := h
  simp [decodeLossy, encode, decodeFrom_bytes, Function.comp_def]

theorem toNat_ofNat_of_lt : ∀ n < 0x80, (Char.ofNat n).toNat = n := by decide

def chars (b : Bytes) : List Char := b.map fun x => Char.ofNat x.toNat

theorem bytes_chars {b : Bytes} (h : ∀ x ∈ b, x.toNat < 0x80) : bytes (chars b) = b := by
  induction b with
  | nil => rfl
  | cons x r ih =>
    obtain ⟨hx, hr⟩ := List.forall_mem_cons.mp h
    have hval := toNat_ofNat_of_lt _ hx
    have hchar : String.utf8EncodeChar (Char.ofNat x.toNat) = [x] := by
      rcases utf8EncodeChar_cases (Char.ofNat x.toNat) with ⟨-, he⟩ | ⟨hle, -⟩
      · rw [he, hval, UInt8.ofNat_toNat]
      · omega
    rw [chars, List.map_cons, bytes_cons, hchar, ← chars, ih hr]
    rfl

theorem isUtf8_of_ascii {b : Bytes} (h : ∀ x ∈ b, x.toNat < 0x80) : IsUtf8 b :=
  ⟨chars b, (bytes_chars h).symm⟩

theorem exists_of_bytes_eq_cons {text : List Char} {b : UInt8} {r : Bytes} (hb : b.toNat < 0x80)
    (h : bytes text = b :: r) : ∃ more, text = Char.ofNat b.toNat :: more ∧ bytes more = r := by
  cases text with
  | nil => cases h
  | cons c more =>
    rw [bytes_cons] at h
    rcases utf8EncodeChar_cases c with ⟨hc, he⟩ | ⟨-, hall⟩
    · rw [he] at h
      injection h with hbyte hmore
      have hnat : b.toNat = c.toNat := by
        rw [← hbyte, UInt8.toNat_ofNat', Nat.mod_eq_of_lt (by omega)]
      exact ⟨more, by rw [hnat, Char.ofNat_toNat], hmore⟩
    · cases he : String.utf8EncodeChar c with
      | nil =>
        have := c.utf8Size_pos
        rw [← String.length_utf8EncodeChar, he] at this
        cases this
      | cons x left =>
        rw [he] at h
        injection h with hbyte _
        have := hall x (by simp [he])
        rw [hbyte] at this
        omega

/-! ### Lines that go on, byte by byte -/

/-- The pieces in which bytes are written, after a piece in reverse that is still open: a backslash
(92) before a line feed (10), with or without a carriage return (13) between them, is left out with
the line end, and of two backslashes there one is. -/
def joinedBytesFrom : Bytes → Bytes → List Bytes
  | run, [] => [run.reverse]
  | run, 92 :: 92 :: 10 :: r => run.reverse :: joinedBytesFrom [10, 92] r
  | run, 92 :: 92 :: 13 :: 10 :: r => run.reverse :: joinedBytesFrom [10, 13, 92] r
  | run, 92 :: 10 :: r => run.reverse :: joinedBytesFrom [] r
  | run, 92 :: 13 :: 10 :: r => run.reverse :: joinedBytesFrom [] r
  | run, b :: r => joinedBytesFrom (b :: run) r

theorem joinedBytesFrom_of_ne {run r : Bytes} {b : UInt8} (h : b ≠ 92) :
    joinedBytesFrom run (b :: r) = joinedBytesFrom (b :: run) r := by
  rw [joinedBytesFrom] <;> simp [h]

theorem joinedBytesFrom_append {a : Bytes} (h : ∀ b ∈ a, b ≠ 92) (run r : Bytes) :
    joinedBytesFrom run (a ++ r) = joinedBytesFrom (a.reverse ++ run) r := by
  induction a generalizing run with
  | nil => rfl
  | cons b a ih =>
    obtain ⟨hb, ha⟩ := List.forall_mem_cons.mp h
    rw [List.cons_append, joinedBytesFrom_of_ne hb, ih ha]
    simp

theorem joinedBytesFrom_slash {text : List Char} (hdouble : ∀ left, text ≠ '\\' :: '\n' :: left)
    (hdoubled : ∀ left, text ≠ '\\' :: '\r' :: '\n' :: left) (hfeed : ∀ left, text ≠ '\n' :: left)
    (hreturn : ∀ left, text ≠ '\r' :: '\n' :: left) (run : Bytes) :
    joinedBytesFrom run (92 :: bytes text) = joinedBytesFrom (92 :: run) (bytes text) := by
  have hnl {text : List Char} {more : Bytes} (h : bytes text = 10 :: more) :
      ∃ left, text = '\n' :: left := by
    obtain ⟨left, rfl, -⟩ := exists_of_bytes_eq_cons (by decide) h
    exact ⟨left, rfl⟩
  have hcr {text : List Char} {more : Bytes} (h : bytes text = 13 :: 10 :: more) :
      ∃ left, text = '\r' :: '\n' :: left := by
    obtain ⟨left, rfl, hleft⟩ := exists_of_bytes_eq_cons (by decide) h
    obtain ⟨left, rfl⟩ := hnl hleft
    exact ⟨left, rfl⟩
  rw [joinedBytesFrom]
  · rintro more - hmore
    obtain ⟨left, rfl, hleft⟩ := exists_of_bytes_eq_cons (by decide) hmore
    obtain ⟨left, rfl⟩ := hnl hleft
    exact hdouble _ rfl
  · rintro more - hmore
    obtain ⟨left, rfl, hleft⟩ := exists_of_bytes_eq_cons (by decide) hmore
    obtain ⟨left, rfl⟩ := hcr hleft
    exact hdoubled _ rfl
  · rintro more - hmore
    obtain ⟨left, rfl⟩ := hnl hmore
    exact hfeed _ rfl
  · rintro more - hmore
    obtain ⟨left, rfl⟩ := hcr hmore
    exact hreturn _ rfl

theorem ne_of_mem_utf8EncodeChar {c : Char} (hc : c ≠ '\\') :
    ∀ b ∈ String.utf8EncodeChar c, b ≠ 92 := by
  rintro b hb rfl
  rcases utf8EncodeChar_cases c with ⟨hlt, hone⟩ | ⟨-, hall⟩
  · rw [hone] at hb
    have hcode := congrArg UInt8.toNat (List.mem_singleton.mp hb)
    rw [UInt8.toNat_ofNat', Nat.mod_eq_of_lt (by omega)] at hcode
    exact hc (Char.toNat_inj.mp hcode.symm)
  · exact absurd (hall _ hb) (by decide)

theorem map_joinedFrom (run text : List Char) :
    (joinedFrom run text).map bytes =
      joinedBytesFrom (bytes run.reverse).reverse (bytes text) := by
  have hslash : String.utf8EncodeChar '\\' = [92] := by decide
  fun_induction joinedFrom run text with
  | case1 run =>
    simp [joinedBytesFrom, bytes]
  | case2 run r ih =>
    have hbytes : bytes ('\\' :: '\\' :: '\n' :: r) = 92 :: 92 :: 10 :: bytes r := rfl
    rw [List.map_cons, ih, hbytes, joinedBytesFrom, List.reverse_reverse]
    rfl
  | case3 run r ih =>
    have hbytes : bytes ('\\' :: '\\' :: '\r' :: '\n' :: r) = 92 :: 92 :: 13 :: 10 :: bytes r := rfl
    rw [List.map_cons, ih, hbytes, joinedBytesFrom, List.reverse_reverse]
    rfl
  | case4 run r ih =>
    have hbytes : bytes ('\\' :: '\n' :: r) = 92 :: 10 :: bytes r := rfl
    rw [List.map_cons, ih, hbytes, joinedBytesFrom, List.reverse_reverse]
    rfl
  | case5 run r ih =>
    have hbytes : bytes ('\\' :: '\r' :: '\n' :: r) = 92 :: 13 :: 10 :: bytes r := rfl
    rw [List.map_cons, ih, hbytes, joinedBytesFrom, List.reverse_reverse]
    rfl
  | case6 run c r hdouble hdoubled hfeed hreturn ih =>
    rw [ih, List.reverse_cons, bytes_append, List.reverse_append, bytes_cons c r]
    have hopen : bytes [c] = String.utf8EncodeChar c := by rw [bytes_cons, bytes]; simp
    rw [hopen]
    by_cases hc : c = '\\'
    · subst hc
      rw [hslash, List.singleton_append, joinedBytesFrom_slash
        (fun left h => hdouble left rfl h) (fun left h => hdoubled left rfl h)
        (fun left h => hfeed left rfl h) fun left h => hreturn left rfl h]
      rfl
    · rw [joinedBytesFrom_append (ne_of_mem_utf8EncodeChar hc)]

def joinedBytes (b : Bytes) : List Bytes := joinedBytesFrom [] b

theorem map_joined (text : List Char) : (joined text).map bytes = joinedBytes (bytes text) :=
  map_joinedFrom [] text

/-! ### Spans, byte by byte -/

/-- The bytes of a span, whatever characters they cut. -/
def sliceBytes (b : Bytes) (span : Span) : Bytes := (b.drop span.start).take (span.stop - span.start)

theorem sliceBytes_of_isPart {source : List Char} {span : Span} (h : span.IsPart source) :
    sliceBytes (bytes source) span = bytes ((slice? source span).getD []) := by
  obtain ⟨before, covered, after, rfl, -, rfl⟩ := h
  rw [slice?_append, sliceBytes, List.append_assoc, bytes_append, bytes_append]
  have hstart : size before = (bytes before).length := (length_bytes before).symm
  have hlen : size (before ++ covered) - size before = (bytes covered).length := by
    rw [size_append, length_bytes]
    omega
  dsimp only
  rw [hlen, hstart, List.drop_left, List.take_left]
  rfl

end Text

namespace Escape

open Text

variable {escape : UInt8 → Option Bytes}

theorem each_cons (b : UInt8) (r : Bytes) :
    each escape (b :: r) = (escape b).getD [b] ++ each escape r := rfl

theorem each_append (a b : Bytes) : each escape (a ++ b) = each escape a ++ each escape b :=
  List.flatMap_append

theorem each_eq_self {b : Bytes} (h : ∀ x ∈ b, escape x = none) : each escape b = b := by
  induction b with
  | nil => rfl
  | cons x r ih =>
    obtain ⟨hx, hr⟩ := List.forall_mem_cons.mp h
    rw [each_cons, hx, ih hr]
    rfl

theorem forall_byte {P : UInt8 → Prop} (h : ∀ n < 256, P (UInt8.ofNat n)) (b : UInt8) : P b := by
  have hb := h b.toNat b.toNat_lt
  rwa [UInt8.ofNat_toNat] at hb

/-- A text is escaped to the bytes of a text, if escapes are, and longer characters are left. -/
theorem isUtf8_each (he : ∀ b e, escape b = some e → IsUtf8 e)
    (hn : ∀ b : UInt8, 0x80 ≤ b.toNat → escape b = none) (text : List Char) :
    IsUtf8 (each escape (bytes text)) := by
  induction text with
  | nil => exact isUtf8_nil
  | cons c r ih =>
    rw [bytes_cons, each_append]
    refine IsUtf8.append ?_ ih
    rcases utf8EncodeChar_cases c with ⟨hc, hone⟩ | ⟨-, hall⟩
    · rw [hone, each, List.flatMap_singleton]
      cases hb : escape (UInt8.ofNat c.toNat) with
      | some e => exact he _ _ hb
      | none => exact ⟨[c], by rw [bytes_cons, hone]; rfl⟩
    · rw [each_eq_self fun x hx => hn x (hall x hx)]
      exact ⟨[c], by rw [bytes_cons, bytes]; simp⟩

theorem isUtf8_entity? (b : UInt8) (e : Bytes) (h : entity? b = some e) : IsUtf8 e := by
  unfold entity? at h
  repeat' split at h
  all_goals
    first
    | exact Option.some.inj h ▸ isUtf8_bytes _
    | cases h

theorem entity?_eq_none {b : UInt8} (h : 0x80 ≤ b.toNat) : entity? b = none := by
  have hne {n : UInt8} (hn : n.toNat < 0x80) : b ≠ n := by
    rintro rfl
    omega
  rw [entity?, if_neg (hne (by decide)), if_neg (hne (by decide)), if_neg (hne (by decide)),
    if_neg (hne (by decide)), if_neg (hne (by decide)), if_neg (hne (by decide)),
    if_neg (hne (by decide))]

theorem lt_of_mem_percent : ∀ b : UInt8, ∀ x ∈ (percent? b).getD [b], x.toNat < 0x80 :=
  forall_byte (by decide +kernel)

end Escape

/-- Whether the formatter writes texts, as far as it does not fail. -/
def Formatter.WritesUtf8 (f : Formatter) : Prop :=
  ∀ value, (f.format value).failure = none → Text.IsUtf8 (f.format value).pieces.flatten

namespace Emission

theorem isUtf8_entity (value : String) : Text.IsUtf8 (entity value).pieces.flatten := by
  have h : (entity value).pieces.flatten = Escape.each Escape.entity? (Text.encode value) :=
    Escape.flatten_runs ..
  rw [h]
  exact Escape.isUtf8_each Escape.isUtf8_entity? (fun _ => Escape.entity?_eq_none) _

theorem isUtf8_url (value : String) : Text.IsUtf8 (url value).pieces.flatten := by
  have h : (url value).pieces.flatten = Escape.each Escape.percent? (Text.encode value) :=
    Escape.flatten_runs ..
  rw [h]
  refine Text.isUtf8_of_ascii fun x hx => ?_
  obtain ⟨b, -, hx⟩ := List.mem_flatMap.mp hx
  exact Escape.lt_of_mem_percent b x hx

end Emission

theorem FormatRegistry.writesUtf8_standard : ∀ f ∈ standard.formatters, f.WritesUtf8 := by
  intro f hf
  rcases List.mem_cons.mp hf with rfl | hf
  · exact fun value _ => Emission.isUtf8_url value
  · cases List.mem_singleton.mp hf
    exact fun value _ => Emission.isUtf8_entity value

end Stencil
