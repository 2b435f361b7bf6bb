import Stencil.Proofs.Sink.Pour
import Stencil.Proofs.Text.Utf8

/-! Escapes that can be undone.
What is written for a byte or a character is told from what follows it by how it begins, so that an
escaped text is read back from left to right. The main statements say that this recovers a text from
its entities and the bytes of a text from its percent signs, and what escaped texts are made of. -/
namespace Stencil

namespace Emission

def content (e : Emission) : Bytes := e.pieces.flatten

/-- Whether the emission writes the bytes, whatever pieces they come in: a sink takes them as it
takes one piece, and nothing but the lack of room is an error. -/
structure Writes (e : Emission) (b : Bytes) : Prop where
  contents (s : Sink) : (e.writeTo s).1.contents = s.contents ++ s.taken b
  ok {s : Sink} (h : s.Fits b) : (e.writeTo s).2 = .ok ()
  full {s : Sink} (h : ¬ s.Fits b) : (e.writeTo s).2 = .error .full

theorem writes_content {e : Emission} (h : e.failure = none) : e.Writes e.content := by
  have hwrite (s : Sink) : e.writeTo s =
      ((s.writeAll e.pieces).1, if (s.writeAll e.pieces).2 then .ok () else .error .full) := by
    unfold writeTo
    rw [h]
    cases s.writeAll e.pieces with
    | mk s' taken => cases taken <;> rfl
  refine ⟨fun s => ?_, fun {s} hfits => ?_, fun {s} hfits => ?_⟩
  · rw [hwrite, Sink.contents_writeAll_fst, content]
  · rw [hwrite, if_pos (Sink.writeAll_iff_fits.mpr hfits)]
  · rw [hwrite, if_neg (mt Sink.writeAll_iff_fits.mp hfits)]

end Emission

namespace Escape

variable {escape : UInt8 → Option Bytes}

theorem flatten_runs_append (s t : String) :
    (runs escape [] (Text.encode (s ++ t))).flatten =
      (runs escape [] (Text.encode s)).flatten ++ (runs escape [] (Text.encode t)).flatten := by
  simp only [flatten_runs, List.reverse_nil, List.nil_append]
  rw [← each_append, Text.encode, String.toList_append, Text.bytes_append]
  rfl

end Escape

/-! ### Entities -/

namespace Entity

open Text

def table : List (Char × List Char) :=
  [('&', "&amp;".toList), ('<', "&lt;".toList), ('>', "&gt;".toList), ('"', "&quot;".toList),
    ('\'', "&#39;".toList), ('\n', "&#10;".toList), ('\r', "&#13;".toList)]

/-- What a character is replaced by: its entity, if it has one. -/
def escaped (c : Char) : List Char := (table.lookup c).getD [c]

def encoded (text : List Char) : List Char := text.flatMap escaped

/-- The character whose entity the text begins with, and what follows the entity. -/
def first? (text : List Char) : Option (Char × List Char) :=
  table.findSome? fun e => (after? e.2 text).map fun rest => (e.1, rest)

theorem exists_of_first? {text rest : List Char} {c : Char} (h : first? text = some (c, rest)) :
    ∃ e ∈ table, e.1 = c ∧ text = e.2 ++ rest := by
  obtain ⟨e, he, hsome⟩ := List.exists_of_findSome?_eq_some h
  obtain ⟨left, hafter, heq⟩ := Option.map_eq_some_iff.mp hsome
  cases heq
  exact ⟨e, he, rfl, after?_eq_some_iff.mp hafter⟩

theorem length_of_first? {text rest : List Char} {c : Char} (h : first? text = some (c, rest)) :
    rest.length < text.length := by
  obtain ⟨e, he, -, rfl⟩ := exists_of_first? h
  have hpos : ∀ e ∈ table, 0 < e.2.length := by decide
  have := hpos e he
  rw [List.length_append]
  omega

/-- Replaces the entities back, from left to right. -/
def restore : List Char → List Char
  | [] => []
  | c :: text =>
    match h : first? (c :: text) with
    | some (d, rest) =>
      have : rest.length < (c :: text).length := length_of_first? h
      d :: restore rest
    | none => c :: restore text
termination_by text => text.length
decreasing_by
  · assumption
  · exact Nat.lt_succ_self _

theorem escaped_cases (c : Char) :
    (∃ e ∈ table, e.1 = c ∧ escaped c = e.2) ∨ (∀ e ∈ table, e.1 ≠ c) ∧ escaped c = [c] := by
  cases h : table.lookup c with
  | some entity =>
    obtain ⟨before, after, htable, -⟩ := List.lookup_eq_some_iff.mp h
    exact .inl ⟨(c, entity), by simp [htable], rfl, by rw [escaped, h]; rfl⟩
  | none =>
    refine .inr ⟨fun e he hc => ?_, by rw [escaped, h]; rfl⟩
    have hne := List.lookup_eq_none_iff.mp h e he
    simp [hc] at hne

theorem head_of_mem_table : ∀ e ∈ table, e.2.head? = some '&' := by decide

theorem first?_eq_none {c : Char} (hc : c ≠ '&') (text : List Char) :
    first? (c :: text) = none := by
  cases h : first? (c :: text) with
  | none => rfl
  | some p =>
    obtain ⟨d, rest⟩ := p
    obtain ⟨e, he, -, htext⟩ := exists_of_first? h
    have hhead := head_of_mem_table e he
    obtain ⟨left, hleft⟩ := List.head?_eq_some_iff.mp hhead
    rw [hleft] at htext
    exact absurd (List.cons.inj htext).1 hc

theorem first?_append {e : Char × List Char} (he : e ∈ table) (text : List Char) :
    first? (e.2 ++ text) = some (e.1, text) := by
  simp only [table, List.mem_cons, List.not_mem_nil, or_false] at he
  rcases he with rfl | rfl | rfl | rfl | rfl | rfl | rfl <;> rfl

theorem restore_append {e : Char × List Char} (he : e ∈ table) (text : List Char) :
    restore (e.2 ++ text) = e.1 :: restore text := by
  have hfirst := first?_append he text
  obtain ⟨left, hleft⟩ := List.head?_eq_some_iff.mp (head_of_mem_table e he)
  rw [hleft, List.cons_append] at hfirst ⊢
  rw [restore]
  split
  · rename_i h
    cases hfirst.symm.trans h
    rfl
  · rename_i h
    cases hfirst.symm.trans h

theorem restore_cons {c : Char} (hc : c ≠ '&') (text : List Char) :
    restore (c :: text) = c :: restore text := by
  have hfirst := first?_eq_none hc text
  rw [restore]
  split
  · rename_i h
    cases hfirst.symm.trans h
  · rfl

theorem restore_escaped (c : Char) (text : List Char) :
    restore (escaped c ++ text) = c :: restore text := by
  rcases escaped_cases c with ⟨e, he, rfl, hescaped⟩ | ⟨hne, hescaped⟩
  · rw [hescaped, restore_append he]
  · rw [hescaped]
    exact restore_cons (Ne.symm (hne ('&', "&amp;".toList) (by decide))) text

theorem restore_encoded (text : List Char) : restore (encoded text) = text := by
  induction text with
  | nil => rw [encoded, List.flatMap_nil, restore]
  | cons c text ih =>
    rw [encoded, List.flatMap_cons, restore_escaped]
    exact congrArg (c :: ·) ih

theorem not_mem_encoded {c : Char} (hc : c ∈ ['<', '>', '"', '\'', '\r', '\n']) (text : List Char) :
    c ∉ encoded text := by
  intro hm
  obtain ⟨d, -, hd⟩ := List.mem_flatMap.mp hm
  rcases escaped_cases d with ⟨e, he, -, hescaped⟩ | ⟨hne, hescaped⟩
  · have hnone : ∀ e ∈ table, e.2.all (· ∉ ['<', '>', '"', '\'', '\r', '\n']) = true := by decide
    have hout := List.all_eq_true.mp (hnone e he) c (hescaped ▸ hd)
    exact of_decide_eq_true hout hc
  · have hkey : ['<', '>', '"', '\'', '\r', '\n'] ⊆ table.map (·.1) := by decide
    obtain ⟨e, he, rfl⟩ := List.mem_map.mp (hkey hc)
    rw [hescaped] at hd
    exact hne e he (List.mem_singleton.mp hd)

theorem exists_prefix_of_encoded {text before after : List Char}
    (h : encoded text = before ++ '&' :: after) : ∃ e ∈ table, e.2 <+: '&' :: after := by
  induction text generalizing before with
  | nil => cases before <;> cases h
  | cons c text ih =>
    rw [encoded, List.flatMap_cons] at h
    rcases List.append_eq_append_iff.mp h with ⟨more, -, hrest⟩ | ⟨inner, hinner, hrest⟩
    · exact ih hrest
    · cases inner with
      | nil =>
        have htext : encoded text = [] ++ '&' :: after := hrest.symm
        exact ih htext
      | cons d inner =>
        obtain ⟨rfl, rfl⟩ := List.cons.inj hrest
        rcases escaped_cases c with ⟨e, he, -, hescaped⟩ | ⟨hne, hescaped⟩
        · -- an entity has no ampersand but its first character
          have htail : ∀ e ∈ table, '&' ∉ e.2.tail := by decide
          rw [hescaped] at hinner
          cases before with
          | nil => exact ⟨e, he, text.flatMap escaped, by rw [hinner]; rfl⟩
          | cons x before =>
            refine absurd ?_ (htail e he)
            rw [hinner]
            simp
        · rw [hescaped] at hinner
          refine absurd ?_ (hne ('&', "&amp;".toList) (by decide))
          have hmem : '&' ∈ [c] := by simp [hinner]
          exact List.mem_singleton.mp hmem

theorem each_bytes (text : List Char) :
    Escape.each Escape.entity? (bytes text) = bytes (encoded text) := by
  induction text with
  | nil => rfl
  | cons c text ih =>
    have hchar : Escape.each Escape.entity? (String.utf8EncodeChar c) = bytes (escaped c) := by
      rcases utf8EncodeChar_cases c with ⟨hc, hone⟩ | ⟨hle, hall⟩
      · have hascii : ∀ n < 0x80, (Escape.entity? (UInt8.ofNat n)).getD [UInt8.ofNat n] =
            bytes (escaped (Char.ofNat n)) := by decide +kernel
        rw [hone, Escape.each_cons, hascii _ hc, Char.ofNat_toNat]
        exact List.append_nil _
      · rw [Escape.each_eq_self fun b hb => Escape.entity?_eq_none (hall b hb)]
        rcases escaped_cases c with ⟨e, he, rfl, -⟩ | ⟨-, hescaped⟩
        · have hlt : ∀ e ∈ table, e.1.toNat < 0x80 := by decide
          have := hlt e he
          omega
        · rw [hescaped, bytes_cons]
          exact (List.append_nil _).symm
    rw [bytes_cons, Escape.each_append, hchar, ih, encoded, encoded, List.flatMap_cons,
      bytes_append]

end Entity

namespace Emission

theorem content_entity (value : String) :
    (entity value).content = Text.bytes (Entity.encoded value.toList) := by
  rw [content, entity, Escape.flatten_runs]
  exact Entity.each_bytes value.toList

end Emission

/-- Entities can be undone. What is written of a text is the text with each character that has an
entity replaced by it; replacing the entities back from left to right gives the text again; no other
character that has an entity is left, and no ampersand but those that begin one; and a concatenation
is written as what is written of its parts. -/
theorem entities_are_undone (s : String) :
    (Emission.entity s).Writes (Text.bytes (Entity.encoded s.toList)) ∧
    Entity.restore (Entity.encoded s.toList) = s.toList ∧
    (∀ c ∈ ['<', '>', '"', '\'', '\r', '\n'], c ∉ Entity.encoded s.toList) ∧
    (∀ before after, Entity.encoded s.toList = before ++ '&' :: after →
      ∃ e ∈ Entity.table, e.2 <+: '&' :: after) ∧
    ∀ t : String, (Emission.entity (s ++ t)).content =
      (Emission.entity s).content ++ (Emission.entity t).content := by
  refine ⟨?_, Entity.restore_encoded _, fun c hc => Entity.not_mem_encoded hc _,
    fun _ _ => Entity.exists_prefix_of_encoded, fun t => Escape.flatten_runs_append s t⟩
  rw [← Emission.content_entity]
  exact Emission.writes_content rfl

example : (Emission.entity "<&lt;").content = Text.encode "&lt;&amp;lt;" := by decide

/-! ### Percent signs -/

namespace Percent

open Escape

def isPlain (c : Char) : Bool := c.isAlphanum || c == '.' || c == '-' || c == '_' || c == '+'

def isHex (c : Char) : Bool := c.isDigit || ('A' ≤ c && c ≤ 'F')

/-- Whether a text is made of plain characters, and of percent signs with two hexadecimal digits. -/
inductive Query : List Char → Prop
  | nil : Query []
  | plain {c : Char} {text : List Char} : isPlain c = true → Query text → Query (c :: text)
  | escape {high low : Char} {text : List Char} : isHex high = true → isHex low = true →
    Query text → Query ('%' :: high :: low :: text)

def hexValue? (b : UInt8) : Option UInt8 :=
  if 0x30 ≤ b ∧ b ≤ 0x39 then some (b - 0x30)
  else if 0x41 ≤ b ∧ b ≤ 0x46 then some (b - 0x37)
  else if 0x61 ≤ b ∧ b ≤ 0x66 then some (b - 0x57)
  else none

/-- Reads a plus sign as a space, and a percent sign with two digits as the byte that they say. -/
def decode : Bytes → Option Bytes
  | [] => some []
  | 0x25 :: high :: low :: r =>
    (hexValue? high).bind fun h => (hexValue? low).bind fun l =>
      (decode r).map ((16 * h + l) :: ·)
  | 0x25 :: _ => none
  | b :: r => (decode r).map ((if b = 0x2B then 0x20 else b) :: ·)

def escaped (b : UInt8) : Bytes := (percent? b).getD [b]

theorem escaped_cases (b : UInt8) :
    isUnreserved b = true ∧ escaped b = [b] ∨ b = 0x20 ∧ escaped b = [0x2B] ∨
      escaped b = [0x25, hexDigit (b / 16), hexDigit (b % 16)] := by
  unfold escaped percent?
  split
  · rename_i h
    exact .inl ⟨h, rfl⟩
  · split
    · rename_i h
      exact .inr (.inl ⟨h, rfl⟩)
    · exact .inr (.inr rfl)

theorem decode_cons {b : UInt8} (hb : b ≠ 0x25) (r : Bytes) :
    decode (b :: r) = (decode r).map ((if b = 0x2B then 0x20 else b) :: ·) := by
  rw [decode] <;> simp [hb]

theorem decode_escaped (b : UInt8) (r : Bytes) :
    decode (escaped b ++ r) = (decode r).map (b :: ·) := by
  rcases escaped_cases b with ⟨hb, h⟩ | ⟨rfl, h⟩ | h
  · have hne : b ≠ 0x25 ∧ b ≠ 0x2B := by
      constructor <;> rintro rfl <;> exact absurd hb (by decide)
    rw [h, List.singleton_append, decode_cons hne.1, if_neg hne.2]
  · rw [h]
    rfl
  · have hdigits : ∀ b : UInt8, hexValue? (hexDigit (b / 16)) = some (b / 16) ∧
        hexValue? (hexDigit (b % 16)) = some (b % 16) ∧ 16 * (b / 16) + b % 16 = b :=
      forall_byte (by decide +kernel)
    obtain ⟨hhigh, hlow, hsum⟩ := hdigits b
    rw [h, List.cons_append, List.cons_append, List.singleton_append, decode, hhigh, hlow,
      Option.bind_some, Option.bind_some, hsum]

theorem decode_each (b : Bytes) : decode (each percent? b) = some b := by
  induction b with
  | nil => rfl
  | cons x r ih =>
    rw [each_cons]
    exact (decode_escaped x _).trans (by rw [ih]; rfl)

theorem query_chars_escaped (b : UInt8) {text : List Char} (h : Query text) :
    Query (Text.chars (escaped b) ++ text) := by
  rcases escaped_cases b with ⟨hb, he⟩ | ⟨rfl, he⟩ | he
  · have hplain : ∀ b : UInt8, isUnreserved b = true → isPlain (Char.ofNat b.toNat) = true :=
      forall_byte (by decide +kernel)
    rw [he]
    exact .plain (hplain b hb) h
  · rw [he]
    exact .plain rfl h
  · have hhex : ∀ b : UInt8, isHex (Char.ofNat (hexDigit (b / 16)).toNat) = true ∧
        isHex (Char.ofNat (hexDigit (b % 16)).toNat) = true := forall_byte (by decide +kernel)
    rw [he]
    exact .escape (hhex b).1 (hhex b).2 h

theorem query_chars_each (b : Bytes) : Query (Text.chars (each percent? b)) := by
  induction b with
  | nil => exact .nil
  | cons x r ih =>
    have happend : Text.chars (each percent? (x :: r)) =
        Text.chars (escaped x) ++ Text.chars (each percent? r) := List.map_append
    rw [happend]
    exact query_chars_escaped x ih

end Percent

namespace Emission

theorem content_url (value : String) :
    (url value).content = Escape.each Escape.percent? (Text.encode value) :=
  Escape.flatten_runs ..

end Emission

/-- Percent signs can be undone. What is written of a text is made of plain characters and of
percent signs with two digits; reading plus signs and percent signs back gives the bytes of the
text; and a concatenation is written as what is written of its parts. -/
theorem queries_are_undone (s : String) :
    (∃ text, Percent.Query text ∧ (Emission.url s).Writes (Text.bytes text) ∧
      Percent.decode (Text.bytes text) = some (Text.encode s)) ∧
    ∀ t : String, (Emission.url (s ++ t)).content =
      (Emission.url s).content ++ (Emission.url t).content := by
  refine ⟨⟨_, Percent.query_chars_each (Text.encode s), ?_⟩,
    fun t => Escape.flatten_runs_append s t⟩
  have hascii : ∀ x ∈ Escape.each Escape.percent? (Text.encode s), x.toNat < 0x80 := by
    intro x hx
    obtain ⟨b, -, hb⟩ := List.mem_flatMap.mp hx
    exact Escape.lt_of_mem_percent b x hb
  rw [Text.bytes_chars hascii]
  refine ⟨?_, Percent.decode_each _⟩
  rw [← Emission.content_url]
  exact Emission.writes_content rfl

example : (Emission.url "\u00e9 +%").content = Text.encode "%C3%A9+%2B%25" := by decide

end Stencil
