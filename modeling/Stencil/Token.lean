import Stencil.Text

/-! Tokens of a tag's body.
Reading takes the longest token at each place; what begins no token is one erroneous lexeme. The
main statements say that a lexeme is never empty and that the lexemes of a text give it back. -/
namespace Stencil

inductive Token
  | blank
  | assign
  | operator (text : String)
  | slash
  | word (text : String)
  /-- A quoted text, without its quotes. -/
  | quoted (text : String)
  deriving DecidableEq, Repr

namespace Token

def isBlank (c : Char) : Bool :=
  c == ' ' || c == '\t' || c == '\r' || c == '\n' || c == '\x0c'

def isOperator (c : Char) : Bool := c == '!' || c == '<' || c == '>' || c == '='

def isWord (c : Char) : Bool := c.isAlphanum || c == '_' || c == '.' || c == '-'

def isQuote (c : Char) : Bool := c == '"' || c == '\''

def describe : Token → String
  | blank => "whitespace"
  | assign => "'='"
  | operator text => s!"operator '{text}'"
  | slash => "'/'"
  | word text => s!"'{text}'"
  | quoted text => s!"string \"{text}\""

/-- A lone equals sign assigns; every other run of operator characters is an operator. -/
def ofOperators (run : List Char) : Token :=
  if run = ['='] then .assign else .operator (String.ofList run)

end Token

/-- A piece of a tag's body: the characters it covers, and its token unless none begins here. -/
structure Lexeme where
  token : Option Token
  text : List Char
  deriving DecidableEq, Repr

namespace Lexeme

/-- Splits a text at the first character that fails `keep` or at which `halt` holds of what is
left. -/
def spanUntil (keep : Char → Bool) (halt : List Char → Bool) : List Char → List Char × List Char
  | [] => ([], [])
  | c :: r =>
    if keep c && !halt (c :: r) then
      let p := spanUntil keep halt r
      (c :: p.1, p.2)
    else ([], c :: r)

theorem spanUntil_append (keep : Char → Bool) (halt : List Char → Bool) (text : List Char) :
    (spanUntil keep halt text).1 ++ (spanUntil keep halt text).2 = text := by
  induction text with
  | nil => rfl
  | cons c r ih =>
    simp only [spanUntil]
    split
    · simp [ih]
    · rfl

def spanOf (keep : Char → Bool) (text : List Char) : List Char × List Char :=
  spanUntil keep (fun _ => false) text

theorem spanOf_append (keep : Char → Bool) (text : List Char) :
    (spanOf keep text).1 ++ (spanOf keep text).2 = text := spanUntil_append _ _ _

/-- The lexeme that a quote opens: the text up to the next such quote of its line, or an error up
to the end of the line. -/
def readQuoted (quote : Char) (text : List Char) : Lexeme × List Char :=
  let p := spanOf (fun c => c != quote && c != '\n') text
  match p.2 with
  | c :: rest =>
    if c = quote then
      (⟨some (.quoted (String.ofList p.1)), quote :: p.1 ++ [quote]⟩, rest)
    else (⟨none, quote :: p.1⟩, c :: rest)
  | [] => (⟨none, quote :: p.1⟩, [])

/-- The lexeme at the beginning of a text and what follows it. A word also ends where `halt` holds
of what is left. -/
def read? (halt : List Char → Bool) : List Char → Option (Lexeme × List Char)
  | [] => none
  | c :: text =>
    some <|
      if Token.isBlank c then
        let p := spanOf Token.isBlank text
        (⟨some .blank, c :: p.1⟩, p.2)
      else if Token.isOperator c then
        let p := spanOf Token.isOperator text
        (⟨some (.ofOperators (c :: p.1)), c :: p.1⟩, p.2)
      else if c = '/' then (⟨some .slash, [c]⟩, text)
      else if Token.isWord c then
        let p := spanUntil Token.isWord halt text
        (⟨some (.word (String.ofList (c :: p.1))), c :: p.1⟩, p.2)
      else if Token.isQuote c then readQuoted c text
      else (⟨none, [c]⟩, text)

theorem readQuoted_append (quote : Char) (text : List Char) :
    (readQuoted quote text).1.text ++ (readQuoted quote text).2 = quote :: text := by
  have h := spanOf_append (fun c => c != quote && c != '\n') text
  unfold readQuoted
  dsimp only
  split
  · rename_i c rest hc
    rw [hc] at h
    split
    · rename_i he
      subst he
      simpa using h
    · simpa using h
  · rename_i hc
    rw [hc] at h
    simpa using h

theorem readQuoted_text_ne_nil (quote : Char) (text : List Char) :
    (readQuoted quote text).1.text ≠ [] := by
  unfold readQuoted
  dsimp only
  split
  · split <;> simp
  · simp

/-- Reading loses nothing: the lexeme's characters come before the rest. -/
theorem append_of_read? {halt : List Char → Bool} {text rest : List Char} {l : Lexeme}
    (h : read? halt text = some (l, rest)) : l.text ++ rest = text := by
  cases text with
  | nil => simp [read?] at h
  | cons c text =>
    simp only [read?, Option.some.injEq] at h
    split at h
    · cases h
      simp [spanOf_append]
    · split at h
      · cases h
        simp [spanOf_append]
      · split at h
        · cases h
          rfl
        · split at h
          · cases h
            simp [spanUntil_append]
          · split at h
            · have := readQuoted_append c text
              rw [h] at this
              exact this
            · cases h
              rfl

theorem text_ne_nil_of_read? {halt : List Char → Bool} {text rest : List Char} {l : Lexeme}
    (h : read? halt text = some (l, rest)) : l.text ≠ [] := by
  cases text with
  | nil => simp [read?] at h
  | cons c text =>
    simp only [read?, Option.some.injEq] at h
    split at h
    · cases h
      simp
    · split at h
      · cases h
        simp
      · split at h
        · cases h
          simp
        · split at h
          · cases h
            simp
          · split at h
            · have := readQuoted_text_ne_nil c text
              rw [h] at this
              exact this
            · cases h
              simp

theorem length_lt_of_read? {halt : List Char → Bool} {text rest : List Char} {l : Lexeme}
    (h : read? halt text = some (l, rest)) : rest.length < text.length := by
  rw [← append_of_read? h, List.length_append]
  have := List.length_pos_iff.mpr (text_ne_nil_of_read? h)
  omega

def all (text : List Char) : List Lexeme :=
  match h : read? (fun _ => false) text with
  | none => []
  | some (l, rest) =>
    have : rest.length < text.length := length_lt_of_read? h
    l :: all rest
termination_by text.length

theorem flatten_all (text : List Char) : ((all text).map Lexeme.text).flatten = text := by
  fun_induction all text with
  | case1 text h =>
    cases text with
    | nil => rfl
    | cons c text => simp [read?] at h
  | case2 text l rest h _ ih =>
    rw [List.map_cons, List.flatten_cons, ih, append_of_read? h]

end Lexeme
end Stencil
