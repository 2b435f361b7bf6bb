import Stencil.Proofs.Tag.Closing

/-! Lexemes as longest matches.
The table of tokens says which texts are tokens. The main statement says that the lexemes of a text
cover it without gaps, that each of them is the longest beginning of what is left that the table
has, and what this means for runs of characters and for quotes. -/
namespace Stencil

namespace Token

/-- The table of tokens: a token and the texts that it is read from. -/
inductive Matches : Token → List Char → Prop
  | blank {run : List Char} : run ≠ [] → (∀ c ∈ run, isBlank c = true) → Matches .blank run
  | assign : Matches .assign ['=']
  | operator {run : List Char} : run ≠ [] → run ≠ ['='] → (∀ c ∈ run, isOperator c = true) →
    Matches (.operator (String.ofList run)) run
  | slash : Matches .slash ['/']
  | word {run : List Char} : run ≠ [] → (∀ c ∈ run, isWord c = true) →
    Matches (.word (String.ofList run)) run
  | quoted {quote : Char} {value : List Char} : isQuote quote = true → quote ∉ value →
    '\n' ∉ value → Matches (.quoted (String.ofList value)) (quote :: value ++ [quote])

theorem matches_ofOperators {run : List Char} (hne : run ≠ [])
    (h : ∀ c ∈ run, isOperator c = true) : (ofOperators run).Matches run := by
  unfold ofOperators
  split
  · rename_i hrun
    subst hrun
    exact .assign
  · rename_i hrun
    exact .operator hne hrun h

theorem isBlank_of_isOperator {c : Char} (h : isOperator c = true) : isBlank c = false := by
  simp only [isOperator, Bool.or_eq_true, beq_iff_eq] at h
  rcases h with ((rfl | rfl) | rfl) | rfl <;> rfl

end Token

namespace Lexeme

open Token (Matches)

structure IsRun (keep : Char → Bool) (run rest : List Char) : Prop where
  ne_nil : run ≠ []
  wanted : ∀ c ∈ run, keep c = true
  ends : ∀ c ∈ rest.head?, keep c = false

abbrev first? (text : List Char) : Option (Lexeme × List Char) := read? (fun _ => false) text

section Runs

variable {keep : Char → Bool} {run rest : List Char}

theorem exists_isRun (hne : run ≠ []) (hw : ∀ c ∈ run, keep c = true) (text : List Char) :
    ∃ more left, text = more ++ left ∧ IsRun keep (run ++ more) left := by
  refine ⟨(spanOf keep text).1, (spanOf keep text).2, (spanOf_append keep text).symm,
    by simp [hne], fun c hc => ?_, fun c hc => ?_⟩
  · rcases List.mem_append.mp hc with hc | hc
    · exact hw c hc
    · obtain ⟨before, left, hs⟩ := List.append_of_mem hc
      exact (of_mem_spanUntil hs).1
  · obtain ⟨left, hl⟩ := List.head?_eq_some_iff.mp hc
    exact (of_spanUntil_eq_cons hl).resolve_right Bool.false_ne_true

theorem IsRun.exists_cons (h : IsRun keep run rest) :
    ∃ c more, run = c :: more ∧ keep c = true ∧ spanOf keep (more ++ rest) = (more, rest) := by
  obtain ⟨c, more, rfl⟩ := List.exists_cons_of_ne_nil h.ne_nil
  exact ⟨c, more, rfl, h.wanted c List.mem_cons_self,
    spanUntil_append_of_all (fun d hd => h.wanted d (List.mem_cons_of_mem _ hd)) (by simp) h.ends⟩

theorem first?_blank (h : IsRun Token.isBlank run rest) :
    first? (run ++ rest) = some (⟨some .blank, run⟩, rest) := by
  obtain ⟨c, more, rfl, hc, hspan⟩ := h.exists_cons
  simp [read?, hc, hspan]

theorem first?_operator (h : IsRun Token.isOperator run rest) :
    first? (run ++ rest) = some (⟨some (.ofOperators run), run⟩, rest) := by
  obtain ⟨c, more, rfl, hc, hspan⟩ := h.exists_cons
  simp [read?, hc, Token.isBlank_of_isOperator hc, hspan]

theorem first?_word (h : IsRun Token.isWord run rest) :
    first? (run ++ rest) = some (⟨some (.word (String.ofList run)), run⟩, rest) :=
  read?_word _ _ h.ne_nil h.wanted (fun _ _ _ => rfl) h.ends

theorem first?_unclosed {quote : Char} {line : List Char} (hq : Token.isQuote quote = true)
    (hl : quote ∉ line) (hn : '\n' ∉ line) (hr : ∀ c ∈ rest.head?, c = '\n') :
    first? (quote :: line ++ rest) = some (⟨none, quote :: line⟩, rest) := by
  have hfeed : quote ≠ '\n' := by rcases Token.eq_of_isQuote hq with rfl | rfl <;> decide
  have hspan : spanOf (fun c => c != quote && c != '\n') (line ++ rest) = (line, rest) := by
    refine spanUntil_append_of_all (fun c hc => ?_) (by simp) fun c hc => ?_
    · have hquote : c ≠ quote := fun he => hl (he ▸ hc)
      have hline : c ≠ '\n' := fun he => hn (he ▸ hc)
      simp [hquote, hline]
    · simp [hr c hc]
  have hread : readQuoted quote (line ++ rest) = (⟨none, quote :: line⟩, rest) := by
    unfold readQuoted
    rw [hspan]
    cases rest with
    | nil => rfl
    | cons c rest =>
      obtain rfl : c = '\n' := hr c rfl
      exact if_neg hfeed.symm
  rcases Token.eq_of_isQuote hq with rfl | rfl
  · exact congrArg some hread
  · exact congrArg some hread

end Runs

section Longest

variable {text rest : List Char} {l : Lexeme}

theorem matches_of_first? {token : Token} {covered : List Char}
    (h : first? text = some (⟨some token, covered⟩, rest)) : token.Matches covered := by
  have hrun {keep : Char → Bool} {c : Char} (hc : keep c = true) (text : List Char) :
      ∀ d ∈ c :: (spanOf keep text).1, keep d = true := by
    intro d hd
    rcases List.mem_cons.mp hd with rfl | hd
    · exact hc
    · obtain ⟨before, left, hs⟩ := List.append_of_mem hd
      exact (of_mem_spanUntil hs).1
  cases text with
  | nil => cases h
  | cons c text =>
    simp only [read?, Option.some.injEq] at h
    split at h
    · rename_i hc
      cases h
      exact .blank (List.cons_ne_nil _ _) (hrun hc text)
    · split at h
      · rename_i hc
        cases h
        exact Token.matches_ofOperators (List.cons_ne_nil _ _) (hrun hc text)
      · split at h
        · rename_i hc
          subst hc
          cases h
          exact .slash
        · split at h
          · rename_i hc
            cases h
            exact .word (List.cons_ne_nil _ _) (hrun hc text)
          · split at h
            · rename_i hc
              obtain ⟨value, rfl, rfl, hv, hn⟩ := eq_of_readQuoted h
              have hm := Matches.quoted hc hv hn
              rwa [String.ofList_toList] at hm
            · cases h

theorem exists_of_matches {token : Token} {run : List Char} (h : token.Matches run)
    (text : List Char) :
    ∃ found covered left, first? (run ++ text) = some (⟨some found, covered⟩, left) ∧
      run.length ≤ covered.length := by
  have hlonger (keep : Char → Bool) (found : List Char → Token)
      (hfound : ∀ run rest, IsRun keep run rest →
        first? (run ++ rest) = some (⟨some (found run), run⟩, rest))
      {run : List Char} (hne : run ≠ []) (hw : ∀ c ∈ run, keep c = true) :
      ∃ found covered left, first? (run ++ text) = some (⟨some found, covered⟩, left) ∧
        run.length ≤ covered.length := by
    obtain ⟨more, left, rfl, hrun⟩ := exists_isRun hne hw text
    have hread := hfound _ _ hrun
    rw [List.append_assoc] at hread
    exact ⟨_, _, _, hread, by simp⟩
  cases h with
  | blank hne hw => exact hlonger _ (fun _ => .blank) (fun _ _ => first?_blank) hne hw
  | assign =>
    exact hlonger Token.isOperator _ (fun _ _ => first?_operator) (List.cons_ne_nil _ _)
      (List.forall_mem_singleton.mpr rfl)
  | operator hne _ hw => exact hlonger _ _ (fun _ _ => first?_operator) hne hw
  | slash => exact ⟨_, _, _, rfl, Nat.le_refl _⟩
  | word hne hw => exact hlonger _ _ (fun _ _ => first?_word) hne hw
  | @quoted quote value hq hv hn =>
    have happend : quote :: value ++ [quote] ++ text = quote :: value ++ quote :: text := by simp
    rw [happend]
    exact ⟨_, _, _, read?_quoted _ text hq hv hn, Nat.le_refl _⟩

end Longest

section All

variable {text : List Char} {before after : List Lexeme} {l : Lexeme}

theorem chars_all (text : List Char) : chars (all text) = text := flatten_all text

theorem chars_append (a b : List Lexeme) : chars (a ++ b) = chars a ++ chars b := by
  simp [chars]

theorem head?_all (text : List Char) : (all text).head? = (first? text).map (·.1) := by
  cases h : first? text with
  | none =>
    cases text with
    | nil => rw [all_nil]; rfl
    | cons c text => cases h
  | some p =>
    obtain ⟨l, rest⟩ := p
    rw [all_append h]
    rfl

theorem exists_of_all_eq_cons (h : all text = l :: after) :
    ∃ rest, first? text = some (l, rest) ∧ all rest = after := by
  cases hr : first? text with
  | none =>
    have hhead := head?_all text
    rw [h, hr] at hhead
    cases hhead
  | some p =>
    obtain ⟨first, rest⟩ := p
    rw [all_append hr] at h
    obtain ⟨rfl, rfl⟩ := List.cons.inj h
    exact ⟨rest, rfl, rfl⟩

theorem all_chars_of_append (h : all text = before ++ after) : all (chars after) = after := by
  induction before generalizing text with
  | nil =>
    rw [List.nil_append] at h
    rw [← h, chars_all]
  | cons l before ih =>
    obtain ⟨rest, -, hrest⟩ := exists_of_all_eq_cons h
    exact ih hrest

theorem head?_of_append (h : all text = before ++ after) :
    after.head? = (first? (chars after)).map (·.1) := by
  rw [← head?_all, all_chars_of_append h]

theorem head?_of_first? (h : all text = before ++ after) {left rest : List Char}
    (hleft : chars after = left) (hr : first? left = some (l, rest)) : after.head? = some l := by
  rw [head?_of_append h, hleft, hr]
  rfl

end All

end Lexeme

open Lexeme in
/-- Lexemes are longest matches. The lexemes of a text are not empty, cover it, and each of them
stands at the bytes that follow those of the lexemes before it. Wherever one begins, it is a token
by the table if a beginning of what is left is, and no such beginning is longer; a run of blanks, of
word characters or of operator characters is one token there, which assigns only if it is a single
equals sign; and a quote begins a token that ends at the next such quote of its line, with the text
between them as its value, or else an error that ends with the line. -/
theorem lexemes_are_longest (text : List Char) :
    chars (all text) = text ∧ (∀ l ∈ all text, l.text ≠ []) ∧
    ∀ before after, all text = before ++ after →
      (∀ l ∈ after.head?,
        Text.slice? text ⟨Text.size (chars before), Text.size (chars before) + Text.size l.text⟩ =
          some l.text ∧
        (∀ token, l.token = some token → token.Matches l.text) ∧
        ∀ (token : Token) (run : List Char), token.Matches run → run <+: chars after →
          l.token ≠ none ∧ run.length ≤ l.text.length) ∧
      (∀ run rest, chars after = run ++ rest →
        (IsRun Token.isBlank run rest → after.head? = some ⟨some .blank, run⟩) ∧
        (IsRun Token.isWord run rest →
          after.head? = some ⟨some (.word (String.ofList run)), run⟩) ∧
        (IsRun Token.isOperator run rest → after.head? =
          some ⟨some (if run = ['='] then .assign else .operator (String.ofList run)), run⟩)) ∧
      ∀ quote, Token.isQuote quote = true →
        (∀ value rest, chars after = quote :: value ++ quote :: rest →
          quote ∉ value → '\n' ∉ value →
          after.head? =
            some ⟨some (.quoted (String.ofList value)), quote :: value ++ [quote]⟩) ∧
        ∀ line rest, chars after = quote :: line ++ rest →
          quote ∉ line → '\n' ∉ line → (∀ c ∈ rest.head?, c = '\n') →
          after.head? = some ⟨none, quote :: line⟩ := by
  refine ⟨chars_all text, fun l hl => ?_, fun before after h => ⟨fun l hl => ?_, ?_, ?_⟩⟩
  · obtain ⟨before, after, h⟩ := List.append_of_mem hl
    obtain ⟨rest, hr, -⟩ := exists_of_all_eq_cons (all_chars_of_append h)
    exact text_ne_nil_of_read? hr
  · obtain ⟨more, rfl⟩ := List.head?_eq_some_iff.mp hl
    obtain ⟨rest, hr, -⟩ := exists_of_all_eq_cons (all_chars_of_append h)
    refine ⟨?_, fun token ht => ?_, ?_⟩
    · have hslice := Text.slice?_append (chars before) l.text (chars more)
      rwa [List.append_assoc, ← chars_cons, ← chars_append, ← h, chars_all, Text.size_append]
        at hslice
    · obtain ⟨_, covered⟩ := l
      cases ht
      exact matches_of_first? hr
    · rintro token run hm ⟨left, hrun⟩
      obtain ⟨found, covered, _, hfound, hle⟩ := exists_of_matches hm left
      rw [hrun, hr] at hfound
      cases hfound
      exact ⟨Option.some_ne_none _, hle⟩
  · exact fun run rest hleft => ⟨fun hrun => head?_of_first? h hleft (first?_blank hrun),
      fun hrun => head?_of_first? h hleft (first?_word hrun),
      fun hrun => head?_of_first? h hleft (first?_operator hrun)⟩
  · exact fun quote hq =>
      ⟨fun value rest hleft hv hn => head?_of_first? h hleft (read?_quoted _ rest hq hv hn),
        fun line rest hleft hl hn hr => head?_of_first? h hleft (first?_unclosed hq hl hn hr)⟩

example : (Lexeme.all "a>=\"b c\" 'd".toList).map (·.token) =
    [some (.word "a"), some (.operator ">="), some (.quoted "b c"), some .blank, none] := by cbv

end Stencil
