import Mathlib.Data.List.Forall2
import Stencil.Attribute

/-! The grammar of attributes.
A tree of the grammar is a list of phrases, and it derives the tokens of its phrases one after the
other. The main statement says that reading accepts exactly the lists that have a tree, that no list
has two, and that a list without one is refused at the first token that no accepted list goes on
with, or at its end if some accepted list goes on from there. -/
namespace Stencil
namespace Attribute

inductive Value
  | word (text : String)
  | quoted (text : String)
  deriving DecidableEq, Repr

namespace Value

def token : Value → Token
  | word text => .word text
  | quoted text => .quoted text

def text : Value → String
  | word text => text
  | quoted text => text

@[simp] theorem value?_token (v : Value) : value? v.token = some v.text := by cases v <;> rfl

theorem exists_of_value? {t : Token} {text : String} (h : value? t = some text) :
    ∃ v : Value, t = v.token ∧ text = v.text := by
  cases t with
  | word s =>
    cases h
    exact ⟨.word text, rfl, rfl⟩
  | quoted s =>
    cases h
    exact ⟨.quoted text, rfl, rfl⟩
  | blank | assign | operator | slash => cases h

end Value

inductive Phrase
  /-- `WORD '=' value` -/
  | named (key : String) (value : Value)
  /-- `OPERATOR value` -/
  | compare (operator : String) (value : Value)
  /-- `value` -/
  | bare (value : Value)
  deriving DecidableEq, Repr

namespace Phrase

def tokens : Phrase → List Token
  | named key value => [.word key, .assign, value.token]
  | compare operator value => [.operator operator, value.token]
  | bare value => [value.token]

def meaning : Phrase → Attribute
  | named key value => .named (lower key) value.text
  | compare operator value => .compare operator value.text
  | bare value => .bare value.text

/-- The tokens that a tree derives. -/
def derived (tree : List Phrase) : List Token := tree.flatMap tokens

@[simp] theorem derived_nil : derived [] = [] := rfl

@[simp] theorem derived_cons (p : Phrase) (tree : List Phrase) :
    derived (p :: tree) = p.tokens ++ derived tree := rfl

theorem head?_derived_ne (tree : List Phrase) : (derived tree).head? ≠ some .assign := by
  cases tree with
  | nil => simp
  | cons p tree =>
    cases p with
    | named key value => simp [tokens]
    | compare operator value => simp [tokens]
    | bare value => cases value <;> simp [tokens, Value.token]

/-- Whether the phrase ends before these tokens: a word before an equals sign is a key. -/
def Ends (p : Phrase) (rest : List Token) : Prop :=
  ∀ word, p = .bare (.word word) → rest.head? ≠ some .assign

theorem ends_derived (p : Phrase) (tree : List Phrase) : p.Ends (derived tree) :=
  fun _ _ => head?_derived_ne tree

theorem eq_of_tokens_append {p q : Phrase} {rest more : List Token} (hp : p.Ends rest)
    (hq : q.Ends more) (h : p.tokens ++ rest = q.tokens ++ more) : p = q ∧ rest = more := by
  cases p with
  | named key value =>
    cases q with
    | named key' value' => cases value <;> cases value' <;> simp_all [tokens, Value.token]
    | compare operator value' => cases h
    | bare value' =>
      cases value' with
      | word word =>
        cases h
        exact absurd rfl (hq _ rfl)
      | quoted text => cases h
  | compare operator value =>
    cases q with
    | compare operator' value' => cases value <;> cases value' <;> simp_all [tokens, Value.token]
    | named key value' => cases h
    | bare value' => cases value' <;> cases h
  | bare value =>
    cases q with
    | bare value' => cases value <;> cases value' <;> simp_all [tokens, Value.token]
    | compare operator value' => cases value <;> cases h
    | named key value' =>
      cases value with
      | word word =>
        cases h
        exact absurd rfl (hp _ rfl)
      | quoted text => cases h

theorem derived_injective {tree other : List Phrase} (h : derived tree = derived other) :
    tree = other := by
  induction tree generalizing other with
  | nil =>
    cases other with
    | nil => rfl
    | cons q other => cases q <;> cases h
  | cons p tree ih =>
    cases other with
    | nil => cases p <;> cases h
    | cons q other =>
      obtain ⟨rfl, hrest⟩ := eq_of_tokens_append (ends_derived p tree) (ends_derived q other) h
      rw [ih hrest]

end Phrase

/-- Whether the grammar has the list. -/
def Accepted (tokens : List Token) : Prop := ∃ tree, Phrase.derived tree = tokens

/-- Whether some list of the grammar begins with these tokens. -/
def Viable (tokens : List Token) : Prop := ∃ more, Accepted (tokens ++ more)

def tokens : Attribute → List Token
  | named key value => [.word key, .assign, .quoted value]
  | compare operator value => [.operator operator, .quoted value]
  | bare value => [.quoted value]

/-- How a token that is written back may differ from the one that was read: a key in the case of
its letters, and a value in being quoted. -/
inductive Restores : Token → Token → Prop
  | same (t : Token) : Restores t t
  | key (word : String) : Restores (.word (lower word)) (.word word)
  | value (text : String) : Restores (.quoted text) (.word text)

theorem Restores.of_value (v : Value) : Restores (.quoted v.text) v.token := by
  cases v with
  | word text => exact .value text
  | quoted text => exact .same _

theorem Phrase.restores (p : Phrase) :
    List.Forall₂ Restores p.meaning.tokens p.tokens := by
  cases p with
  | named key value => exact .cons (.key key) (.cons (.same _) (.cons (.of_value value) .nil))
  | compare operator value => exact .cons (.same _) (.cons (.of_value value) .nil)
  | bare value => exact .cons (.of_value value) .nil

theorem Phrase.restores_derived (tree : List Phrase) :
    List.Forall₂ Restores ((tree.map Phrase.meaning).flatMap Attribute.tokens) (derived tree) := by
  induction tree with
  | nil => exact .nil
  | cons p tree ih =>
    rw [List.map_cons, List.flatMap_cons, derived_cons]
    exact List.rel_append p.restores ih

namespace Accepted

variable {rest : List Token}

theorem append_iff {p : Phrase} (h : p.Ends rest) :
    Accepted (p.tokens ++ rest) ↔ Accepted rest := by
  constructor
  · rintro ⟨tree, ht⟩
    cases tree with
    | nil => cases p <;> cases ht
    | cons q tree =>
      obtain ⟨rfl, hrest⟩ := Phrase.eq_of_tokens_append (Phrase.ends_derived q tree) h ht
      exact ⟨tree, hrest⟩
  · rintro ⟨tree, rfl⟩
    exact ⟨p :: tree, rfl⟩

theorem viable (h : Accepted rest) : Viable rest := ⟨[], by rwa [List.append_nil]⟩

end Accepted

namespace Viable

variable {a b rest : List Token}

theorem of_prefix (h : Viable b) (hp : a <+: b) : Viable a := by
  obtain ⟨more, hm⟩ := h
  obtain ⟨between, rfl⟩ := hp
  exact ⟨between ++ more, by rwa [← List.append_assoc]⟩

theorem append_iff {p : Phrase} (hne : rest ≠ []) (h : p.Ends rest) :
    Viable (p.tokens ++ rest) ↔ Viable rest := by
  refine exists_congr fun more => ?_
  have hends : p.Ends (rest ++ more) := fun word hp => by
    rw [List.head?_append_of_ne_nil _ hne]
    exact h word hp
  rw [List.append_assoc, Accepted.append_iff hends]

end Viable

/-- What a phrase begins with that wants a value. -/
inductive Opening : List Token → Prop
  | key (word : String) : Opening [.word word, .assign]
  | operator (text : String) : Opening [.operator text]

namespace Opening

variable {opening more : List Token}

theorem exists_phrase (h : Opening opening) (v : Value) :
    ∃ p : Phrase, p.tokens = opening ++ [v.token] := by
  cases h with
  | key word => exact ⟨.named word v, rfl⟩
  | operator text => exact ⟨.compare text v, rfl⟩

theorem accepted (h : Opening opening) (v : Value) : Accepted (opening ++ [v.token]) := by
  obtain ⟨p, hp⟩ := h.exists_phrase v
  exact ⟨[p], by rw [Phrase.derived_cons, hp, Phrase.derived_nil, List.append_nil]⟩

theorem exists_value (h : Opening opening) (ha : Accepted (opening ++ more)) :
    ∃ (v : Value) (rest : List Token), more = v.token :: rest := by
  obtain ⟨tree, ht⟩ := ha
  cases h with
  | key word =>
    match tree, ht with
    | .named _ v :: tree, ht =>
      cases ht
      exact ⟨v, _, rfl⟩
    | .bare (.word text) :: tree, ht =>
      obtain ⟨-, ht⟩ := List.cons.inj ht
      exact absurd (congrArg List.head? ht) (Phrase.head?_derived_ne tree)
  | operator text =>
    match tree, ht with
    | .compare _ v :: tree, ht =>
      cases ht
      exact ⟨v, _, rfl⟩
    | .bare (.word text) :: tree, ht => cases ht
    | .bare (.quoted text) :: tree, ht => cases ht

end Opening

/-- How a list is read: phrase by phrase, up to its end, to a token that no phrase begins with, or
to where a phrase lacks its value. -/
inductive Reads : List Token → Except GrammarError (List Attribute) → Prop
  | done : Reads [] (.ok [])
  | phrase {p : Phrase} {rest : List Token} {r : Except GrammarError (List Attribute)} :
    p.Ends rest → Reads rest r → Reads (p.tokens ++ rest) (r.map (p.meaning :: ·))
  | stray {t : Token} {rest : List Token} :
    (∀ p more, Phrase.tokens p ≠ t :: more) → Reads (t :: rest) (.error (.unexpected t))
  | noValue {opening : List Token} {t : Token} {rest : List Token} :
    Opening opening → value? t = none → Reads (opening ++ t :: rest) (.error (.unexpected t))
  | ended {opening : List Token} : Opening opening → Reads opening (.error .valueMissing)

theorem reads_parse (ts : List Token) : Reads ts (parse ts) := by
  fun_induction parse ts with
  | case1 => exact .done
  | case2 key => exact .ended (.key key)
  | case3 key t rest value hv ih =>
    obtain ⟨v, rfl, rfl⟩ := Value.exists_of_value? hv
    exact .phrase (p := .named key v) nofun ih
  | case4 key t rest hv => exact .noValue (.key key) hv
  | case5 op => exact .ended (.operator op)
  | case6 op t rest value hv ih =>
    obtain ⟨v, rfl, rfl⟩ := Value.exists_of_value? hv
    exact .phrase (p := .compare op v) nofun ih
  | case7 op t rest hv => exact .noValue (.operator op) hv
  | case8 t rest hcut hnamed _ _ value hv ih =>
    obtain ⟨v, rfl, rfl⟩ := Value.exists_of_value? hv
    refine .phrase (p := .bare v) ?_ ih
    rintro word ⟨⟩ hassign
    -- the reader would have taken the word for a key
    match rest, hassign with
    | [_], rfl => exact hcut word rfl rfl
    | _ :: t :: more, rfl => exact hnamed word t more rfl rfl
  | case9 t rest hcut hnamed hend hoperator hv =>
    refine .stray fun p more hp => ?_
    cases p with
    | named key v =>
      cases hp
      cases hv
    | compare op v =>
      cases hp
      cases rest with
      | nil => exact hend op rfl rfl
      | cons u left => exact hoperator op u left rfl rfl
    | bare v =>
      cases hp
      simp at hv

namespace Reads

variable {ts : List Token} {t : Token} {attributes : List Attribute}
  {r : Except GrammarError (List Attribute)}

/-- What is read to its end has a tree, whose attributes these are. -/
theorem exists_tree (h : Reads ts r) (hr : r = .ok attributes) :
    ∃ tree, Phrase.derived tree = ts ∧ tree.map Phrase.meaning = attributes := by
  induction h generalizing attributes with
  | done =>
    cases hr
    exact ⟨[], rfl, rfl⟩
  | @phrase p rest r _ _ ih =>
    cases r with
    | error e => cases hr
    | ok more =>
      cases hr
      obtain ⟨tree, rfl, rfl⟩ := ih rfl
      exact ⟨p :: tree, rfl, rfl⟩
  | stray | noValue | ended => cases hr

/-- A token is refused behind what some accepted list begins with, and none goes on with it. -/
theorem exists_unexpected (h : Reads ts r) (hr : r = .error (.unexpected t)) :
    ∃ before after, ts = before ++ t :: after ∧ Viable before ∧ ¬ Viable (before ++ [t]) := by
  induction h with
  | done | ended => cases hr
  | @phrase p rest r hends _ ih =>
    cases r with
    | ok more => cases hr
    | error e =>
      cases hr
      obtain ⟨before, after, rfl, hv, hn⟩ := ih rfl
      refine ⟨p.tokens ++ before, after, by rw [List.append_assoc], ?_, ?_⟩
      · obtain ⟨more, tree, ht⟩ := hv
        exact ⟨more, p :: tree, by rw [Phrase.derived_cons, ht, List.append_assoc]⟩
      · have hends' : p.Ends (before ++ [t]) := fun word hp => by
          have := hends word hp
          cases before <;> simpa using this
        rw [List.append_assoc, Viable.append_iff (by simp) hends']
        exact hn
  | @stray u rest hstray =>
    cases hr
    refine ⟨[], rest, rfl, Accepted.viable ⟨[], rfl⟩, ?_⟩
    rintro ⟨more, tree, ht⟩
    cases tree with
    | nil => cases ht
    | cons p tree =>
      cases hp : p.tokens with
      | nil => cases p <;> cases hp
      | cons u left =>
        rw [Phrase.derived_cons, hp] at ht
        cases ht
        exact hstray p left hp
  | @noValue opening u rest ho hu =>
    cases hr
    refine ⟨opening, rest, rfl, ⟨_, ho.accepted (.quoted "")⟩, ?_⟩
    rintro ⟨more, ha⟩
    rw [List.append_assoc] at ha
    obtain ⟨v, left, hv⟩ := ho.exists_value ha
    cases hv
    simp at hu

theorem accepted_append (h : Reads ts r) (hr : r = .error .valueMissing) (v : Value) :
    ¬ Accepted ts ∧ Accepted (ts ++ [v.token]) := by
  induction h with
  | done | stray | noValue => cases hr
  | @phrase p rest r hends _ ih =>
    cases r with
    | ok more => cases hr
    | error e =>
      cases hr
      have hends' : p.Ends (rest ++ [v.token]) := fun word hp => by
        have := hends word hp
        cases rest with
        | nil => cases v <;> simp [Value.token]
        | cons t rest => simpa using this
      rw [Accepted.append_iff hends, List.append_assoc, Accepted.append_iff hends']
      exact ih rfl
  | @ended opening ho =>
    refine ⟨fun ha => ?_, ho.accepted v⟩
    rw [← List.append_nil opening] at ha
    obtain ⟨_, _, hv⟩ := ho.exists_value ha
    cases hv

end Reads

section Reading

variable {ts : List Token} {t : Token} {attributes : List Attribute}

theorem exists_of_unexpected (h : parse ts = .error (.unexpected t)) :
    ∃ n, ts[n]? = some t ∧ ∀ k, Viable (ts.take k) ↔ k ≤ n := by
  obtain ⟨before, after, rfl, hv, hn⟩ := (reads_parse ts).exists_unexpected h
  refine ⟨before.length, by simp, fun k => ⟨fun hk => ?_, fun hk => ?_⟩⟩
  · by_contra hlt
    refine hn (hk.of_prefix (List.prefix_take_iff.mpr ⟨⟨after, by simp⟩, ?_⟩))
    rw [List.length_append, List.length_singleton]
    omega
  · rw [List.take_append_of_le_length hk]
    exact hv.of_prefix (List.take_prefix ..)

theorem not_viable {n : Nat} (hn : ts[n]? = some t) (h : ∀ k, Viable (ts.take k) ↔ k ≤ n) :
    ¬ Viable ts := by
  intro hv
  have hlt : n < ts.length := (List.getElem?_eq_some_iff.mp hn).1
  have hle := (h ts.length).mp (by rwa [List.take_length])
  omega

theorem parse_eq_ok_iff :
    parse ts = .ok attributes ↔
      ∃ tree, Phrase.derived tree = ts ∧ tree.map Phrase.meaning = attributes := by
  refine ⟨(reads_parse ts).exists_tree, ?_⟩
  rintro ⟨tree, ht, rfl⟩
  have ha : Accepted ts := ⟨tree, ht⟩
  cases hp : parse ts with
  | ok others =>
    obtain ⟨other, ho, rfl⟩ := (reads_parse ts).exists_tree hp
    rw [Phrase.derived_injective (ht.trans ho.symm)]
  | error e =>
    cases e with
    | unexpected t =>
      obtain ⟨n, hn, hk⟩ := exists_of_unexpected hp
      exact absurd ha.viable (not_viable hn hk)
    | valueMissing => exact absurd ha ((reads_parse ts).accepted_append hp (.quoted "")).1

theorem accepted_iff : Accepted ts ↔ ∃ attributes, parse ts = .ok attributes := by
  simp only [Accepted, parse_eq_ok_iff]
  exact ⟨fun ⟨tree, ht⟩ => ⟨_, tree, ht, rfl⟩, fun ⟨_, tree, ht, _⟩ => ⟨tree, ht⟩⟩

theorem unexpected_iff : parse ts = .error (.unexpected t) ↔
    ∃ n, ts[n]? = some t ∧ ∀ k, Viable (ts.take k) ↔ k ≤ n := by
  refine ⟨exists_of_unexpected, ?_⟩
  rintro ⟨n, hn, hk⟩
  have hv := not_viable hn hk
  cases hp : parse ts with
  | ok attributes => exact absurd (accepted_iff.mpr ⟨_, hp⟩).viable hv
  | error e =>
    cases e with
    | unexpected u =>
      obtain ⟨m, hm, hk'⟩ := exists_of_unexpected hp
      have hle (k : Nat) : k ≤ n ↔ k ≤ m := (hk k).symm.trans (hk' k)
      obtain rfl : n = m :=
        Nat.le_antisymm ((hle n).mp (Nat.le_refl n)) ((hle m).mpr (Nat.le_refl m))
      rw [hn] at hm
      cases hm
      rfl
    | valueMissing =>
      exact absurd ⟨_, ((reads_parse ts).accepted_append hp (.quoted "")).2⟩ hv

theorem valueMissing_iff : parse ts = .error .valueMissing ↔
    ¬ Accepted ts ∧ ∃ more, more ≠ [] ∧ Accepted (ts ++ more) := by
  constructor
  · intro hp
    obtain ⟨hn, ha⟩ := (reads_parse ts).accepted_append hp (.quoted "")
    exact ⟨hn, _, List.cons_ne_nil _ _, ha⟩
  · rintro ⟨hn, more, -, ha⟩
    cases hp : parse ts with
    | ok attributes => exact absurd (accepted_iff.mpr ⟨_, hp⟩) hn
    | error e =>
      cases e with
      | unexpected t =>
        obtain ⟨n, ht, hk⟩ := exists_of_unexpected hp
        exact absurd ⟨more, ha⟩ (not_viable ht hk)
      | valueMissing => rfl

end Reading

/-- Reading follows the grammar `attribute*` with `attribute := WORD '=' value | OPERATOR value |
value`. It succeeds exactly on the lists that the grammar has; each of them has one tree, whose
attributes are read, and they are written back as the list, up to the case of keys and the quotes of
values. A token is refused exactly if it is the first one up to which the list begins no accepted
list, and the end of the list is refused exactly if the list is not accepted and begins one that is.
-/
theorem reading_follows_grammar (ts : List Token) :
    ((∃ attributes, parse ts = .ok attributes) ↔ Accepted ts) ∧
    (Accepted ts ↔ ∃! tree, Phrase.derived tree = ts) ∧
    (∀ attributes, parse ts = .ok attributes ↔
      ∃ tree, Phrase.derived tree = ts ∧ tree.map Phrase.meaning = attributes) ∧
    (∀ attributes, parse ts = .ok attributes →
      List.Forall₂ Restores (attributes.flatMap Attribute.tokens) ts) ∧
    (∀ t, parse ts = .error (.unexpected t) ↔
      ∃ n, ts[n]? = some t ∧ ∀ k, Viable (ts.take k) ↔ k ≤ n) ∧
    (parse ts = .error .valueMissing ↔
      ¬ Accepted ts ∧ ∃ more, more ≠ [] ∧ Accepted (ts ++ more)) := by
  refine ⟨accepted_iff.symm, ⟨?_, ExistsUnique.exists⟩, fun _ => parse_eq_ok_iff, ?_,
    fun _ => unexpected_iff, valueMissing_iff⟩
  · rintro ⟨tree, ht⟩
    exact ⟨tree, ht, fun other ho => Phrase.derived_injective (ho.trans ht.symm)⟩
  · intro attributes h
    obtain ⟨tree, rfl, rfl⟩ := parse_eq_ok_iff.mp h
    exact Phrase.restores_derived tree

/-- A key in capitals and a name with a comparison are read; a slash where a value is wanted is
refused, and so is the end behind an operator. -/
theorem reading_follows_grammar_mixed :
    parse [.word "NAME", .assign, .word "a", .quoted "b", .operator "==", .word "1"] =
        .ok [.named "name" "a", .bare "b", .compare "==" "1"] ∧
      List.Forall₂ Restores
        [.word "name", .assign, .quoted "a", .quoted "b", .operator "==", .quoted "1"]
        [.word "NAME", .assign, .word "a", .quoted "b", .operator "==", .word "1"] ∧
      (∃ n, [Token.word "a", .operator "<", .slash, .word "b"][n]? = some .slash ∧
        ∀ k, Viable ([Token.word "a", .operator "<", .slash, .word "b"].take k) ↔ k ≤ n) ∧
      ∃ more, more ≠ [] ∧ Accepted ([Token.word "a", .operator "<"] ++ more) := by
  have hread : parse [.word "NAME", .assign, .word "a", .quoted "b", .operator "==", .word "1"] =
      .ok [.named "name" "a", .bare "b", .compare "==" "1"] := by decide
  exact ⟨hread, (reading_follows_grammar _).2.2.2.1 _ hread,
    ((reading_follows_grammar _).2.2.2.2.1 .slash).mp (by decide),
    ((reading_follows_grammar _).2.2.2.2.2.mp (by decide)).2⟩

end Attribute
end Stencil
