import Stencil.Proofs.Written.Scanning

/-! What the marks of drafts mean.
The marks of well-formed drafts can be scanned again, and a tag with the attributes of a draft is
read as the node of that draft. In particular the numeral of a level is read as the level. -/
namespace Stencil

namespace Text

theorem toList_numeral (n : Nat) : (numeral n).toList = Nat.toDigits 10 n := by
  rw [numeral, String.toList_ofList]

theorem isDigit_of_mem_numeral {n : Nat} {c : Char} (h : c ∈ (numeral n).toList) :
    c.isDigit = true := by
  rw [toList_numeral] at h
  exact Nat.isDigit_of_mem_toDigits (by decide) (by decide) h

theorem foldl_digits {digits : List Char} (h : ∀ c ∈ digits, c.isDigit = true) (acc : Nat) :
    digits.foldl (fun acc c => acc.bind fun n =>
      if c.isDigit then some (10 * n + (c.toNat - '0'.toNat)) else none) (some acc) =
      some (Nat.ofDigitChars 10 digits acc) := by
  induction digits generalizing acc with
  | nil => rfl
  | cons c digits ih =>
    rw [List.foldl_cons, Option.bind_some, if_pos (h c List.mem_cons_self),
      ih (fun d hd => h d (List.mem_cons_of_mem _ hd)), Nat.ofDigitChars_cons]

theorem natOfDigits?_numeral (n : Nat) : natOfDigits? (numeral n).toList = some n := by
  have hdigits := foldl_digits (fun c hc => isDigit_of_mem_numeral (n := n) hc) 0
  have hne : (numeral n).toList ≠ [] := by
    rw [toList_numeral]
    exact Nat.toDigits_ne_nil
  cases hn : (numeral n).toList with
  | nil => exact absurd hn hne
  | cons c digits =>
    rw [hn] at hdigits
    rw [natOfDigits?, hdigits, ← hn, toList_numeral, Nat.ofDigitChars_ten_toDigits]
    exact List.cons_ne_nil _ _

theorem count?_numeral {n : Nat} (h : n < countLimit) : count? (numeral n) = some n := by
  have hplus : ∀ r, (numeral n).toList ≠ '+' :: r := by
    intro r hr
    have := isDigit_of_mem_numeral (n := n) (c := '+') (by rw [hr]; exact List.mem_cons_self)
    exact absurd this (by decide)
  unfold count?
  split
  · rename_i r hr
    exact absurd hr (hplus r)
  · simp [natOfDigits?_numeral, Option.filter, h]

theorem quotable_numeral (n : Nat) : Quotable (numeral n) := by
  have hn : ∀ c, c.isDigit = false → c ∉ (numeral n).toList := by
    intro c hc hm
    rw [isDigit_of_mem_numeral hm] at hc
    cases hc
  exact ⟨hn _ (by decide), '"', rfl, hn _ (by decide)⟩

end Text

namespace Tag

variable {settings : Settings} {tag : Tag}

theorem name_eq {name : String} {rest : List Attribute} {tags : TagSet}
    (h : tag.attributes = .named "name" name :: rest) : tag.name tags = .ok name := by
  simp [Tag.name, h, Attribute.named?]

theorem test_eq {test : Test} {tags : TagSet} (h : tag.attributes = test.attributes) :
    tag.test tags = .ok test := by
  obtain ⟨name, comparison⟩ := test
  have hname : tag.name tags = .ok name := name_eq h
  have hcomparison : tag.comparison tags = .ok comparison := by
    cases comparison with
    | none => simp [Tag.comparison, h, Test.attributes, Attribute.compare?, Attribute.named?]
    | some c =>
      simp [Tag.comparison, h, Test.attributes, Attribute.compare?, Operator.ofText?_text]
  rw [Tag.test, hname, hcomparison]

theorem level_eq {tags : TagSet} {loops level : Nat}
    (h : tag.attributes = [.named "level" (Text.numeral level)])
    (hl : 1 ≤ level ∧ level ≤ loops ∧ level < Text.countLimit) :
    tag.level tags loops = .ok level := by
  obtain ⟨hpos, hle, hlt⟩ := hl
  have hne : loops ≠ 0 := by omega
  rw [Tag.level, if_neg hne, h]
  simp [Attribute.named?, Text.count?_numeral hlt, Option.filter, hpos, hle]

theorem exists_leaf {draft : Draft} {kind : TagKind} {attributes : List Attribute}
    {depth loops : Nat} (hd : draft.tag? = some (kind, attributes))
    (hw : draft.WellFormed settings loops) (hdepth : depth < settings.includeLimit)
    (hk : tag.kind = kind) (ha : tag.attributes = attributes) (source : List Char) :
    ∃ node, tag.leaf settings depth loops = .ok [node] ∧ Draft.ofNode source node = draft := by
  cases draft with
  | text | cond | loop => cases hd
  | value name default formatter =>
    cases hd
    have hname : tag.name settings.tags = .ok name := name_eq ha
    have hdefault : Attribute.named? "default" tag.attributes = default := by
      cases default <;> cases formatter <;> simp [ha, Attribute.named?]
    have hformatter : tag.formatter settings = .ok formatter := by
      cases formatter with
      | none => cases default <;> simp [Tag.formatter, ha, Attribute.named?]
      | some f =>
        have hfind := (hw.2.2 f rfl).2
        cases default <;> simp [Tag.formatter, ha, Attribute.named?, hfind]
    refine ⟨.value name default formatter, ?_, rfl⟩
    rw [leaf, hk, value, hname, hformatter, hdefault]
    rfl
  | leave level =>
    cases hd
    refine ⟨.leave level, ?_, rfl⟩
    rw [leaf, hk, level_eq ha hw]
    rfl
  | next level =>
    cases hd
    refine ⟨.next level, ?_, rfl⟩
    rw [leaf, hk, level_eq ha hw]
    rfl
  | embed reference =>
    cases hd
    have hname : tag.name settings.tags = .ok reference := name_eq ha
    refine ⟨.embed reference tag.line tag.span, ?_, rfl⟩
    have hembed : tag.embed settings depth = .ok (.embed reference tag.line tag.span) := by
      rw [embed, hname]
      exact if_pos hdepth
    rw [leaf, hk, hembed]
    rfl

end Tag

namespace Attribute

theorem plain_named {key value : String} (hk : key ∈ ["name", "default", "fmt", "level"])
    (hv : Quotable value) : (named key value).Plain := by
  have hkey : key.toList ≠ [] ∧ key.toList.all Char.isLower = true := by
    simp only [List.mem_cons, List.not_mem_nil, or_false] at hk
    rcases hk with rfl | rfl | rfl | rfl <;> decide
  exact ⟨hkey.1, List.all_eq_true.mp hkey.2, hv⟩

end Attribute

namespace Mark

variable {settings : Settings} {loops : Nat}

theorem plain_bare {kind : TagKind} (h : kind.requiresName = false) : Plain (.tag kind []) := by
  refine ⟨by simp, fun hr => ?_⟩
  rw [h] at hr
  cases hr

theorem plain_single {kind : TagKind} {key value : String}
    (hk : key ∈ ["name", "default", "fmt", "level"]) (hv : Quotable value) :
    Plain (.tag kind [.named key value]) :=
  ⟨List.forall_mem_singleton.mpr (Attribute.plain_named hk hv), fun _ => List.cons_ne_nil _ _⟩

theorem plain_test {kind : TagKind} {test : Test} (hn : Quotable test.name)
    (hc : ∀ c, test.comparison = some c → Quotable c.2) : Plain (.tag kind test.attributes) := by
  refine ⟨fun a ha => ?_, fun _ => List.cons_ne_nil _ _⟩
  rcases List.mem_cons.mp ha with rfl | ha
  · exact Attribute.plain_named (by decide) hn
  · obtain ⟨c, hcomparison, rfl⟩ : ∃ c, test.comparison = some c ∧
        Attribute.compare c.1.text c.2 = a := by
      simpa using ha
    exact ⟨⟨c.1, rfl⟩, hc c hcomparison⟩

theorem Apart.tag {kind : TagKind} {attributes : List Attribute} {rest : List Mark}
    (h : Apart rest) : Apart (.tag kind attributes :: rest) :=
  ⟨(fun ht => by cases ht), h⟩

theorem isText_head?_tag {kind : TagKind} {attributes : List Attribute} {rest : List Mark} :
    ∀ m ∈ (Mark.tag kind attributes :: rest).head?, m.isText = false := by
  intro m hm
  cases hm
  rfl

theorem plain_of_tag? {draft : Draft} {kind : TagKind} {attributes : List Attribute}
    (hd : draft.tag? = some (kind, attributes)) (hw : draft.WellFormed settings loops) :
    Plain (.tag kind attributes) ∧ kind ≠ .cond ∧ kind ≠ .loop ∧ kind.isTerminator = false := by
  cases draft with
  | text | cond | loop => cases hd
  | value name default formatter =>
    cases hd
    refine ⟨⟨fun a ha => ?_, fun _ => List.cons_ne_nil _ _⟩, by decide⟩
    simp only [List.cons_append, List.mem_cons, List.mem_append, Option.mem_toList,
      Option.map_eq_some_iff] at ha
    rcases ha with rfl | ⟨d, hm, rfl⟩ | ⟨f, hm, rfl⟩
    · exact Attribute.plain_named (by decide) hw.1
    · exact Attribute.plain_named (by decide) (hw.2.1 d hm)
    · exact Attribute.plain_named (by decide) (hw.2.2 f hm).1
  | leave level | next level =>
    cases hd
    exact ⟨plain_single (by decide) (Text.quotable_numeral level), by decide⟩
  | embed reference =>
    cases hd
    exact ⟨plain_single (by decide) hw, by decide⟩

end Mark

namespace Lays

variable {settings : Settings} {loops : Nat} {drafts : List Draft} {marks : List Mark}

theorem plain {slot : Slot} (h : Lays slot drafts marks)
    (hw : Draft.AllWellFormed settings loops drafts) : ∀ m ∈ marks, m.Plain := by
  induction h generalizing loops with
  | nil => simp
  | text _ ih => exact List.forall_mem_cons.mpr ⟨hw.1, ih hw.2.1⟩
  | tag hd _ ih => exact List.forall_mem_cons.mpr ⟨(Mark.plain_of_tag? hd hw.1).1, ih hw.2.1⟩
  | cond _ _ _ ihYes ihNo ih =>
    obtain ⟨⟨hn, hc, hyes, hno⟩, hrest, _⟩ := hw
    intro m hm
    simp only [List.cons_append, List.mem_cons, List.mem_append] at hm
    rcases hm with rfl | (hm | hm) | hm
    · exact Mark.plain_test hn hc
    · exact ihYes hyes m hm
    · exact ihNo hno m hm
    · exact ih hrest m hm
  | loop _ _ ihBody ih =>
    obtain ⟨⟨hn, hbody⟩, hrest, _⟩ := hw
    intro m hm
    simp only [List.cons_append, List.mem_cons, List.mem_append] at hm
    rcases hm with rfl | hm | rfl | hm
    · exact Mark.plain_single (by decide) hn
    · exact ihBody hbody m hm
    · exact Mark.plain_bare rfl
    · exact ih hrest m hm
  | endif => exact List.forall_mem_singleton.mpr (Mark.plain_bare rfl)
  | alt _ ih =>
    intro m hm
    simp only [List.cons_append, List.mem_cons, List.mem_append, List.not_mem_nil, or_false] at hm
    rcases hm with rfl | hm | rfl
    · exact Mark.plain_bare rfl
    · exact ih hw m hm
    · exact Mark.plain_bare rfl
  | elsif _ _ ihYes ihNo =>
    obtain ⟨⟨hn, hc, hyes, hno⟩, _⟩ := hw
    intro m hm
    simp only [List.cons_append, List.mem_cons, List.mem_append] at hm
    rcases hm with rfl | hm | hm
    · exact Mark.plain_test hn hc
    · exact ihYes hyes m hm
    · exact ihNo hno m hm

theorem isText_head? (h : Lays .list drafts marks) (hd : ∀ d ∈ drafts.head?, d.isText = false) :
    ∀ m ∈ marks.head?, m.isText = false := by
  cases h with
  | nil => simp
  | text _ => cases hd _ rfl
  | tag _ _ | cond _ _ _ | loop _ _ =>
    intro m hm
    cases hm
    rfl

def alternatives : StopSet := [.elsif, .alt, .endif]

theorem exists_terminator (h : Lays .alternative drafts marks) :
    ∃ kind attributes rest, marks = .tag kind attributes :: rest ∧ kind ∈ alternatives := by
  cases h with
  | endif => exact ⟨_, _, _, rfl, by decide⟩
  | alt _ => exact ⟨_, _, _, rfl, by decide⟩
  | elsif _ _ => exact ⟨_, _, _, rfl, by decide⟩

/-- The marks of well-formed drafts keep texts apart, also from what follows a list if that begins
with a tag. -/
theorem apart_append {slot : Slot} (h : Lays slot drafts marks)
    (hw : Draft.AllWellFormed settings loops drafts) {more : List Mark} (ha : Mark.Apart more)
    (hm : slot = .list → ∀ m ∈ more.head?, m.isText = false) : Mark.Apart (marks ++ more) := by
  induction h generalizing loops more with
  | nil => exact ha
  | @text content rest marks hrest ih =>
    refine ⟨fun _ => ?_, ih hw.2.1 ha hm⟩
    cases marks with
    | nil => exact hm rfl
    | cons m left => exact hrest.isText_head? (hw.2.2 rfl)
  | tag _ _ ih => exact (ih hw.2.1 ha hm).tag
  | @cond test yes no rest first second marks _ hno _ ihYes ihNo ih =>
    obtain ⟨⟨_, _, hyes, hno'⟩, hrest, _⟩ := hw
    obtain ⟨kind, attributes, left, rfl, _⟩ := hno.exists_terminator
    have hsecond := ihNo hno' (ih hrest ha hm) (fun h => by cases h)
    have hfirst := ihYes hyes hsecond fun _ => Mark.isText_head?_tag
    simpa [List.append_assoc] using hfirst.tag
  | @loop name body rest inner marks _ _ ihBody ih =>
    obtain ⟨⟨_, hbody⟩, hrest, _⟩ := hw
    have hinner : Mark.Apart (inner ++ .tag .endloop [] :: (marks ++ more)) :=
      ihBody hbody (ih hrest ha hm).tag fun _ => Mark.isText_head?_tag
    simpa [List.append_assoc] using hinner.tag
  | endif => exact ha.tag
  | @alt no marks _ ih =>
    have hinner : Mark.Apart (marks ++ .tag .endif [] :: more) :=
      ih hw ha.tag fun _ => Mark.isText_head?_tag
    simpa [List.append_assoc] using hinner.tag
  | elsif _ hno ihYes ihNo =>
    obtain ⟨⟨_, _, hyes, hno'⟩, _⟩ := hw
    obtain ⟨kind, attributes, left, rfl, _⟩ := hno.exists_terminator
    have hsecond := ihNo hno' ha (fun h => by cases h)
    have hfirst := ihYes hyes hsecond fun _ => Mark.isText_head?_tag
    simpa [List.append_assoc] using hfirst.tag

end Lays
end Stencil
