import Stencil.Report
import Stencil.Proofs.Item.Places
import Mathlib.Data.List.DropRight

/-! The lines of a report.
A report looks for lines by the number of characters before them, and takes more characters for line
ends than diagnostics do. The main statements say in which line a place is, and that as many lines
come before it as line feeds if the text before it has no other line ends. -/
namespace Stencil
namespace SourceLine

def numbered : Nat → List (List Char) → List SourceLine
  | _, [] => []
  | start, line :: more => ⟨start, line⟩ :: numbered (start + line.length) more

theorem numbered_append (start : Nat) (a b : List (List Char)) :
    numbered start (a ++ b) = numbered start a ++ numbered (start + a.flatten.length) b := by
  induction a generalizing start with
  | nil => simp [numbered]
  | cons line a ih => simp [numbered, ih, Nat.add_assoc]

@[simp] theorem length_numbered (start : Nat) (lines : List (List Char)) :
    (numbered start lines).length = lines.length := by
  induction lines generalizing start with
  | nil => rfl
  | cons line lines ih => simp [numbered, ih]

theorem start_le_of_mem_numbered {start : Nat} {lines : List (List Char)} {l : SourceLine}
    (h : l ∈ numbered start lines) : l.start ≤ start + lines.flatten.length := by
  induction lines generalizing start with
  | nil => cases h
  | cons line lines ih =>
    rw [List.flatten_cons, List.length_append]
    rcases List.mem_cons.mp h with rfl | h
    · exact Nat.le_add_right ..
    · have := ih h
      omega

theorem all_eq_numbered (source : List Char) : all source = numbered 0 (split source) := by
  have hfold : ∀ (lines : List (List Char)) (start : Nat) (acc : List SourceLine),
      (lines.foldl (fun (acc : Nat × List SourceLine) line =>
        (acc.1 + line.length, ⟨acc.1, line⟩ :: acc.2)) (start, acc)).2.reverse =
      acc.reverse ++ numbered start lines := by
    intro lines
    induction lines with
    | nil => simp [numbered]
    | cons line lines ih =>
      intro start acc
      rw [List.foldl_cons, ih]
      simp [numbered]
  exact hfold (split source) 0 []

/-- An offset that is in a line has as many lines before it as come before that line. -/
theorem lineIndex_numbered {full more : List (List Char)} {line : List Char} {offset : Nat}
    (hle : full.flatten.length ≤ offset) (hlt : offset < full.flatten.length + line.length) :
    Diagnostic.lineIndex (numbered 0 (full ++ line :: more)) offset = full.length := by
  have hfull : ∀ l ∈ numbered 0 full, decide (l.start ≤ offset) = true := by
    intro l hl
    have := start_le_of_mem_numbered hl
    exact decide_eq_true (by omega)
  have hmore : ∀ start, offset < start →
      (numbered start more).takeWhile (fun l => decide (l.start ≤ offset)) = [] := by
    intro start hs
    cases more with
    | nil => rfl
    | cons next more => simp [numbered, hs]
  unfold Diagnostic.lineIndex
  rw [numbered_append, List.takeWhile_append_of_pos hfull, numbered,
    List.takeWhile_cons_of_pos (by simpa using hle), hmore _ (by omega)]
  simp

theorem getElem?_numbered (full more : List (List Char)) (line : List Char) :
    (numbered 0 (full ++ line :: more))[full.length]? = some ⟨full.flatten.length, line⟩ := by
  rw [numbered_append, List.getElem?_append_right (by simp)]
  simp [numbered]

section Located

variable {source line : List Char} {full more : List (List Char)}

theorem lineIndex_of_split (h : split source = full ++ line :: more) {offset : Nat}
    (hle : full.flatten.length ≤ offset) (hlt : offset < full.flatten.length + line.length) :
    Diagnostic.lineIndex (all source) offset = full.length := by
  rw [all_eq_numbered, h]
  exact lineIndex_numbered hle hlt

theorem getElem?_of_split (h : split source = full ++ line :: more) :
    (all source)[full.length]? = some ⟨full.flatten.length, line⟩ := by
  rw [all_eq_numbered, h, getElem?_numbered]

end Located

section Split

variable {text line : List Char} {more : List (List Char)}

theorem eq_nil_of_split (h : split text = []) : text = [] := by
  unfold split at h
  split at h
  · rfl
  · cases h
  · split at h
    · cases h
    · split at h <;> cases h

/-- A line ends with the first of its characters that ends a line, or where the text does. A
carriage return takes a line feed along. -/
def IsLine (line rest : List Char) : Prop :=
  ∃ body, (∀ c ∈ body, isLineEnd c = false) ∧
    (line = body ++ ['\r', '\n'] ∨
      (∃ c, isLineEnd c = true ∧ line = body ++ [c] ∧ (c = '\r' → rest.head? ≠ some '\n')) ∨
      line = body ∧ body ≠ [] ∧ rest = [])

theorem exists_of_split_eq_cons (h : split text = line :: more) :
    ∃ rest, text = line ++ rest ∧ split rest = more ∧ IsLine line rest := by
  fun_induction split text generalizing line more with
  | case1 => cases h
  | case2 r =>
    cases h
    exact ⟨r, rfl, rfl, [], by simp, .inl rfl⟩
  | case3 c r hne hend =>
    cases h
    refine ⟨r, rfl, rfl, [], by simp, .inr (.inl ⟨c, hend, rfl, ?_⟩)⟩
    rintro rfl hr
    obtain ⟨left, rfl⟩ := List.head?_eq_some_iff.mp hr
    exact hne left rfl rfl
  | case4 c r _ hend line' more' hr ih =>
    cases h
    obtain ⟨rest, rfl, hrest, body, hbody, hline⟩ := ih hr
    refine ⟨rest, rfl, hrest, c :: body, ?_, ?_⟩
    · exact List.forall_mem_cons.mpr ⟨by simpa using hend, hbody⟩
    · rcases hline with rfl | ⟨d, hd, rfl, hn⟩ | ⟨rfl, hne, rfl⟩
      · exact .inl rfl
      · exact .inr (.inl ⟨d, hd, rfl, hn⟩)
      · exact .inr (.inr ⟨rfl, by simp, rfl⟩)
  | case5 c r _ hend hr =>
    cases h
    cases eq_nil_of_split hr
    exact ⟨[], rfl, rfl, [c], by simpa using hend, .inr (.inr ⟨rfl, by simp, rfl⟩)⟩

theorem IsLine.ne_nil {rest : List Char} (h : IsLine line rest) : line ≠ [] := by
  obtain ⟨body, -, rfl | ⟨c, -, rfl, -⟩ | ⟨rfl, hne, -⟩⟩ := h
  · simp
  · simp
  · exact hne

theorem flatten_split (text : List Char) : (split text).flatten = text := by
  generalize hl : split text = lines
  induction lines generalizing text with
  | nil => exact (eq_nil_of_split hl).symm
  | cons first lines ih =>
    obtain ⟨rest, rfl, hrest, -⟩ := exists_of_split_eq_cons hl
    rw [List.flatten_cons, ih rest hrest]

end Split

/-- Whether the lines of the text end in line feeds, with or without a carriage return in front of
them, if `rest` follows the text. -/
def PlainEnds (text rest : List Char) : Prop :=
  ∀ a c b, text = a ++ c :: b → isLineEnd c = true →
    c = '\n' ∨ c = '\r' ∧ (b ++ rest).head? = some '\n'

theorem plainEnds_of_feeds {text : List Char}
    (h : ∀ c ∈ text, isLineEnd c = true → c = '\n') (rest : List Char) : PlainEnds text rest := by
  rintro a c b rfl hc
  exact .inl (h c (by simp) hc)

theorem PlainEnds.of_append {first text rest : List Char} (h : PlainEnds (first ++ text) rest) :
    PlainEnds text rest := by
  rintro a c b rfl hc
  exact h (first ++ a) c b (by simp) hc

theorem IsLine.feed_not_mem {before behind rest : List Char} (h : IsLine (before ++ behind) rest)
    (hb : behind ≠ []) : '\n' ∉ before := by
  obtain ⟨body, hbody, hline⟩ := h
  have hfeed : '\n' ∉ body := fun hm => absurd (hbody _ hm) (by decide)
  have hinit {init : List Char} {c : Char} (he : before ++ behind = init ++ [c]) :
      before <+: init := by
    refine (List.prefix_concat_iff.mp ⟨behind, he⟩).resolve_left ?_
    rintro rfl
    exact hb (List.append_right_eq_self.mp he)
  rcases hline with he | ⟨c, -, he, -⟩ | ⟨he, -, -⟩
  · have hreturn : '\n' ∉ body ++ ['\r'] := by simpa using hfeed
    exact fun hm => hreturn ((hinit (by simpa using he)).subset hm)
  · exact fun hm => hfeed ((hinit he).subset hm)
  · exact fun hm => hfeed ((List.prefix_iff_eq_append.mpr (by rw [← he]; simp)).subset hm)

theorem IsLine.ends_in_feed {line left rest : List Char} (h : IsLine line (left ++ rest))
    (hn : left ++ rest ≠ []) (hp : PlainEnds (line ++ left) rest) :
    ∃ init, line = init ++ ['\n'] ∧ '\n' ∉ init := by
  obtain ⟨body, hbody, hline⟩ := h
  have hfeed : '\n' ∉ body := fun hm => absurd (hbody _ hm) (by decide)
  rcases hline with rfl | ⟨c, hc, rfl, hnext⟩ | ⟨-, -, hnil⟩
  · exact ⟨body ++ ['\r'], by simp, by simpa using hfeed⟩
  · rcases hp body c left (by simp) hc with rfl | ⟨rfl, hhead⟩
    · exact ⟨body, rfl, hfeed⟩
    · exact absurd hhead (hnext rfl)
  · exact absurd hnil hn

theorem rtakeWhile_of_ends {earlier text : List Char}
    (he : earlier = [] ∨ ∃ init, earlier = init ++ ['\n']) (ht : '\n' ∉ text) :
    (earlier ++ text).rtakeWhile (· != '\n') = text := by
  have hall : ∀ c ∈ text.reverse, (c != '\n') = true := by
    intro c hc
    rw [bne_iff_ne]
    rintro rfl
    exact ht (List.mem_reverse.mp hc)
  rw [List.rtakeWhile, List.reverse_append, List.takeWhile_append_of_pos hall]
  rcases he with rfl | ⟨init, rfl⟩ <;> simp

/-- Where lines end plainly, as many of them come before a place as line feeds, and the last line
feed ends the last of them. -/
theorem lineFeeds_of_plainEnds {full more : List (List Char)} {before behind rest : List Char}
    (h : split (full.flatten ++ before ++ rest) = full ++ (before ++ behind) :: more)
    (hb : behind ≠ []) (hr : rest ≠ []) (hp : PlainEnds (full.flatten ++ before) rest) :
    Text.lineFeeds (full.flatten ++ before) = full.length ∧ '\n' ∉ before ∧
      (full.flatten = [] ∨ ∃ init, full.flatten = init ++ ['\n']) := by
  generalize ht : full.flatten ++ before ++ rest = text at h
  -- each of the full lines ends in the one line feed that it has
  induction full generalizing text with
  | nil =>
    obtain ⟨left, -, -, hline⟩ := exists_of_split_eq_cons h
    have hfeed := hline.feed_not_mem hb
    exact ⟨Text.lineFeeds_eq_zero hfeed, hfeed, .inl rfl⟩
  | cons line full ih =>
    obtain ⟨left, htext, hleft, hline⟩ := exists_of_split_eq_cons h
    rw [List.flatten_cons, List.append_assoc] at ht hp
    obtain rfl : full.flatten ++ before ++ rest = left :=
      List.append_cancel_left (by rw [← htext, ← ht]; simp)
    obtain ⟨init, rfl, hinit⟩ := hline.ends_in_feed (by simp [hr]) hp
    obtain ⟨hcount, hfeed, hends⟩ := ih hp.of_append _ rfl hleft
    refine ⟨?_, hfeed, .inr ?_⟩
    · rw [List.flatten_cons, List.append_assoc, Text.lineFeeds_append, hcount,
        Text.lineFeeds_append, Text.lineFeeds_eq_zero hinit, Text.lineFeeds_cons]
      simp [Nat.add_comm]
    · rw [List.flatten_cons]
      rcases hends with hnil | ⟨last, hlast⟩
      · exact ⟨init, by rw [hnil, List.append_nil]⟩
      · exact ⟨init ++ ['\n'] ++ last, by simp [hlast]⟩

/-- The lines that a part of a text is in: one of them, or the first and the last of several. -/
inductive Holds (lines : List (List Char)) (before covered : List Char) : Prop
  | one {full more : List (List Char)} {pre post : List Char} :
    lines = full ++ (pre ++ covered ++ post) :: more → before = full.flatten ++ pre →
    Holds lines before covered
  | several {full between more : List (List Char)} {pre first last post : List Char} :
    lines = full ++ (pre ++ first) :: (between ++ (last ++ post) :: more) →
    before = full.flatten ++ pre → covered = first ++ between.flatten ++ last →
    first ≠ [] → last ≠ [] → Holds lines before covered

theorem exists_last_line {lines : List (List Char)} {covered after : List Char}
    (h : lines.flatten = covered ++ after) (hc : covered ≠ []) :
    ∃ between last post more, lines = between ++ (last ++ post) :: more ∧
      covered = between.flatten ++ last ∧ last ≠ [] := by
  induction lines generalizing covered with
  | nil => exact absurd (List.append_eq_nil_iff.mp h.symm).1 hc
  | cons line lines ih =>
    rw [List.flatten_cons] at h
    rcases List.append_eq_append_iff.mp h with ⟨rest, rfl, hrest⟩ | ⟨post, rfl, -⟩
    · by_cases hr : rest = []
      · subst hr
        exact ⟨[], line, [], lines, by simp, by simp, by simpa using hc⟩
      · obtain ⟨between, last, post, more, rfl, rfl, hlast⟩ := ih hrest hr
        exact ⟨line :: between, last, post, more, rfl, by simp, hlast⟩
    · exact ⟨[], covered, post, lines, rfl, rfl, hc⟩

theorem Holds.cons {lines : List (List Char)} {before covered : List Char}
    (h : Holds lines before covered) (line : List Char) :
    Holds (line :: lines) (line ++ before) covered := by
  cases h with
  | @one full more pre post hl hb =>
    exact @Holds.one _ _ _ (line :: full) more pre post (by rw [hl]; rfl) (by rw [hb]; simp)
  | @several full between more pre first last post hl hb hc hfirst hlast =>
    exact @Holds.several _ _ _ (line :: full) between more pre first last post (by rw [hl]; rfl)
      (by rw [hb]; simp) hc hfirst hlast

theorem holds_of_flatten {lines : List (List Char)} {before covered after : List Char}
    (h : lines.flatten = before ++ covered ++ after) (hc : covered ≠ []) :
    Holds lines before covered := by
  induction lines generalizing before with
  | nil =>
    rw [List.append_assoc] at h
    exact absurd (List.append_eq_nil_iff.mp (List.append_eq_nil_iff.mp h.symm).2).1 hc
  | cons line lines ih =>
    rw [List.flatten_cons, List.append_assoc] at h
    rcases List.append_eq_append_iff.mp h with ⟨rest, rfl, hrest⟩ | ⟨first, rfl, hfirst⟩
    · exact (ih (hrest.trans (List.append_assoc ..).symm)).cons line
    · rcases List.append_eq_append_iff.mp hfirst with ⟨post, rfl, -⟩ | ⟨rest, rfl, hrest⟩
      · exact @Holds.one _ _ _ [] lines before post (by simp) rfl
      · by_cases hf : first = []
        · subst hf
          have hcons := (@ih [] (by simpa using hrest)).cons before
          simpa using hcons
        · by_cases hr : rest = []
          · subst hr
            exact @Holds.one _ _ _ [] lines before [] (by simp) rfl
          · obtain ⟨between, last, post, more, rfl, rfl, hlast⟩ := exists_last_line hrest hr
            exact @Holds.several _ _ _ [] between more before first last post rfl rfl (by simp) hf
              hlast

end SourceLine
end Stencil
