import Stencil.Proofs.Report.Lines
import Stencil.Template
import Mathlib.Algebra.GroupWithZero.Nat

/-! What a report shows.
Its heading names a line and a column, and its marks stand below the characters that it is about.
The main statement says that these are the line and the characters of the diagnostic if every
character up to there takes one byte and lines end plainly. A wider character before them moves the
report on. -/
namespace Stencil
namespace SourceLine

/-- Characters of one byte. -/
def Narrow (text : List Char) : Prop := ∀ c ∈ text, c.utf8Size = 1

theorem Narrow.size_eq {text : List Char} (h : Narrow text) : Text.size text = text.length := by
  induction text with
  | nil => rfl
  | cons c r ih =>
    obtain ⟨hc, hr⟩ := List.forall_mem_cons.mp h
    rw [Text.size_cons, List.length_cons, hc, ih hr, Nat.add_comm]

theorem toNat_lt_of_utf8Size {c : Char} (h : c.utf8Size = 1) : c.toNat < 0x80 := by
  unfold Char.utf8Size at h
  dsimp only at h
  split at h
  · rename_i hle
    exact Nat.lt_succ_of_le hle
  · split at h
    · cases h
    · split at h <;> cases h

theorem length_shown {c : Char} (h : c.utf8Size = 1) (column : Nat) :
    (shown column c).length = width column c := by
  have hcolumns : Text.columns c = 1 :=
    Text.columns_of_lt (Nat.lt_trans (toNat_lt_of_utf8Size h) (by decide))
  unfold shown width
  split
  · simp
  · split
    · rfl
    · simp [hcolumns]

theorem shownFrom_append (column : Nat) (a b : List Char) :
    shownFrom column (a ++ b) = shownFrom column a ++ shownFrom (column + a.length) b := by
  induction a generalizing column with
  | nil => simp [shownFrom]
  | cons c a ih => simp [shownFrom, ih, Nat.add_assoc, Nat.add_comm 1]

theorem widthsFrom_add (column : Nat) (text : List Char) (m n : Nat) :
    widthsFrom column text (m + n) =
      widthsFrom column text m ++ widthsFrom (column + m) (text.drop m) n := by
  induction m generalizing column text with
  | zero => simp [widthsFrom]
  | succ m ih =>
    rw [Nat.add_right_comm]
    cases text with
    | nil => simp [widthsFrom, ih, Nat.add_assoc, Nat.add_comm 1]
    | cons c r => simp [widthsFrom, ih, Nat.add_assoc, Nat.add_comm 1]

@[simp] theorem length_widthsFrom (column : Nat) (text : List Char) (n : Nat) :
    (widthsFrom column text n).length = n := by
  induction n generalizing column text with
  | zero => simp [widthsFrom]
  | succ n ih => cases text <;> simp [widthsFrom, ih]

/-- So many columns are as wide as what is shown of the characters in them, with a blank for each of
them that is behind the characters. -/
theorem sum_widthsFrom {text : List Char} {n : Nat} (h : Narrow (text.take n)) (column : Nat) :
    (widthsFrom column text n).sum =
      (shownFrom column (text.take n)).length + (n - text.length) := by
  induction n generalizing column text with
  | zero => simp [widthsFrom, shownFrom]
  | succ n ih =>
    cases text with
    | nil =>
      have := @ih [] (by simpa using h) (column + 1)
      simp only [widthsFrom, List.sum_cons, this]
      simp [shownFrom, Nat.add_comm]
    | cons c r =>
      obtain ⟨hc, hr⟩ := List.forall_mem_cons.mp h
      have := ih hr (column + 1)
      simp only [widthsFrom, List.sum_cons, this, List.take_succ_cons, shownFrom,
        List.length_append, length_shown hc, List.length_cons]
      omega

theorem shownFrom_take_append (column : Nat) (text : List Char) (n : Nat) :
    shownFrom column text =
      shownFrom column (text.take n) ++ shownFrom (column + n) (text.drop n) := by
  by_cases h : n ≤ text.length
  · have happend := shownFrom_append column (text.take n) (text.drop n)
    rwa [List.take_append_drop, List.length_take_of_le h] at happend
  · rw [List.take_of_length_le (by omega), List.drop_eq_nil_of_le (by omega)]
    simp [shownFrom]

theorem drop_shownFrom {text : List Char} {n : Nat} (h : Narrow (text.take n)) (column : Nat) :
    (shownFrom column text).drop (widthsFrom column text n).sum =
      shownFrom (column + n) (text.drop n) := by
  rw [sum_widthsFrom h, shownFrom_take_append column text n, List.drop_append]
  by_cases hn : n ≤ text.length
  · simp [Nat.sub_eq_zero_of_le hn]
  · rw [List.drop_eq_nil_of_le (show text.length ≤ n by omega)]
    simp [shownFrom]

end SourceLine

namespace Diagnostic

def IsMark (c : Char) : Prop := c = '─' ∨ c = '┬'

instance : DecidablePred IsMark := fun c => inferInstanceAs (Decidable (c = '─' ∨ c = '┬'))

/-- The characters of a shown line that marks stand below. Behind its end the line is blank. -/
def marked : List Char → List Char → List Char
  | _, [] => []
  | text, mark :: row =>
    if IsMark mark then text.headD ' ' :: marked text.tail row
    else marked text.tail row

theorem marked_append (text row row' : List Char) :
    marked text (row ++ row') = marked text row ++ marked (text.drop row.length) row' := by
  induction row generalizing text with
  | nil => rfl
  | cons mark row ih =>
    have hdrop : text.tail.drop row.length = text.drop (row.length + 1) := by
      cases text <;> simp
    rw [List.cons_append, marked, marked, ih, hdrop]
    split <;> rfl

theorem marked_eq_nil {row : List Char} (h : ∀ mark ∈ row, ¬ IsMark mark)
    (text : List Char) : marked text row = [] := by
  induction row generalizing text with
  | nil => rfl
  | cons mark row ih =>
    obtain ⟨hmark, hrow⟩ := List.forall_mem_cons.mp h
    rw [marked, if_neg hmark, ih hrow]

theorem marked_of_forall {row : List Char} (h : ∀ mark ∈ row, IsMark mark) (text : List Char) :
    marked text row = text.take row.length ++ List.replicate (row.length - text.length) ' ' := by
  induction row generalizing text with
  | nil => simp [marked]
  | cons mark row ih =>
    obtain ⟨hmark, hrow⟩ := List.forall_mem_cons.mp h
    rw [marked, if_pos hmark, ih hrow]
    cases text with
    | nil => simp [List.replicate_succ]
    | cons c text => simp

def rowFrom (column : Nat) (widths : List Nat) (mark : Nat → Char × Char) : List Char :=
  (widths.zipIdx column).flatMap fun (w, column) =>
    match w with
    | 0 => []
    | w + 1 => (mark column).1 :: List.replicate w (mark column).2

variable {mark : Nat → Char × Char}

theorem rowFrom_append (column : Nat) (a b : List Nat) :
    rowFrom column (a ++ b) mark = rowFrom column a mark ++ rowFrom (column + a.length) b mark := by
  simp [rowFrom, List.zipIdx_append]

theorem rowFrom_cons (column w : Nat) (widths : List Nat) :
    rowFrom column (w :: widths) mark =
      rowFrom column [w] mark ++ rowFrom (column + 1) widths mark :=
  rowFrom_append column [w] widths

theorem length_rowFrom (column : Nat) (widths : List Nat) :
    (rowFrom column widths mark).length = widths.sum := by
  induction widths generalizing column with
  | nil => rfl
  | cons w widths ih =>
    rw [rowFrom_cons, List.length_append, ih, List.sum_cons]
    cases w <;> simp [rowFrom, Nat.add_comm]

theorem forall_mem_rowFrom {P : Char → Prop} {column : Nat} {widths : List Nat}
    (h : ∀ k, column ≤ k → k < column + widths.length → P (mark k).1 ∧ P (mark k).2) :
    ∀ c ∈ rowFrom column widths mark, P c := by
  induction widths generalizing column with
  | nil => exact List.forall_mem_nil _
  | cons w widths ih =>
    rw [rowFrom_cons]
    obtain ⟨hfirst, hsecond⟩ := h column (Nat.le_refl _) (by simp)
    refine List.forall_mem_append.mpr ⟨?_, ih fun k hle hlt => h k (by omega) ?_⟩
    · cases w with
      | zero => exact List.forall_mem_nil _
      | succ w =>
        intro c hc
        simp only [rowFrom, List.zipIdx_singleton, List.flatMap_cons, List.flatMap_nil,
          List.append_nil, List.mem_cons, List.mem_replicate] at hc
        rcases hc with rfl | ⟨-, rfl⟩
        · exact hfirst
        · exact hsecond
    · simp only [List.length_cons]
      omega

/-- Where marks stand below so many columns, what is shown in these columns is marked. -/
theorem exists_marked_rowFrom {text : List Char} {pre n : Nat}
    (h : SourceLine.Narrow (text.take (pre + n))) (more : Nat)
    (hin : ∀ k, pre ≤ k → k < pre + n → IsMark (mark k).1 ∧ IsMark (mark k).2)
    (hout : ∀ k, k < pre ∨ pre + n ≤ k → ¬ IsMark (mark k).1 ∧ ¬ IsMark (mark k).2) :
    ∃ blanks, marked (SourceLine.shownFrom 0 text)
        (rowFrom 0 (SourceLine.widthsFrom 0 text (pre + (n + more))) mark) =
      SourceLine.shownFrom pre ((text.drop pre).take n) ++ List.replicate blanks ' ' := by
  have hpre : SourceLine.Narrow (text.take pre) :=
    fun c hc => h c ((List.take_prefix_take_left (Nat.le_add_right pre n)).subset hc)
  have hn : SourceLine.Narrow ((text.drop pre).take n) := by
    intro c hc
    rw [List.take_drop] at hc
    exact h c (List.mem_of_mem_drop hc)
  have hbefore : ∀ c ∈ rowFrom 0 (SourceLine.widthsFrom 0 text pre) mark, ¬ IsMark c :=
    forall_mem_rowFrom fun k _ hk => hout k (.inl (by simpa using hk))
  have hbelow : ∀ c ∈ rowFrom pre (SourceLine.widthsFrom pre (text.drop pre) n) mark,
      IsMark c := forall_mem_rowFrom fun k hle hk => hin k hle (by simpa using hk)
  have hbehind : ∀ c ∈ rowFrom (pre + n)
      (SourceLine.widthsFrom (pre + n) ((text.drop pre).drop n) more) mark, ¬ IsMark c :=
    forall_mem_rowFrom fun k hle _ => hout k (.inr hle)
  have hdrop := SourceLine.drop_shownFrom hpre 0
  rw [Nat.zero_add] at hdrop
  have htake : (SourceLine.shownFrom pre (text.drop pre)).take
      (SourceLine.shownFrom pre ((text.drop pre).take n)).length =
      SourceLine.shownFrom pre ((text.drop pre).take n) := by
    rw [SourceLine.shownFrom_take_append pre (text.drop pre) n, List.take_left]
  rw [SourceLine.widthsFrom_add, SourceLine.widthsFrom_add, rowFrom_append, rowFrom_append,
    marked_append, marked_append, marked_eq_nil hbefore, List.nil_append, length_rowFrom]
  simp only [Nat.zero_add, SourceLine.length_widthsFrom]
  rw [hdrop, marked_eq_nil hbehind, List.append_nil, marked_of_forall hbelow, length_rowFrom,
    SourceLine.sum_widthsFrom hn]
  by_cases hlen : n ≤ (text.drop pre).length
  · rw [Nat.sub_eq_zero_of_le hlen, Nat.add_zero, htake]
    exact ⟨_, rfl⟩
  · rw [List.take_of_length_le (show (text.drop pre).length ≤ n by omega)]
    refine ⟨n - (text.drop pre).length, ?_⟩
    rw [List.take_of_length_le (Nat.le_add_right ..)]
    congr 2
    omega

end Diagnostic

namespace SourceLine

theorem rdropWhile_append_of_forall {a b : List Char} (h : ∀ c ∈ b, Text.isBlank c = true) :
    (a ++ b).rdropWhile Text.isBlank = a.rdropWhile Text.isBlank := by
  have hreverse : ∀ c ∈ b.reverse, Text.isBlank c = true :=
    fun c hc => h c (List.mem_reverse.mp hc)
  rw [List.rdropWhile, List.reverse_append, List.dropWhile_append_of_pos hreverse]
  rfl

theorem isBlank_of_mem_shownFrom {text : List Char} (h : ∀ c ∈ text, Text.isBlank c = true)
    (column : Nat) : ∀ c ∈ shownFrom column text, Text.isBlank c = true := by
  induction text generalizing column with
  | nil => exact List.forall_mem_nil _
  | cons d text ih =>
    obtain ⟨hd, htext⟩ := List.forall_mem_cons.mp h
    refine List.forall_mem_append.mpr ⟨fun c hc => ?_, ih htext (column + 1)⟩
    have hspace : Text.isBlank ' ' = true := by decide
    unfold shown at hc
    rw [if_pos hd] at hc
    split at hc
    · rw [List.eq_of_mem_replicate hc, hspace]
    · rw [List.mem_singleton.mp hc, hspace]

theorem exists_cut (pre covered post : List Char) :
    ∃ cut, (∀ c ∈ cut, Text.isBlank c = true) ∧
      covered = (((pre ++ covered ++ post).rdropWhile Text.isBlank).drop pre.length).take
        covered.length ++ cut := by
  have hall : (pre ++ covered ++ post).rdropWhile Text.isBlank ++
      (pre ++ covered ++ post).rtakeWhile Text.isBlank = pre ++ covered ++ post :=
    List.rdropWhile_append_rtakeWhile
  generalize hk : (pre ++ covered ++ post).rdropWhile Text.isBlank = kept at hall
  generalize ht : (pre ++ covered ++ post).rtakeWhile Text.isBlank = tail at hall
  have htail : ∀ c ∈ tail, Text.isBlank c = true := by
    rw [← ht]
    exact fun c hc => List.mem_rtakeWhile_imp hc
  have hcovered : covered = ((kept ++ tail).drop pre.length).take covered.length := by
    rw [hall]
    simp
  rw [List.drop_append, List.take_append] at hcovered
  exact ⟨_, fun c hc => htail c (List.mem_of_mem_drop (List.mem_of_mem_take hc)), hcovered⟩

theorem narrow_trimmed {pre covered : List Char} (h : Narrow (pre ++ covered)) (post : List Char) :
    Narrow (((pre ++ covered ++ post).rdropWhile Text.isBlank).take
      (pre.length + covered.length)) := by
  obtain ⟨tail, htail⟩ := List.rdropWhile_prefix Text.isBlank (l := pre ++ covered ++ post)
  have hall : pre ++ covered = ((pre ++ covered ++ post).rdropWhile Text.isBlank ++ tail).take
      (pre.length + covered.length) := by
    rw [htail, ← List.length_append, List.take_left]
  rw [List.take_append] at hall
  intro c hc
  refine h c ?_
  rw [hall]
  exact List.mem_append_left _ hc

end SourceLine

namespace Diagnostic

def heading (width : Nat) (file : List Char) (line column : Nat) : List Char :=
  List.replicate (width + 2) ' ' ++ "╭─[".toList ++ file ++
    (":" ++ Text.numeral line ++ ":" ++ Text.numeral column).toList ++ "]".toList

def unlines (lines : List (List Char)) : List Char := lines.flatMap fun line => line ++ ['\n']

/-- The report shows the characters `covered`, before which `pre` stands in this line of the source.
Its heading names the line and the column. If the characters are on one line then marks stand below
them, of which no more is seen than blanks at the end of the line, and below no others; if not, then
the line that they begin in and the one that they end in are embraced. -/
inductive Shows (d : Diagnostic) (source : List Char) (line : Nat) (pre covered : List Char) : Prop
  | one {full more : List (List Char)} {post shown row below foot : List Char} {width : Nat} :
    SourceLine.split source = full ++ (pre ++ covered ++ post) :: more → line = full.length + 1 →
    shown = SourceLine.shownFrom 0 ((pre ++ covered ++ post).rdropWhile Text.isBlank) →
    (marked shown row).rdropWhile Text.isBlank =
      (SourceLine.shownFrom pre.length covered).rdropWhile Text.isBlank →
    d.report.toList = unlines [("Error: " ++ d.problem.message).toList,
      heading width d.file.toList line (pre.length + 1),
      List.replicate (width + 2) ' ' ++ "│".toList,
      numberMargin width full.length ++ shown,
      List.replicate (width + 2) ' ' ++ "│ ".toList ++ row,
      List.replicate (width + 2) ' ' ++ "│ ".toList ++ below ++ ' ' :: d.problem.message.toList,
      foot] →
    Shows d source line pre covered
  | several {full between more : List (List Char)} {first last post : List Char}
    {gap foot : List (List Char)} {width : Nat} :
    SourceLine.split source =
      full ++ (pre ++ first) :: (between ++ (last ++ post) :: more) → line = full.length + 1 →
    covered = first ++ between.flatten ++ last → first ≠ [] → last ≠ [] →
    d.report.toList = unlines (("Error: " ++ d.problem.message).toList ::
      heading width d.file.toList line (pre.length + 1) ::
      (List.replicate (width + 2) ' ' ++ "│".toList) ::
      (numberMargin width full.length ++ "╭─▶ ".toList ++
        SourceLine.shownFrom 0 ((pre ++ first).rdropWhile Text.isBlank)) ::
      (gap ++ (numberMargin width (full.length + between.length + 1) ++ "├─▶ ".toList ++
        SourceLine.shownFrom 0 ((last ++ post).rdropWhile Text.isBlank)) :: foot)) →
    Shows d source line pre covered

section Report

variable {d : Diagnostic} {line : Nat} {source : String} {before covered after : List Char}

/-- On one line marks stand below the characters of the span and no others. -/
theorem marked_labelRows {pre post : List Char} (start : Nat) (hc : covered ≠ [])
    (hn : SourceLine.Narrow (pre ++ covered)) :
    (marked (SourceLine.shownFrom 0 ((pre ++ covered ++ post).rdropWhile Text.isBlank))
        (labelRows ⟨start, pre ++ covered ++ post⟩ (start + pre.length)
          (start + pre.length + covered.length)).1).rdropWhile Text.isBlank =
      (SourceLine.shownFrom pre.length covered).rdropWhile Text.isBlank := by
  have hpos := List.length_pos_iff.mpr hc
  have hstart : start + pre.length - start = pre.length := by omega
  have hstop : start + pre.length + covered.length - start = pre.length + covered.length := by
    omega
  have harrow : pre.length ≤
        (start + pre.length + (start + pre.length + covered.length)) / 2 - start ∧
      (start + pre.length + (start + pre.length + covered.length)) / 2 - start <
        pre.length + covered.length := by omega
  obtain ⟨cut, hblank, hcovered⟩ := SourceLine.exists_cut pre covered post
  unfold labelRows
  simp only [hstart, hstop]
  generalize (start + pre.length + (start + pre.length + covered.length)) / 2 - start = arrow
    at harrow
  let mark (column : Nat) : Char × Char :=
    if pre.length ≤ column ∧ column < pre.length + covered.length then
      (if column = arrow then '┬' else '─', '─')
    else (if column = arrow then '│' else ' ', ' ')
  have hin : ∀ k, pre.length ≤ k → k < pre.length + covered.length →
      IsMark (mark k).1 ∧ IsMark (mark k).2 := by
    intro k hle hlt
    simp only [mark, if_pos (And.intro hle hlt)]
    refine ⟨?_, .inl rfl⟩
    split
    · exact .inr rfl
    · exact .inl rfl
  have hout : ∀ k, k < pre.length ∨ pre.length + covered.length ≤ k →
      ¬ IsMark (mark k).1 ∧ ¬ IsMark (mark k).2 := by
    intro k hk
    simp only [mark]
    rw [if_neg (by omega), if_neg (by omega)]
    decide
  obtain ⟨blanks, hmarked⟩ :=
    exists_marked_rowFrom (SourceLine.narrow_trimmed hn post) 2 hin hout
  have hspaces : ∀ c ∈ List.replicate blanks ' ', Text.isBlank c = true := by
    intro c hc
    rw [List.eq_of_mem_replicate hc]
    decide
  have hrow := SourceLine.rdropWhile_append_of_forall hspaces (a := SourceLine.shownFrom pre.length
    ((((pre ++ covered ++ post).rdropWhile Text.isBlank).drop pre.length).take covered.length))
  rw [← hmarked] at hrow
  refine Eq.trans hrow ?_
  conv_rhs => rw [hcovered, SourceLine.shownFrom_append,
    SourceLine.rdropWhile_append_of_forall (SourceLine.isBlank_of_mem_shownFrom hblank _)]

theorem toList_report {location : Location} (hd : d.location = some location) :
    d.report.toList = unlines (("Error: " ++ d.problem.message).toList ::
      sourceLines d.file.toList d.problem.message.toList location) := by
  rw [report, hd]
  exact String.toList_ofList

theorem singleLines_eq {margin message pre post : List Char} {width index start : Nat} :
    singleLines margin width index ⟨start, pre ++ covered ++ post⟩ (start + pre.length)
        (start + pre.length + covered.length) message =
      let rows := labelRows ⟨start, pre ++ covered ++ post⟩ (start + pre.length)
        (start + pre.length + covered.length)
      [numberMargin width index ++
          SourceLine.shownFrom 0 ((pre ++ covered ++ post).rdropWhile Text.isBlank),
        margin ++ "│ ".toList ++ rows.1, margin ++ "│ ".toList ++ rows.2 ++ ' ' :: message] := by
  have hstop : ¬ SourceLine.stop ⟨start, pre ++ covered ++ post⟩ <
      start + pre.length + covered.length := by
    simp only [SourceLine.stop, List.length_append]
    omega
  rw [singleLines, if_neg hstop]
  rfl

theorem exists_embracedLines_eq (margin message : List Char) (width s e : Nat)
    {first last : SourceLine} {stop : Nat} (h : stop - 1 < last.stop) :
    ∃ gap foot, embracedLines margin width (s, first) (e, last) stop message =
      (numberMargin width s ++ "╭─▶ ".toList ++ first.shownText) ::
        (gap ++ (numberMargin width e ++ "├─▶ ".toList ++ last.shownText) :: foot) := by
  unfold embracedLines
  simp only [h, decide_true, if_true]
  exact ⟨_, _, rfl⟩

/-- The lines of a report whose span begins and ends in these lines. -/
theorem sourceLines_eq (file message : List Char) (line : Nat) {first last : SourceLine}
    {s e : Nat} (hs : source.toList = before ++ covered ++ after) (hc : covered ≠ [])
    (hfirst : lineIndex (SourceLine.all source.toList) before.length = s)
    (hlast : lineIndex (SourceLine.all source.toList) ((before ++ covered).length - 1) = e)
    (hs' : (SourceLine.all source.toList)[s]? = some first)
    (he' : (SourceLine.all source.toList)[e]? = some last) :
    let width := (Text.numeral (e + 1)).length
    let margin := List.replicate (width + 2) ' '
    sourceLines file message ⟨line, ⟨before.length, (before ++ covered).length⟩, source⟩ =
      heading width file (s + 1) (before.length - first.start + 1) :: (margin ++ "│".toList) ::
        (if s = e then
          singleLines margin width s first before.length (before ++ covered).length message
        else embracedLines margin width (s, first) (e, last) (before ++ covered).length message) ++
        [List.replicate (width + 2) '─' ++ "╯".toList] := by
  have hpos := List.length_pos_iff.mpr hc
  have hlength : source.toList.length = before.length + covered.length + after.length := by
    rw [hs, List.length_append, List.length_append]
  have hfinal : max ((before ++ covered).length - 1) before.length =
      (before ++ covered).length - 1 := by
    rw [List.length_append]
    omega
  intro width margin
  unfold sourceLines
  simp only [hfinal]
  rw [if_neg (by rw [hlength, List.length_append]; omega), hfirst, hlast, hs', he']
  rfl

section Places

variable {full more between : List (List Char)} {pre post first last : List Char}

theorem shows_on_line (hd : d.location = some ⟨line, ⟨(full.flatten ++ pre).length,
      (full.flatten ++ pre ++ covered).length⟩, source⟩)
    (hs : source.toList = full.flatten ++ pre ++ covered ++ after) (hc : covered ≠ [])
    (hsplit : SourceLine.split source.toList = full ++ (pre ++ covered ++ post) :: more)
    (hn : SourceLine.Narrow (pre ++ covered)) :
    d.Shows source.toList (full.length + 1) pre covered := by
  have hpos := List.length_pos_iff.mpr hc
  have hstart : lineIndex (SourceLine.all source.toList) (full.flatten ++ pre).length =
      full.length := SourceLine.lineIndex_of_split hsplit (by simp) (by simp; omega)
  have hstop : lineIndex (SourceLine.all source.toList)
      ((full.flatten ++ pre ++ covered).length - 1) = full.length :=
    SourceLine.lineIndex_of_split hsplit (by simp; omega) (by simp; omega)
  have hget := SourceLine.getElem?_of_split hsplit
  have hlines := sourceLines_eq d.file.toList d.problem.message.toList line hs hc hstart hstop
    hget hget
  have hreport := toList_report hd
  rw [hlines, if_pos rfl, @List.length_append _ (full.flatten ++ pre), List.length_append,
    singleLines_eq, Nat.add_sub_cancel_left] at hreport
  exact .one hsplit rfl rfl (marked_labelRows _ hc hn) hreport

theorem shows_on_lines (hd : d.location = some ⟨line, ⟨(full.flatten ++ pre).length,
      (full.flatten ++ pre ++ (first ++ between.flatten ++ last)).length⟩, source⟩)
    (hs : source.toList = full.flatten ++ pre ++ (first ++ between.flatten ++ last) ++ after)
    (hfirst : first ≠ []) (hlast : last ≠ [])
    (hsplit : SourceLine.split source.toList =
      full ++ (pre ++ first) :: (between ++ (last ++ post) :: more)) :
    d.Shows source.toList (full.length + 1) pre (first ++ between.flatten ++ last) := by
  have hfirstPos := List.length_pos_iff.mpr hfirst
  have hlastPos := List.length_pos_iff.mpr hlast
  -- the last line is behind the full lines, the first one and those between
  have hbehind : SourceLine.split source.toList =
      (full ++ (pre ++ first) :: between) ++ (last ++ post) :: more := by
    rw [hsplit]
    simp
  have hends : (full.flatten ++ pre ++ (first ++ between.flatten ++ last)).length =
      (full ++ (pre ++ first) :: between).flatten.length + last.length := by
    simp only [List.flatten_append, List.flatten_cons, List.length_append]
    omega
  have hcount : (full ++ (pre ++ first) :: between).length =
      full.length + between.length + 1 := by
    simp only [List.length_append, List.length_cons]
    omega
  have hstart : lineIndex (SourceLine.all source.toList) (full.flatten ++ pre).length =
      full.length := SourceLine.lineIndex_of_split hsplit (by simp) (by simp; omega)
  have hstop : lineIndex (SourceLine.all source.toList)
      ((full.flatten ++ pre ++ (first ++ between.flatten ++ last)).length - 1) =
        full.length + between.length + 1 := by
    rw [← hcount, hends]
    exact SourceLine.lineIndex_of_split hbehind (by omega)
      (by simp only [List.length_append]; omega)
  have hget := SourceLine.getElem?_of_split hsplit
  have hget' := SourceLine.getElem?_of_split hbehind
  rw [hcount] at hget'
  have hlines := sourceLines_eq d.file.toList d.problem.message.toList line hs (by simp [hfirst])
    hstart hstop hget hget'
  have hreport := toList_report hd
  rw [hlines, if_neg (by omega), List.length_append, Nat.add_sub_cancel_left] at hreport
  have hinside : (full.flatten ++ pre ++ (first ++ between.flatten ++ last)).length - 1 <
      SourceLine.stop ⟨(full ++ (pre ++ first) :: between).flatten.length, last ++ post⟩ := by
    rw [hends]
    simp only [SourceLine.stop, List.length_append]
    omega
  let width := (Text.numeral (full.length + between.length + 1 + 1)).length
  obtain ⟨gap, foot, hembraced⟩ := @exists_embracedLines_eq (List.replicate (width + 2) ' ')
    d.problem.message.toList width full.length (full.length + between.length + 1)
    ⟨full.flatten.length, pre ++ first⟩ _ _ hinside
  rw [hembraced] at hreport
  refine @Shows.several d source.toList _ pre _ full between more first last post gap
    (foot ++ [List.replicate (width + 2) '─' ++ "╯".toList]) width hsplit rfl rfl hfirst hlast ?_
  rw [hreport, List.cons_append, List.cons_append, List.cons_append, List.append_assoc gap,
    List.cons_append]
  rfl

end Places

/-- The report of a span shows the characters that the span counts, if those on their first line
take one byte each. -/
theorem exists_shows (hd : d.location =
      some ⟨line, ⟨before.length, (before ++ covered).length⟩, source⟩)
    (hs : source.toList = before ++ covered ++ after) (hc : covered ≠ []) :
    ∃ full more pre behind, SourceLine.split source.toList = full ++ (pre ++ behind) :: more ∧
      behind ≠ [] ∧ before = full.flatten ++ pre ∧ (SourceLine.Narrow (pre ++ covered) →
        d.Shows source.toList (full.length + 1) pre covered) := by
  have hflatten := SourceLine.flatten_split source.toList
  rcases SourceLine.holds_of_flatten (hflatten.trans hs) hc with
    ⟨hsplit, rfl⟩ | ⟨hsplit, rfl, rfl, hfirst, hlast⟩
  · rename_i full more pre post
    exact ⟨full, more, pre, covered ++ post, by rw [hsplit, List.append_assoc], by simp [hc], rfl,
      shows_on_line hd hs hc hsplit⟩
  · rename_i full between more pre first last post
    exact ⟨full, _, pre, first, hsplit, hfirst, rfl,
      fun _ => shows_on_lines hd hs hfirst hlast hsplit⟩

end Report

theorem Shows.heading_isInfix {d : Diagnostic} {source : List Char} {line : Nat}
    {pre covered : List Char} (h : d.Shows source line pre covered) :
    d.file.toList ++ (":" ++ Text.numeral line ++ ":" ++ Text.numeral (pre.length + 1)).toList ++
      "]".toList <:+: d.report.toList := by
  have hlines : ∃ width first more, d.report.toList =
      unlines (first :: heading width d.file.toList line (pre.length + 1) :: more) := by
    cases h with
    | one _ _ _ _ hreport => exact ⟨_, _, _, hreport⟩
    | several _ _ _ _ _ hreport => exact ⟨_, _, _, hreport⟩
  obtain ⟨width, first, more, hreport⟩ := hlines
  refine ⟨first ++ ['\n'] ++ (List.replicate (width + 2) ' ' ++ "╭─[".toList),
    '\n' :: unlines more, ?_⟩
  rw [hreport]
  simp only [unlines, heading, List.flatMap_cons, List.append_assoc, List.cons_append,
    List.nil_append]

end Diagnostic

/-- What a report shows of a diagnostic at a part of its source. The ends of the span count bytes,
and the report shows the characters that they would be if they counted characters. If all
characters up to the end of the part take one byte, and the lines before it end in line feeds, then
these are the characters of the part itself, on the line of the diagnostic, and the column is one
more than the characters of this line before them. -/
theorem report_shows_characters (d : Diagnostic) (line : Nat) (source : String)
    (before covered after : List Char)
    (hd : d.location = some ⟨line, ⟨Text.size before, Text.size (before ++ covered)⟩, source⟩)
    (hs : source.toList = before ++ covered ++ after) (hc : covered ≠ [])
    (hline : line = 1 + (Text.bytes before).count 10) :
    (∀ b c a, source.toList = b ++ c ++ a → c ≠ [] → b.length = Text.size before →
      (b ++ c).length = Text.size (before ++ covered) →
      ∃ full more pre behind, SourceLine.split source.toList = full ++ (pre ++ behind) :: more ∧
        behind ≠ [] ∧ b = full.flatten ++ pre ∧ (SourceLine.Narrow (pre ++ c) →
          d.Shows source.toList (full.length + 1) pre c)) ∧
    (SourceLine.Narrow (before ++ covered) → SourceLine.PlainEnds before (covered ++ after) →
      d.Shows source.toList line (before.rtakeWhile (· != '\n')) covered ∧
        d.text = d.file ++ ":" ++ Text.numeral line ++ ": " ++ d.problem.message) := by
  refine ⟨fun b c a h hne hstart hstop => ?_, fun hn hp => ⟨?_, by rw [Diagnostic.text, hd]⟩⟩
  · rw [← hstart, ← hstop] at hd
    exact Diagnostic.exists_shows hd h hne
  · have hbefore : SourceLine.Narrow before := fun c hm => hn c (List.mem_append_left _ hm)
    rw [hn.size_eq, hbefore.size_eq] at hd
    obtain ⟨full, more, pre, behind, hsplit, hbehind, rfl, hshows⟩ :=
      Diagnostic.exists_shows hd hs hc
    rw [hs, List.append_assoc] at hsplit
    obtain ⟨hcount, hfeed, hends⟩ :=
      SourceLine.lineFeeds_of_plainEnds hsplit hbehind (by simp [hc]) hp
    have hlines : line = full.length + 1 := by
      rw [hline, ← hcount, Nat.add_comm]
      rfl
    rw [SourceLine.rtakeWhile_of_ends hends hfeed, hlines]
    refine hshows fun c hm => hn c ?_
    rcases List.mem_append.mp hm with hm | hm
    · exact List.mem_append_left _ (List.mem_append_right _ hm)
    · exact List.mem_append_right _ hm

/-- A terminator that ends nothing, on the second line. -/
theorem report_shows_characters_second_line :
    ∃ d ∈ (Template.parse {} "t.tmpl" none "a\n \x7b\x7bENDIF\x7d\x7d b" 0).diagnostics,
      d.Shows "a\n \x7b\x7bENDIF\x7d\x7d b".toList 2 [' '] "\x7b\x7bENDIF\x7d\x7d".toList := by
  have hmem : (⟨.unexpected "ENDIF", "t.tmpl",
      some ⟨2, ⟨3, 12⟩, "a\n \x7b\x7bENDIF\x7d\x7d b"⟩⟩ : Diagnostic) ∈
      (Template.parse {} "t.tmpl" none "a\n \x7b\x7bENDIF\x7d\x7d b" 0).diagnostics := by
    decide +kernel
  refine ⟨_, hmem, ?_⟩
  have hall : ("a\n ".toList ++ "\x7b\x7bENDIF\x7d\x7d".toList).all (fun c =>
      c.utf8Size == 1 && (!SourceLine.isLineEnd c || c == '\n')) = true := by
    decide +kernel
  simp only [List.all_eq_true, Bool.and_eq_true, beq_iff_eq] at hall
  have hnarrow : SourceLine.Narrow ("a\n ".toList ++ "\x7b\x7bENDIF\x7d\x7d".toList) :=
    fun c hc => (hall c hc).1
  have hplain : SourceLine.PlainEnds "a\n ".toList
      ("\x7b\x7bENDIF\x7d\x7d".toList ++ " b".toList) := by
    refine SourceLine.plainEnds_of_feeds (fun c hc hend => ?_) _
    simpa [hend] using (hall c (List.mem_append_left _ hc)).2
  exact ((report_shows_characters _ 2 "a\n \x7b\x7bENDIF\x7d\x7d b" "a\n ".toList
    "\x7b\x7bENDIF\x7d\x7d".toList " b".toList rfl (by decide +kernel) (by decide +kernel)
    (by decide +kernel)).2 hnarrow hplain).1

/-- A letter of two bytes before a tag moves its report on by one column. -/
theorem wide_letter_misplaces_report :
    ¬ ∀ (text : String), ∀ d ∈ (Template.parse {} "t.tmpl" none text 0).diagnostics,
      ∀ line before covered after,
        d.location = some ⟨line, ⟨Text.size before, Text.size (before ++ covered)⟩, text⟩ →
        text.toList = before ++ covered ++ after → covered ≠ [] →
        line = 1 + (Text.bytes before).count 10 →
        d.Shows text.toList line (before.rtakeWhile (· != '\n')) covered := by
  intro hall
  have hmem : (⟨.unexpected "ENDIF", "t.tmpl",
      some ⟨1, ⟨3, 12⟩, "é \x7b\x7bENDIF\x7d\x7d b"⟩⟩ : Diagnostic) ∈
      (Template.parse {} "t.tmpl" none "é \x7b\x7bENDIF\x7d\x7d b" 0).diagnostics := by
    decide +kernel
  have hshows := hall _ _ hmem 1 "é ".toList "\x7b\x7bENDIF\x7d\x7d".toList " b".toList rfl
    (by decide +kernel) (by decide +kernel) (by decide +kernel)
  have hcolumn : ("é ".toList.rtakeWhile (· != '\n')).length + 1 = 3 := by decide +kernel
  -- the column would be the third one, and there is no 3 in the report
  have hheading := hshows.heading_isInfix
  rw [hcolumn] at hheading
  have hthree : '3' ∈ (":" ++ Text.numeral 1 ++ ":" ++ Text.numeral 3).toList := by decide +kernel
  have hmem3 := hheading.subset (List.mem_append_left _ (List.mem_append_right _ hthree))
  rw [Diagnostic.toList_report rfl] at hmem3
  revert hmem3
  decide +kernel

end Stencil
