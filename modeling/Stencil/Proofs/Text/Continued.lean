import Stencil.Text.Continuation

/-! Lines that go on, line by line.
A text is a sequence of ended lines and what follows the last line end, and there is one way to see
it so. The backslashes at the end of a line say what the line is written as, each line by itself.
The main statement says that the pieces in which a text is written are its lines so written. -/
namespace Stencil
namespace Text

inductive LineEnd
  | feed
  | returnFeed
  deriving DecidableEq, Repr

namespace LineEnd

def text : LineEnd → List Char
  | feed => ['\n']
  | returnFeed => ['\r', '\n']

end LineEnd

structure Line where
  content : List Char
  ending : LineEnd
  deriving DecidableEq, Repr

namespace Line

def text (l : Line) : List Char := l.content ++ l.ending.text

/-- The line ends where its line end stands, and not before. -/
structure Sound (l : Line) : Prop where
  content : '\n' ∉ l.content
  ending : l.ending = .feed → ¬ ['\r'] <:+ l.content

theorem Sound.of_not_mem {content : List Char} {ending : LineEnd} (hfeed : '\n' ∉ content)
    (hreturn : '\r' ∉ content) : Sound ⟨content, ending⟩ :=
  ⟨hfeed, fun _ hs => hreturn (hs.subset List.mem_cons_self)⟩

/-- What a line is written as. One backslash at its end joins it to what follows; of several, one
is left out. -/
def written (l : Line) : List Char :=
  if ['\\', '\\'] <:+ l.content then l.content.dropLast ++ l.ending.text
  else if ['\\'] <:+ l.content then l.content.dropLast
  else l.text

def push (c : Char) (l : Line) : Line := { l with content := c :: l.content }

theorem written_push {c : Char} {l : Line}
    (h : c = '\\' → l.content ≠ [] ∧ l.content ≠ ['\\']) :
    (l.push c).written = c :: l.written := by
  have hone : ['\\'] <:+ c :: l.content ↔ ['\\'] <:+ l.content := by
    rw [List.suffix_cons_iff]
    refine or_iff_right fun he => ?_
    injection he with hc hnil
    exact (h hc.symm).1 hnil.symm
  have htwo : ['\\', '\\'] <:+ c :: l.content ↔ ['\\', '\\'] <:+ l.content := by
    rw [List.suffix_cons_iff]
    refine or_iff_right fun he => ?_
    injection he with hc hslash
    exact (h hc.symm).2 hslash.symm
  have hdrop {mark : Char} {marks : List Char} (hm : mark :: marks <:+ l.content) :
      (c :: l.content).dropLast = c :: l.content.dropLast :=
    List.dropLast_cons_of_ne_nil (List.ne_nil_of_mem (hm.subset List.mem_cons_self))
  rw [written, push]
  simp only [hone, htwo]
  by_cases h2 : ['\\', '\\'] <:+ l.content
  · rw [if_pos h2, hdrop h2, written, if_pos h2, List.cons_append]
  by_cases h1 : ['\\'] <:+ l.content
  · rw [if_neg h2, if_pos h1, hdrop h1, written, if_neg h2, if_pos h1]
  · rw [if_neg h2, if_neg h1, written, if_neg h2, if_neg h1]
    rfl

end Line

structure Lines where
  ended : List Line
  last : List Char
  deriving DecidableEq, Repr

namespace Lines

def text (ls : Lines) : List Char := ls.ended.flatMap Line.text ++ ls.last

def written (ls : Lines) : List Char := ls.ended.flatMap Line.written ++ ls.last

def after (l : Line) (ls : Lines) : Lines := { ls with ended := l :: ls.ended }

def push (c : Char) : Lines → Lines
  | ⟨[], last⟩ => ⟨[], c :: last⟩
  | ⟨l :: ended, last⟩ => ⟨l.push c :: ended, last⟩

def read : List Char → Lines
  | [] => ⟨[], []⟩
  | '\n' :: r => (read r).after ⟨[], .feed⟩
  | '\r' :: '\n' :: r => (read r).after ⟨[], .returnFeed⟩
  | c :: r => (read r).push c

/-- The lines are those of a text, each ended by the first line end in it. -/
structure Of (text : List Char) (ls : Lines) : Prop where
  text : ls.text = text
  ended : ∀ l ∈ ls.ended, l.Sound
  last : '\n' ∉ ls.last

@[simp] theorem text_after (l : Line) (ls : Lines) : (ls.after l).text = l.text ++ ls.text := by
  simp [text, after]

@[simp] theorem written_after (l : Line) (ls : Lines) :
    (ls.after l).written = l.written ++ ls.written := by
  simp [written, after]

@[simp] theorem text_push (c : Char) (ls : Lines) : (ls.push c).text = c :: ls.text := by
  obtain ⟨_ | ⟨l, ended⟩, last⟩ := ls <;> rfl

theorem written_push {c : Char} {ls : Lines}
    (h : ∀ l ∈ ls.ended.head?, c = '\\' → l.content ≠ [] ∧ l.content ≠ ['\\']) :
    (ls.push c).written = c :: ls.written := by
  obtain ⟨_ | ⟨l, ended⟩, last⟩ := ls
  · rfl
  · have hl := Line.written_push (h l rfl)
    simp [written, push, hl]

theorem Of.after {text : List Char} {ls : Lines} {l : Line} (h : ls.Of text) (hl : l.Sound) :
    (ls.after l).Of (l.text ++ text) where
  text := by rw [text_after, h.text]
  ended := List.forall_mem_cons.mpr ⟨hl, h.ended⟩
  last := h.last

theorem Of.push {c : Char} {text : List Char} {ls : Lines} (h : ls.Of text) (hc : c ≠ '\n')
    (hr : ∀ rest, c = '\r' → text ≠ '\n' :: rest) : (ls.push c).Of (c :: text) := by
  refine ⟨by rw [text_push, h.text], ?_, ?_⟩
  · obtain ⟨_ | ⟨l, ended⟩, last⟩ := ls
    · nofun
    have hl := h.ended l List.mem_cons_self
    refine List.forall_mem_cons.mpr ⟨⟨?_, fun hfeed => ?_⟩, fun other ho =>
      h.ended other (List.mem_cons_of_mem _ ho)⟩
    · exact List.not_mem_cons_of_ne_of_not_mem (Ne.symm hc) hl.content
    · rw [Line.push, List.suffix_cons_iff]
      rintro (he | hs)
      · injection he with hreturn hnil
        refine hr (ended.flatMap Line.text ++ last) hreturn.symm ?_
        rw [← h.text, Lines.text, List.flatMap_cons, Line.text, ← hnil]
        have : l.ending = .feed := hfeed
        rw [this]
        rfl
      · exact hl.ending hfeed hs
  · obtain ⟨_ | ⟨l, ended⟩, last⟩ := ls
    · exact List.not_mem_cons_of_ne_of_not_mem (Ne.symm hc) h.last
    · exact h.last

theorem of_read (text : List Char) : (read text).Of text := by
  have hempty {ending : LineEnd} : Line.Sound ⟨[], ending⟩ :=
    .of_not_mem List.not_mem_nil List.not_mem_nil
  fun_induction read text with
  | case1 => exact ⟨rfl, fun l hl => (List.not_mem_nil hl).elim, List.not_mem_nil⟩
  | case2 r ih => exact ih.after (l := ⟨[], .feed⟩) hempty
  | case3 r ih => exact ih.after (l := ⟨[], .returnFeed⟩) hempty
  | case4 c r hfeed hreturn ih =>
    exact ih.push hfeed fun left hc hr => hreturn left hc hr

/-- Before a line end, or before the end of the text, characters that end no line are read one by
one. -/
theorem read_append {content rest : List Char} (hc : '\n' ∉ content)
    (hr : ∀ left, rest = '\n' :: left → ¬ ['\r'] <:+ content) :
    read (content ++ rest) = content.foldr push (read rest) := by
  induction content with
  | nil => rfl
  | cons c content ih =>
    rw [List.mem_cons, not_or] at hc
    have hin := ih hc.2 fun left hl hs => hr left hl (hs.trans (List.suffix_cons ..))
    rw [List.cons_append, read, hin, List.foldr_cons]
    · exact fun he => hc.1 he.symm
    · rintro left rfl hl
      cases content with
      | nil => exact hr left hl List.suffix_rfl
      | cons d content =>
        injection hl with hd
        exact hc.2 (hd ▸ List.mem_cons_self)

@[simp] theorem foldr_push_after (content : List Char) (l : Line) (ls : Lines) :
    content.foldr push (ls.after l) = ls.after { l with content := content ++ l.content } := by
  induction content with
  | nil => rfl
  | cons c content ih =>
    rw [List.foldr_cons, ih]
    rfl

theorem foldr_push_nil (content : List Char) :
    content.foldr push ⟨[], []⟩ = ⟨[], content⟩ := by
  induction content with
  | nil => rfl
  | cons c content ih =>
    rw [List.foldr_cons, ih]
    rfl

theorem read_ending (ending : LineEnd) (rest : List Char) :
    read (ending.text ++ rest) = (read rest).after ⟨[], ending⟩ := by
  cases ending <;> rfl

theorem read_line {l : Line} (hl : l.Sound) (rest : List Char) :
    read (l.text ++ rest) = (read rest).after l := by
  have hend : ∀ left, l.ending.text ++ rest = '\n' :: left → ¬ ['\r'] <:+ l.content := by
    intro left hleft
    cases he : l.ending with
    | feed => exact hl.ending he
    | returnFeed =>
      rw [he] at hleft
      injection hleft with hc
      exact absurd hc (by decide)
  rw [Line.text, List.append_assoc, read_append hl.content hend, read_ending, foldr_push_after,
    List.append_nil]

theorem Of.eq_read {text : List Char} {ls : Lines} (h : ls.Of text) : ls = read text := by
  obtain ⟨ended, last⟩ := ls
  obtain ⟨rfl, hsound, hlast⟩ := h
  induction ended with
  | nil =>
    have hread : read (last ++ []) = last.foldr Lines.push (read []) :=
      read_append hlast fun left h => (List.cons_ne_nil _ _ h.symm).elim
    rw [List.append_nil, read, foldr_push_nil] at hread
    exact hread.symm
  | cons l ended ih =>
    obtain ⟨hl, hsound⟩ := List.forall_mem_cons.mp hsound
    have hmore := ih hsound hlast
    have htext : Lines.text ⟨l :: ended, last⟩ = l.text ++ Lines.text ⟨ended, last⟩ :=
      text_after l ⟨ended, last⟩
    rw [htext, read_line hl, ← hmore]
    rfl

end Lines

/-- What a text is written as, line by line. -/
def continued (text : List Char) : List Char := (Lines.read text).written

theorem continued_ending (ending : LineEnd) (r : List Char) :
    continued (ending.text ++ r) = ending.text ++ continued r := by
  rw [continued, Lines.read_ending, Lines.written_after]
  simp [Line.written, Line.text, continued]

theorem continued_cons {c : Char} {r : List Char}
    (hone : ∀ ending left, c = '\\' → r ≠ LineEnd.text ending ++ left)
    (htwo : ∀ ending left, c = '\\' → r ≠ '\\' :: LineEnd.text ending ++ left) :
    continued (c :: r) = c :: continued r := by
  by_cases hc : c = '\n'
  · subst hc
    exact continued_ending .feed r
  by_cases hr : ∃ left, c = '\r' ∧ r = '\n' :: left
  · obtain ⟨left, rfl, rfl⟩ := hr
    rw [show continued ('\n' :: left) = '\n' :: continued left from continued_ending .feed left]
    exact continued_ending .returnFeed left
  · have hread : Lines.read (c :: r) = (Lines.read r).push c := by
      rw [Lines.read]
      · exact hc
      · exact fun left hl hm => hr ⟨left, hl, hm⟩
    rw [continued, hread]
    refine Lines.written_push fun l hl hslash => ?_
    obtain ⟨more, hmore⟩ : ∃ more, r = l.content ++ l.ending.text ++ more := by
      obtain ⟨ended, he⟩ := List.head?_eq_some_iff.mp hl
      have htext := (Lines.of_read r).text
      rw [Lines.text, he, List.flatMap_cons, List.append_assoc] at htext
      exact ⟨_, htext.symm⟩
    constructor
    · intro hnil
      rw [hnil] at hmore
      exact hone l.ending more hslash hmore
    · intro hnil
      rw [hnil] at hmore
      exact htwo l.ending more hslash hmore

theorem continued_line {l : Line} (hl : l.Sound) (r : List Char) :
    continued (l.text ++ r) = l.written ++ continued r := by
  rw [continued, Lines.read_line hl, Lines.written_after, continued]

theorem continued_slash (ending : LineEnd) (r : List Char) :
    continued ('\\' :: ending.text ++ r) = continued r := by
  have hsound : Line.Sound ⟨['\\'], ending⟩ := .of_not_mem (by decide) (by decide)
  have hline := continued_line hsound r
  have hwritten : Line.written ⟨['\\'], ending⟩ = [] := by cases ending <;> decide
  rwa [hwritten] at hline

theorem continued_slashes (ending : LineEnd) (r : List Char) :
    continued ('\\' :: '\\' :: ending.text ++ r) = '\\' :: ending.text ++ continued r := by
  have hsound : Line.Sound ⟨['\\', '\\'], ending⟩ := .of_not_mem (by decide) (by decide)
  have hline := continued_line hsound r
  have hwritten : Line.written ⟨['\\', '\\'], ending⟩ = '\\' :: ending.text := by
    cases ending <;> decide
  rwa [hwritten] at hline

/-- The pieces in which a text is written are its lines so written. -/
theorem flatten_joinedFrom (run text : List Char) :
    (joinedFrom run text).flatten = run.reverse ++ continued text := by
  induction run, text using joinedFrom.induct with
  | case1 run => simp [joinedFrom, continued, Lines.read, Lines.written]
  | case2 run r ih =>
    rw [joinedFrom, List.flatten_cons, ih]
    exact congrArg (run.reverse ++ ·) (continued_slashes .feed r).symm
  | case3 run r ih =>
    rw [joinedFrom, List.flatten_cons, ih]
    exact congrArg (run.reverse ++ ·) (continued_slashes .returnFeed r).symm
  | case4 run r ih =>
    rw [joinedFrom, List.flatten_cons, ih]
    exact congrArg (run.reverse ++ ·) (continued_slash .feed r).symm
  | case5 run r ih =>
    rw [joinedFrom, List.flatten_cons, ih]
    exact congrArg (run.reverse ++ ·) (continued_slash .returnFeed r).symm
  | case6 run c r hdouble hdoubled hfeed hreturn ih =>
    have hcons : continued (c :: r) = c :: continued r := by
      refine continued_cons (fun ending left hc hr => ?_) fun ending left hc hr => ?_
      · cases ending with
        | feed => exact hfeed left hc hr
        | returnFeed => exact hreturn left hc hr
      · cases ending with
        | feed => exact hdouble left hc hr
        | returnFeed => exact hdoubled left hc hr
    rw [joinedFrom, ih, hcons]
    · simp
    · exact hdouble
    · exact hdoubled
    · exact hfeed
    · exact hreturn

theorem flatten_joined (text : List Char) : (joined text).flatten = continued text :=
  flatten_joinedFrom [] text

end Text
end Stencil
