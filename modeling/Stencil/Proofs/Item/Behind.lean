import Stencil.Proofs.Item.Sealed

/-! Scanning behind another text.
What stands behind a text is moved by the bytes of that text, and its lines by the line feeds. The
main statement says that scanning goes on from an offset as it does from the beginning, but for
this. -/
namespace Stencil

def Span.behind (before : List Char) (span : Span) : Span :=
  ⟨Text.size before + span.start, Text.size before + span.stop⟩

@[simp] theorem Span.behind_nil (span : Span) : span.behind [] = span := by
  simp [behind]

def Tag.behind (before : List Char) (t : Tag) : Tag :=
  { t with span := t.span.behind before, line := Text.lineFeeds before + t.line }

def Finding.behind (before : List Char) (f : Finding) : Finding :=
  ⟨f.problem, Text.lineFeeds before + f.line, f.span.behind before⟩

def Item.behind (before : List Char) : Item → Item
  | text span => text (span.behind before)
  | tag t => tag (t.behind before)
  | finding f => finding (f.behind before)

def TagBody.behind (before : List Char) : TagBody → TagBody
  | closed tokens stop rest => closed tokens (Text.size before + stop) rest
  | slashed tokens stop rest => slashed tokens (Text.size before + stop) rest
  | stray c stop => stray c (Text.size before + stop)
  | endless => endless

def TagReading.behind (before : List Char) : TagReading → TagReading
  | tag t rest => tag (t.behind before) rest
  | faulty f => faulty (f.behind before)
  | none => none

def CommentReading.behind (before : List Char) : CommentReading → CommentReading
  | closed stop rest => closed (Text.size before + stop) rest
  | endless f => endless (f.behind before)
  | none => none

namespace TagBody

theorem behind_push (before : List Char) (token : Token) (b : TagBody) :
    (b.push token).behind before = (b.behind before).push token := by
  cases b <;> rfl

theorem read_behind (before closing : List Char) (wrapped : Bool) (text : List Char)
    (offset : Nat) :
    read closing wrapped text (Text.size before + offset) =
      (read closing wrapped text offset).behind before := by
  rw [read_eq, read_eq closing wrapped text offset]
  cases hc : Text.after? closing text with
  | some rest => simp only [behind, Nat.add_assoc]
  | none =>
    cases hs : if wrapped then none else afterSlashed? closing text with
    | some rest => simp only [behind, Nat.add_assoc]
    | none =>
      match hr : Lexeme.read? (Text.begins closing) text with
      | none => rfl
      | some (⟨none, covered⟩, _) => simp only [behind, Nat.add_assoc]
      | some (⟨some token, covered⟩, rest) =>
        have hlt : rest.length < text.length := Lexeme.length_lt_of_read? hr
        dsimp only
        rw [Nat.add_assoc, read_behind before closing wrapped rest, behind_push]
termination_by text.length

end TagBody

section Scan

variable (tags : TagSet) (before source : List Char)

theorem Tag.read_behind (text : List Char) (offset : Nat) :
    read tags (before ++ source) text (Text.size before + offset) =
      (read tags source text offset).behind before := by
  rw [read_eq, read_eq]
  cases open? tags text with
  | none => rfl
  | some opened =>
    obtain ⟨wrapped, afterOpening⟩ := opened
    dsimp only
    cases tags.matchKeyword? afterOpening with
    | none => rfl
    | some found =>
      dsimp only
      unfold readFound
      dsimp only
      rw [Text.lineAt_append, Nat.add_assoc, TagBody.read_behind]
      cases TagBody.read (if wrapped then tags.wrappedClosing else tags.closing).toList wrapped
        found.rest (offset + (Text.size text - Text.size found.rest)) with
      | closed tokens stop rest =>
        dsimp only [TagBody.behind]
        cases attributesOf tags found tokens <;> rfl
      | slashed tokens stop rest =>
        dsimp only [TagBody.behind]
        cases found.kind.isContainer with
        | true => rfl
        | false => cases attributesOf tags found tokens <;> rfl
      | stray c stop => rfl
      | endless => rfl

theorem CommentReading.read_behind (text : List Char) (offset : Nat) :
    read tags (before ++ source) text (Text.size before + offset) =
      (read tags source text offset).behind before := by
  rw [read_eq, read_eq]
  cases Text.after? tags.commentOpening.toList text with
  | none => rfl
  | some body =>
    dsimp only
    cases Text.cut? tags.commentClosing.toList body with
    | some p => simp only [behind, Nat.add_assoc]
    | none =>
      rw [Text.lineAt_append]
      simp only [behind, Finding.behind, Span.behind, Nat.add_assoc]

theorem Item.flush_behind (start stop : Nat) (items : List Item) :
    flush (Text.size before + start) (Text.size before + stop) (items.map (Item.behind before)) =
      (flush start stop items).map (Item.behind before) := by
  unfold flush
  by_cases h : start < stop
  · rw [if_pos h, if_pos (Nat.add_lt_add_left h _)]
    rfl
  · rw [if_neg h, if_neg (by omega)]

mutual

/-- What is left of a source is scanned behind another text as it is without. -/
theorem Item.scanFrom_behind (text : List Char) (offset run : Nat) (comments : Bool) :
    scanFrom tags (before ++ source) text (Text.size before + offset) (Text.size before + run)
        comments =
      (scanFrom tags source text offset run comments).map (Item.behind before) := by
  rw [scanFrom_eq, scanFrom_eq]
  by_cases ht : text = []
  · rw [if_pos ht, if_pos ht]
    exact Item.flush_behind before run offset []
  · rw [if_neg ht, if_neg ht]
    have hread : (if comments then CommentReading.read tags (before ++ source) text
          (Text.size before + offset) else .none) =
        (if comments then CommentReading.read tags source text offset else .none).behind
          before := by
      cases comments with
      | true => exact CommentReading.read_behind tags before source text offset
      | false => rfl
    rw [hread]
    cases if comments then CommentReading.read tags source text offset else .none with
    | none => exact scanHere_behind text offset run comments
    | endless f =>
      exact congrArg (Item.finding (f.behind before) :: ·) (scanHere_behind text offset run false)
    | closed stop rest =>
      dsimp only [CommentReading.behind]
      by_cases hlt : rest.length < text.length
      · rw [if_pos hlt, if_pos hlt, scanFrom_behind rest stop stop comments, Item.flush_behind]
      · rw [if_neg hlt, if_neg hlt, stuckAt_eq, stuckAt_eq]
        exact Item.flush_behind before run offset []
termination_by 2 * text.length + 1

theorem Item.scanHere_behind (text : List Char) (offset run : Nat) (comments : Bool) :
    scanHere tags (before ++ source) text (Text.size before + offset) (Text.size before + run)
        comments =
      (scanHere tags source text offset run comments).map (Item.behind before) := by
  match text with
  | [] =>
    rw [scanHere_nil, scanHere_nil]
    exact Item.flush_behind before run offset []
  | c :: left =>
    rw [scanHere_cons, scanHere_cons]
    rw [Tag.read_behind, Nat.add_assoc]
    have hleft := scanFrom_behind left (offset + c.utf8Size) run comments
    cases Tag.read tags source (c :: left) offset with
    | none => exact hleft
    | faulty f => exact congrArg (Item.finding (f.behind before) :: ·) hleft
    | tag t rest =>
      dsimp only [TagReading.behind]
      by_cases hle : rest.length ≤ left.length
      · have hrest := scanFrom_behind rest t.span.stop t.span.stop comments
        rw [if_pos hle, if_pos hle, ← Item.flush_behind, List.map_cons, ← hrest]
        rfl
      · rw [if_neg hle, if_neg hle, stuckAt_eq, stuckAt_eq]
        exact Item.flush_behind before run offset [.tag t]
termination_by 2 * text.length + 0

end

end Scan

end Stencil
