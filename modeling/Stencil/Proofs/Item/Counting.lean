import Stencil.Item
import Stencil.Proofs.Text.Lines

/-! Scanning while lines are counted.
A tag and an endless comment ask for the line that they are on, and what has been counted so far is
handed on. The main statements say that this makes no difference: what is read is what would be
read if every line were counted from the beginning, so that each is the line of its offset. -/
namespace Stencil

variable {tags : TagSet} {bytes : Bytes} {lines : LineCount} {source : List Char}

/-- Reads a tag whose line is counted from the beginning. -/
def Tag.read (tags : TagSet) (source text : List Char) (offset : Nat) : TagReading :=
  (readCounting tags (Text.bytes source) {} text offset).1

theorem Tag.read_eq (tags : TagSet) (source text : List Char) (offset : Nat) :
    read tags source text offset =
      match open? tags text with
      | none => .none
      | some (wrapped, afterOpening) =>
        match tags.matchKeyword? afterOpening with
        | none => .none
        | some found => readFound tags (Text.lineAt source offset) wrapped found text offset := by
  unfold read readCounting
  cases open? tags text with
  | none => rfl
  | some opened =>
    obtain ⟨wrapped, afterOpening⟩ := opened
    dsimp only
    cases tags.matchKeyword? afterOpening with
    | none => rfl
    | some found =>
      dsimp only
      rw [(LineCount.isTrue_fresh _).line_upTo]

theorem Tag.readCounting_eq (h : lines.IsTrue (Text.bytes source)) (text : List Char)
    (offset : Nat) :
    ∃ lines', readCounting tags (Text.bytes source) lines text offset =
      (read tags source text offset, lines') ∧ lines'.IsTrue (Text.bytes source) := by
  rw [read_eq]
  unfold readCounting
  cases open? tags text with
  | none => exact ⟨lines, rfl, h⟩
  | some opened =>
    obtain ⟨wrapped, afterOpening⟩ := opened
    dsimp only
    cases tags.matchKeyword? afterOpening with
    | none => exact ⟨lines, rfl, h⟩
    | some found =>
      dsimp only
      rw [h.line_upTo]
      exact ⟨_, rfl, h.upTo offset⟩

def CommentReading.read (tags : TagSet) (source text : List Char) (offset : Nat) :
    CommentReading := (readCounting tags (Text.bytes source) {} text offset).1

theorem CommentReading.read_eq (tags : TagSet) (source text : List Char) (offset : Nat) :
    read tags source text offset =
      match Text.after? tags.commentOpening.toList text with
      | Option.none => .none
      | some body =>
        let bodyStart := offset + Text.size tags.commentOpening.toList
        match Text.cut? tags.commentClosing.toList body with
        | some (skipped, rest) =>
          .closed (bodyStart + Text.size skipped + Text.size tags.commentClosing.toList) rest
        | Option.none =>
          .endless ⟨.unterminatedComment tags.commentOpening tags.commentClosing,
            Text.lineAt source offset, ⟨offset, bodyStart⟩⟩ := by
  unfold read readCounting
  cases Text.after? tags.commentOpening.toList text with
  | none => rfl
  | some body =>
    dsimp only
    cases Text.cut? tags.commentClosing.toList body with
    | some p => rfl
    | none =>
      dsimp only
      rw [(LineCount.isTrue_fresh _).line_upTo]

theorem CommentReading.readCounting_eq (h : lines.IsTrue (Text.bytes source)) (text : List Char)
    (offset : Nat) :
    ∃ lines', readCounting tags (Text.bytes source) lines text offset =
      (read tags source text offset, lines') ∧ lines'.IsTrue (Text.bytes source) := by
  rw [read_eq]
  unfold readCounting
  cases Text.after? tags.commentOpening.toList text with
  | none => exact ⟨lines, rfl, h⟩
  | some body =>
    dsimp only
    cases Text.cut? tags.commentClosing.toList body with
    | some p => exact ⟨lines, rfl, h⟩
    | none =>
      dsimp only
      rw [h.line_upTo]
      exact ⟨_, rfl, h.upTo offset⟩

namespace Item

def scanFrom (tags : TagSet) (source text : List Char) (offset runStart : Nat)
    (comments : Bool) : List Item :=
  scanCounting tags (Text.bytes source) {} text offset runStart comments

def scanHere (tags : TagSet) (source text : List Char) (offset runStart : Nat)
    (comments : Bool) : List Item :=
  scanCountingHere tags (Text.bytes source) {} text offset runStart comments

section Counted

variable (tags source)

mutual

/-- What has been counted before makes no difference, if it is true. -/
theorem scanCounting_congr {lines lines' : LineCount} (h : lines.IsTrue (Text.bytes source))
    (h' : lines'.IsTrue (Text.bytes source)) (text : List Char) (offset runStart : Nat)
    (comments : Bool) :
    scanCounting tags (Text.bytes source) lines text offset runStart comments =
      scanCounting tags (Text.bytes source) lines' text offset runStart comments := by
  unfold scanCounting
  by_cases ht : text = []
  · rw [if_pos ht, if_pos ht]
  · rw [if_neg ht, if_neg ht]
    cases comments with
    | false => exact scanCountingHere_congr h h' text offset runStart false
    | true =>
      obtain ⟨next, hread, hnext⟩ := CommentReading.readCounting_eq h text offset
      obtain ⟨next', hread', hnext'⟩ := CommentReading.readCounting_eq h' text offset
      rw [if_pos rfl, if_pos rfl, hread, hread']
      cases CommentReading.read tags source text offset with
      | none => exact scanCountingHere_congr hnext hnext' text offset runStart true
      | endless f =>
        exact congrArg (Item.finding f :: ·)
          (scanCountingHere_congr hnext hnext' text offset runStart false)
      | closed stop rest =>
        dsimp only
        by_cases hlt : rest.length < text.length
        · rw [if_pos hlt, if_pos hlt, scanCounting_congr hnext hnext' rest stop stop true]
        · rw [if_neg hlt, if_neg hlt]
termination_by 2 * text.length + 1

theorem scanCountingHere_congr {lines lines' : LineCount} (h : lines.IsTrue (Text.bytes source))
    (h' : lines'.IsTrue (Text.bytes source)) (text : List Char) (offset runStart : Nat)
    (comments : Bool) :
    scanCountingHere tags (Text.bytes source) lines text offset runStart comments =
      scanCountingHere tags (Text.bytes source) lines' text offset runStart comments := by
  match text with
  | [] =>
    unfold scanCountingHere
    rfl
  | c :: left =>
    unfold scanCountingHere
    obtain ⟨next, hread, hnext⟩ := Tag.readCounting_eq h (c :: left) offset
    obtain ⟨next', hread', hnext'⟩ := Tag.readCounting_eq h' (c :: left) offset
    have hleft := scanCounting_congr hnext hnext' left (offset + c.utf8Size) runStart comments
    rw [hread, hread']
    cases Tag.read tags source (c :: left) offset with
    | none => exact hleft
    | faulty f => exact congrArg (Item.finding f :: ·) hleft
    | tag t rest =>
      dsimp only
      by_cases hle : rest.length ≤ left.length
      · rw [if_pos hle, if_pos hle,
          scanCounting_congr hnext hnext' rest t.span.stop t.span.stop comments]
      · rw [if_neg hle, if_neg hle]
termination_by 2 * text.length + 0

end

variable {tags source}

theorem scanCounting_eq (h : lines.IsTrue (Text.bytes source)) (text : List Char)
    (offset runStart : Nat) (comments : Bool) :
    scanCounting tags (Text.bytes source) lines text offset runStart comments =
      scanFrom tags source text offset runStart comments :=
  scanCounting_congr tags source h (LineCount.isTrue_fresh _) text offset runStart comments

theorem scanCountingHere_eq (h : lines.IsTrue (Text.bytes source)) (text : List Char)
    (offset runStart : Nat) (comments : Bool) :
    scanCountingHere tags (Text.bytes source) lines text offset runStart comments =
      scanHere tags source text offset runStart comments :=
  scanCountingHere_congr tags source h (LineCount.isTrue_fresh _) text offset runStart comments

variable (tags source)

theorem scanFrom_eq (text : List Char) (offset runStart : Nat) (comments : Bool) :
    scanFrom tags source text offset runStart comments =
      if text = [] then flush runStart offset []
      else
        match if comments then CommentReading.read tags source text offset else .none with
        | .closed stop rest =>
          if rest.length < text.length then
            flush runStart offset (scanFrom tags source rest stop stop comments)
          else flush runStart offset (stuckAt offset)
        | .endless f => .finding f :: scanHere tags source text offset runStart false
        | .none => scanHere tags source text offset runStart comments := by
  rw [scanFrom, scanCounting]
  by_cases ht : text = []
  · rw [if_pos ht, if_pos ht]
  · rw [if_neg ht, if_neg ht]
    cases comments with
    | false => rfl
    | true =>
      obtain ⟨lines, hread, hlines⟩ :=
        CommentReading.readCounting_eq (LineCount.isTrue_fresh _) text offset
      rw [if_pos rfl, if_pos rfl, hread]
      cases CommentReading.read tags source text offset with
      | none => exact scanCountingHere_eq hlines text offset runStart true
      | endless f =>
        exact congrArg (Item.finding f :: ·)
          (scanCountingHere_eq hlines text offset runStart false)
      | closed stop rest =>
        dsimp only
        rw [scanCounting_eq hlines]

theorem scanHere_nil (offset runStart : Nat) (comments : Bool) :
    scanHere tags source [] offset runStart comments = flush runStart offset [] := by
  rw [scanHere, scanCountingHere]

theorem scanHere_cons (c : Char) (left : List Char) (offset runStart : Nat) (comments : Bool) :
    scanHere tags source (c :: left) offset runStart comments =
      match Tag.read tags source (c :: left) offset with
      | .tag t rest =>
        if rest.length ≤ left.length then
          flush runStart offset
            (.tag t :: scanFrom tags source rest t.span.stop t.span.stop comments)
        else flush runStart offset (.tag t :: stuckAt offset)
      | .faulty f =>
        .finding f :: scanFrom tags source left (offset + c.utf8Size) runStart comments
      | .none => scanFrom tags source left (offset + c.utf8Size) runStart comments := by
  obtain ⟨lines, hread, hlines⟩ :=
    Tag.readCounting_eq (LineCount.isTrue_fresh _) (c :: left) offset
  rw [scanHere, scanCountingHere, hread]
  cases Tag.read tags source (c :: left) offset with
  | none => exact scanCounting_eq hlines ..
  | faulty f => exact congrArg (Item.finding f :: ·) (scanCounting_eq hlines ..)
  | tag t rest =>
    dsimp only
    rw [scanCounting_eq hlines]

theorem scan_eq (tags : TagSet) (source : String) :
    scan tags source = scanFrom tags source.toList source.toList 0 0 true := rfl

end Counted

end Item
end Stencil
