import Stencil.Tag

/-! The items of a template: runs of text, tags, and findings about what is neither.
Scanning goes from left to right. A closed comment is left out, a tag becomes an item, and every
other character is text; a faulty tag is reported and its characters are text. Once a comment has
been found endless no later one can be closed, so comments are then no longer looked for.
A comment or tag that consumes nothing is found again and again, and scanning does not end. -/
namespace Stencil

inductive Item
  | text (span : Span)
  | tag (tag : Tag)
  | finding (finding : Finding)
  deriving DecidableEq, Repr

/-- What stands where a comment's opening delimiter may stand. -/
inductive CommentReading
  | closed (stop : Nat) (rest : List Char)
  | endless (finding : Finding)
  | none
  deriving DecidableEq, Repr

/-- Reads a comment at `offset` of the source with these bytes, where `text` is what is left of it.
Lines are counted on only where a comment is endless. -/
def CommentReading.readCounting (tags : TagSet) (bytes : Bytes) (lines : LineCount)
    (text : List Char) (offset : Nat) : CommentReading × LineCount :=
  match Text.after? tags.commentOpening.toList text with
  | Option.none => (.none, lines)
  | some body =>
    let bodyStart := offset + Text.size tags.commentOpening.toList
    match Text.cut? tags.commentClosing.toList body with
    | some (skipped, rest) =>
      (.closed (bodyStart + Text.size skipped + Text.size tags.commentClosing.toList) rest, lines)
    | Option.none =>
      let lines := lines.upTo bytes offset
      (.endless ⟨.unterminatedComment tags.commentOpening tags.commentClosing, lines.line,
        ⟨offset, bodyStart⟩⟩, lines)

/-- What is computed over and over at one offset, without a result. -/
def forever {α : Type} (offset : Nat) : Option α := forever offset
partial_fixpoint

theorem forever_eq_none {α : Type} (offset : Nat) : (forever offset : Option α) = none :=
  Option.eq_none_iff_forall_not_mem.mpr
    (forever.partial_correctness offset (fun _ => False) fun _ ih => ih)

namespace Item

/-- The items that follow where scanning has come back to the offset it was at. Running it does not
end; the logic, where every function has a value, counts no further items. -/
def stuckAt (offset : Nat) : List Item := (forever offset).getD []

@[simp] theorem stuckAt_eq (offset : Nat) : stuckAt offset = [] := by
  simp [stuckAt, forever_eq_none]

/-- Puts the run of text from `start` to `stop` before the items, unless it is empty. -/
def flush (start stop : Nat) (items : List Item) : List Item :=
  if start < stop then .text ⟨start, stop⟩ :: items else items

mutual

/-- The items of `text`, which is what is left of the source with these bytes at `offset`. The
current run of text began at `runStart`, and comments are looked for if `comments` holds. -/
def scanCounting (tags : TagSet) (bytes : Bytes) (lines : LineCount) (text : List Char)
    (offset runStart : Nat) (comments : Bool) : List Item :=
  if text = [] then flush runStart offset []
  else
    match if comments then CommentReading.readCounting tags bytes lines text offset
      else (.none, lines) with
    | (.closed stop rest, lines) =>
      if rest.length < text.length then
        flush runStart offset (scanCounting tags bytes lines rest stop stop comments)
      else flush runStart offset (stuckAt offset)
    | (.endless f, lines) =>
      .finding f :: scanCountingHere tags bytes lines text offset runStart false
    | (.none, lines) => scanCountingHere tags bytes lines text offset runStart comments
termination_by 2 * text.length + 1

/-- The same where no comment is closed. -/
def scanCountingHere (tags : TagSet) (bytes : Bytes) (lines : LineCount) (text : List Char)
    (offset runStart : Nat) (comments : Bool) : List Item :=
  match text with
  | [] => flush runStart offset []
  | c :: left =>
    match Tag.readCounting tags bytes lines (c :: left) offset with
    | (.tag t rest, lines) =>
      if rest.length ≤ left.length then
        flush runStart offset
          (.tag t :: scanCounting tags bytes lines rest t.span.stop t.span.stop comments)
      else flush runStart offset (.tag t :: stuckAt offset)
    | (.faulty f, lines) =>
      .finding f :: scanCounting tags bytes lines left (offset + c.utf8Size) runStart comments
    | (.none, lines) =>
      scanCounting tags bytes lines left (offset + c.utf8Size) runStart comments
termination_by 2 * text.length + 0

end

def scan (tags : TagSet) (source : String) : List Item :=
  scanCounting tags (Text.bytes source.toList) {} source.toList 0 0 true

end Item
end Stencil
