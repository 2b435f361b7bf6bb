import Stencil.Problem
import Stencil.Text.Columns

/-! Diagnostics with the source text that they point at.
The ends of a span are taken for counts of characters. A label below a single line points at the
middle of the span, which is underlined unless it is empty; a span over several lines is
embraced. -/
namespace Stencil

structure SourceLine where
  start : Nat
  text : List Char
  deriving DecidableEq, Repr

namespace SourceLine

def isLineEnd (c : Char) : Bool :=
  c == '\n' || c == '\r' || c == '\x0b' || c == '\x0c' || c == '\u0085' || c == '\u2028' ||
    c == '\u2029'

/-- Splits a text after each line end; a carriage return and a line feed end a line together. -/
def split : List Char → List (List Char)
  | [] => []
  | '\r' :: '\n' :: r => ['\r', '\n'] :: split r
  | c :: r =>
    if isLineEnd c then [c] :: split r
    else
      match split r with
      | line :: more => (c :: line) :: more
      | [] => [[c]]

def all (source : List Char) : List SourceLine :=
  ((split source).foldl (fun (acc : Nat × List SourceLine) line =>
    (acc.1 + line.length, ⟨acc.1, line⟩ :: acc.2)) (0, [])).2.reverse

def stop (l : SourceLine) : Nat := l.start + l.text.length

def trimmed (l : SourceLine) : List Char := (l.text.reverse.dropWhile Text.isBlank).reverse

/-- What is shown of a character at a column: a tab goes on to the next multiple of four. -/
def shown (column : Nat) (c : Char) : List Char :=
  if c = '\t' then List.replicate (4 - column % 4) ' '
  else if Text.isBlank c then [' ']
  else [c]

/-- How many columns a character takes that stands at a column. -/
def width (column : Nat) (c : Char) : Nat :=
  if c = '\t' then 4 - column % 4
  else if Text.isBlank c then 1
  else Text.columns c

def shownFrom : Nat → List Char → List Char
  | _, [] => []
  | column, c :: r => shown column c ++ shownFrom (column + 1) r

/-- The widths of so many columns from a column on; those behind the characters are single. -/
def widthsFrom : Nat → List Char → Nat → List Nat
  | _, _, 0 => []
  | column, [], n + 1 => 1 :: widthsFrom (column + 1) [] n
  | column, c :: r, n + 1 => width column c :: widthsFrom (column + 1) r n

def shownText (l : SourceLine) : List Char := shownFrom 0 l.trimmed

def widths (l : SourceLine) (columns : Nat) : List Nat := widthsFrom 0 l.trimmed columns

end SourceLine

namespace Diagnostic

/-- The index of the last line that begins at or before the offset. -/
def lineIndex (lines : List SourceLine) (offset : Nat) : Nat :=
  (lines.takeWhile fun l => l.start ≤ offset).length - 1

def numberMargin (width index : Nat) : List Char :=
  let digits := (Text.numeral (index + 1)).toList
  ' ' :: List.replicate (width - digits.length) ' ' ++ digits ++ " │ ".toList

/-- A row below a line: for each character one mark and, as far as it is wider, another one that
fills its width. -/
def row (widths : List Nat) (mark : Nat → Char × Char) : List Char :=
  (widths.zipIdx).flatMap fun (w, column) =>
    match w with
    | 0 => []
    | w + 1 => (mark column).1 :: List.replicate w (mark column).2

def labelRows (line : SourceLine) (start stop : Nat) : List Char × List Char :=
  let widths := line.widths (stop - line.start + 2)
  let arrow := (start + stop) / 2 - line.start
  let first (column : Nat) : Char × Char :=
    if start - line.start ≤ column ∧ column < stop - line.start then
      (if column = arrow then '┬' else '─', '─')
    else (if column = arrow then '│' else ' ', ' ')
  let second (column : Nat) : Char × Char :=
    if column < arrow then (' ', ' ')
    else if column = arrow then ('╰', '─')
    else ('─', '─')
  (row widths first, row widths second)

/-- The lines that show a span on one line. -/
def singleLines (margin : List Char) (width index : Nat) (line : SourceLine) (start stop : Nat)
    (message : List Char) : List (List Char) :=
  let blank := margin ++ "│ ".toList
  if line.stop < stop then [blank]
  else
    let rows := labelRows line start stop
    [numberMargin width index ++ line.shownText, blank ++ rows.1,
      blank ++ rows.2 ++ ' ' :: message]

def embracedLines (margin : List Char) (width : Nat) (first last : Nat × SourceLine) (stop : Nat)
    (message : List Char) : List (List Char) :=
  let blank := margin ++ "│ ".toList
  let ends := decide (stop - 1 < last.2.stop)
  let opening := numberMargin width first.1 ++ "╭─▶ ".toList ++ first.2.shownText
  let gap := if decide (first.1 + 1 < last.1) || !ends then [margin ++ "┆ ┆   ".toList] else []
  let closing :=
    if ends then
      let total := (last.2.widths (last.2.text.length + 2)).foldl (fun n w => n + w) 0
      [numberMargin width last.1 ++ "├─▶ ".toList ++ last.2.shownText,
        blank ++ "│   ".toList ++ List.replicate total ' ',
        blank ++ "╰───".toList ++ List.replicate total '─' ++ ' ' :: message]
    else []
  opening :: gap ++ closing

def sourceLines (file message : List Char) (location : Location) : List (List Char) :=
  let source := location.source.toList
  let start := location.span.start
  let stop := location.span.stop
  let final := max (stop - 1) start
  if source.length < start ∨ source.length < final then []
  else
    let lines := SourceLine.all source
    let s := lineIndex lines start
    let e := lineIndex lines final
    match lines[s]?, lines[e]? with
    | some first, some last =>
      let width := (Text.numeral (e + 1)).length
      let margin := List.replicate (width + 2) ' '
      let place := (":" ++ Text.numeral (s + 1) ++ ":" ++ Text.numeral (start - first.start + 1))
      let head := margin ++ "╭─[".toList ++ file ++ place.toList ++ "]".toList
      let body :=
        if s = e then singleLines margin width s first start stop message
        else embracedLines margin width (s, first) (e, last) stop message
      head :: (margin ++ "│".toList) :: body ++ [List.replicate (width + 2) '─' ++ "╯".toList]
    | _, _ => []

/-- The form with the source text; the form on one line if there is no location. -/
def report (d : Diagnostic) : String :=
  match d.location with
  | none => d.text
  | some location =>
    let message := d.problem.message
    let lines := ("Error: " ++ message).toList ::
      sourceLines d.file.toList message.toList location
    String.ofList (lines.flatMap fun l => l ++ ['\n'])

end Diagnostic
end Stencil
