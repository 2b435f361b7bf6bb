import Stencil.Text

/-! Counting lines.
The line feeds of a source are counted on from the offset that was asked for last, and from the
beginning again for an offset before that one. -/
namespace Stencil

/-- How far the lines of a source have been counted. -/
structure LineCount where
  line : Nat := 1
  counted : Nat := 0
  deriving DecidableEq, Repr

/-- Counts the line feeds up to an offset of the source with these bytes. -/
def LineCount.upTo (lines : LineCount) (bytes : Bytes) (offset : Nat) : LineCount :=
  let start := if offset < lines.counted then {} else lines
  ⟨start.line + ((bytes.drop start.counted).take (offset - start.counted)).count 10, offset⟩

end Stencil
