import Stencil.Text

/-! Lines that go on.
A backslash at the end of a line joins it to the next one; two backslashes there stand for one and
keep the line end. Every other backslash stands for itself. -/
namespace Stencil
namespace Text

/-- The pieces in which a text is written, after a piece in reverse that is still open. -/
def joinedFrom : List Char → List Char → List (List Char)
  | run, [] => [run.reverse]
  | run, '\\' :: '\\' :: '\n' :: r => run.reverse :: joinedFrom ['\n', '\\'] r
  | run, '\\' :: '\\' :: '\r' :: '\n' :: r => run.reverse :: joinedFrom ['\n', '\r', '\\'] r
  | run, '\\' :: '\n' :: r => run.reverse :: joinedFrom [] r
  | run, '\\' :: '\r' :: '\n' :: r => run.reverse :: joinedFrom [] r
  | run, c :: r => joinedFrom (c :: run) r

def joined (text : List Char) : List (List Char) := joinedFrom [] text

end Text
end Stencil
