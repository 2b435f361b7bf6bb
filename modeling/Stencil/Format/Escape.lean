import Stencil.Format

/-! Escapes of single bytes.
A text is written in runs: unchanged bytes up to one that is escaped, then its escape. The main
statement says that the runs together are the bytes escaped one by one. Two tables are given: the
entities of markup, and the percent signs of a query. -/
namespace Stencil
namespace Escape

/-- The runs of the bytes, after a run in reverse that is still open. -/
def runs (escape : UInt8 → Option Bytes) : Bytes → Bytes → List Bytes
  | run, [] => [run.reverse]
  | run, b :: r =>
    match escape b with
    | none => runs escape (b :: run) r
    | some e => run.reverse :: e :: runs escape [] r

def each (escape : UInt8 → Option Bytes) (bytes : Bytes) : Bytes :=
  bytes.flatMap fun b => (escape b).getD [b]

theorem flatten_runs (escape : UInt8 → Option Bytes) (run bytes : Bytes) :
    (runs escape run bytes).flatten = run.reverse ++ each escape bytes := by
  induction bytes generalizing run with
  | nil => simp [runs, each]
  | cons b r ih =>
    simp only [runs, each, List.flatMap_cons]
    split
    · rename_i h
      simp [ih, h, each]
    · rename_i e h
      simp [ih, h, each]

/-- Markup characters, quotes and line ends are written as entities. -/
def entity? (b : UInt8) : Option Bytes :=
  if b = 0x26 then some (Text.encode "&amp;")
  else if b = 0x3C then some (Text.encode "&lt;")
  else if b = 0x3E then some (Text.encode "&gt;")
  else if b = 0x22 then some (Text.encode "&quot;")
  else if b = 0x27 then some (Text.encode "&#39;")
  else if b = 0x0A then some (Text.encode "&#10;")
  else if b = 0x0D then some (Text.encode "&#13;")
  else none

def isUnreserved (b : UInt8) : Bool :=
  (0x30 ≤ b && b ≤ 0x39) || (0x41 ≤ b && b ≤ 0x5A) || (0x61 ≤ b && b ≤ 0x7A) ||
    b == 0x2E || b == 0x2D || b == 0x5F

def hexDigit (n : UInt8) : UInt8 := if n < 10 then 0x30 + n else 0x37 + n

/-- A space is written as a plus sign, every other reserved byte as a percent sign and its two
hexadecimal digits. -/
def percent? (b : UInt8) : Option Bytes :=
  if isUnreserved b then none
  else if b = 0x20 then some [0x2B]
  else some [0x25, hexDigit (b / 16), hexDigit (b % 16)]

end Escape

namespace Emission

def entity (value : String) : Emission :=
  { pieces := Escape.runs Escape.entity? [] (Text.encode value) }

def url (value : String) : Emission :=
  { pieces := Escape.runs Escape.percent? [] (Text.encode value) }

end Emission

def FormatRegistry.standard : FormatRegistry :=
  (({} : FormatRegistry).register "entity" .entity).register "url" .url

end Stencil
