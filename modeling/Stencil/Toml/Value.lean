import Stencil.Binary64
import Stencil.Toml.Date

/-! Values of TOML documents. -/
namespace Stencil
namespace Toml

inductive Value
  | string (text : String)
  | integer (n : Int)
  | float (x : Binary64)
  | boolean (b : Bool)
  | date (d : Date)
  | array (elements : List Value)
  /-- Keys with their values, in the order of the document. -/
  | table (entries : List (String × Value))

namespace Value

/-- The key under which a date is written out as a table. -/
def dateKey : String := "$__toml_private_datetime"

end Value

def Date.inlineText (d : Date) : String :=
  "\x7b \"" ++ Value.dateKey ++ "\" = \"" ++ d.text ++ "\" \x7d"

def integerText (n : Int) : String :=
  (if n < 0 then "-" else "") ++ Text.numeral n.natAbs

end Toml
end Stencil
