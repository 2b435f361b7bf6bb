import Stencil.Scope
import Stencil.Toml.Document

/-! Bindings from TOML tables.
Texts, numbers, truth values and dates are bound as texts, an array as a loop of the tables in it,
and a table as a loop with one row. -/
namespace Stencil

mutual

/-- A value as data: a table whose first key is `Value.dateKey` stands for the date that is written
under it. Nothing if no date is. -/
def Toml.Value.settle : Toml.Value → Option Toml.Value
  | .array elements => (Toml.Value.settleAll elements).map .array
  | .table ((key, v) :: r) =>
    if key = Toml.Value.dateKey then
      match v with
      | .string s => (Toml.Date.ofText? s).map .date
      | _ => none
    else
      match v.settle with
      | none => none
      | some v => (Toml.Value.settleEntries r).map fun r => .table ((key, v) :: r)
  | v => some v

def Toml.Value.settleAll : List Toml.Value → Option (List Toml.Value)
  | [] => some []
  | v :: r =>
    match v.settle, Toml.Value.settleAll r with
    | some v, some r => some (v :: r)
    | _, _ => none

def Toml.Value.settleEntries : List (String × Toml.Value) → Option (List (String × Toml.Value))
  | [] => some []
  | (key, v) :: r =>
    match v.settle, Toml.Value.settleEntries r with
    | some v, some r => some ((key, v) :: r)
    | _, _ => none

end

namespace Scope

mutual

def ofEntries : List (String × Toml.Value) → Scope → Scope
  | [], s => s
  | (key, v) :: r, s => ofEntries r (bindValue key v s)

def bindValue (key : String) : Toml.Value → Scope → Scope
  | .string text, s => s.withValue key text
  | .integer n, s => s.withValue key (Toml.integerText n)
  | .float x, s => s.withValue key x.text
  | .boolean b, s => s.withValue key (if b then "true" else "false")
  | .date d, s => s.withValue key d.inlineText
  | .array elements, s => s.withLoop key (rowsOf elements)
  | .table entries, s => s.withLoop key [ofEntries entries empty]

def rowsOf : List Toml.Value → List Scope
  | [] => []
  | .table entries :: r => ofEntries entries empty :: rowsOf r
  | _ :: r => rowsOf r

end

def ofTable (entries : List (String × Toml.Value)) : Scope := ofEntries entries empty

/-- The scope that a document binds. -/
def ofToml? (s : String) : Option Scope :=
  ((Toml.parse? s).bind Toml.Value.settleEntries).map ofTable

end Scope
end Stencil
