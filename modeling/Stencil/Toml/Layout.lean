import Stencil.Assoc
import Stencil.Toml.Value

/-! How keys and headers build tables.
A table may be written once. A table that exists only because a longer header or a dotted key needs
it can still be extended, by a header or by dotted keys, but not by both. -/
namespace Stencil
namespace Toml

inductive Entry
  | value (v : Value)
  /-- `implied` tables have no header of their own; `dotted` ones come from dotted keys. -/
  | table (implied dotted : Bool) (entries : List (String × Entry))
  /-- An array of tables: those before the last, and the last. -/
  | tables (before : List (List (String × Entry))) (last : List (String × Entry))

abbrev Entries := List (String × Entry)

mutual

def Entry.toValue : Entry → Value
  | .value v => v
  | .table _ _ entries => .table (entryValues entries)
  | .tables before last => .array (tableValues before ++ [.table (entryValues last)])

def entryValues : List (String × Entry) → List (String × Value)
  | [] => []
  | (key, e) :: r => (key, e.toValue) :: entryValues r

def tableValues : List (List (String × Entry)) → List Value
  | [] => []
  | t :: r => .table (entryValues t) :: tableValues r

end

namespace Entries

/-- Changes what stands under a key where it stands; what is new comes last. -/
def update (key : String) (change : Option Entry → Option Entry) : Entries → Option Entries
  | [] => (change none).map fun e => [(key, e)]
  | p :: r =>
    if p.1 = key then (change (some p.2)).map fun e => (key, e) :: r
    else (update key change r).map fun r => p :: r

/-- Changes the table at the end of a path, told whether it comes from dotted keys. Tables on the
way that are missing are implied. Dotted keys only lead through implied tables. -/
def within (byDots : Bool) (change : Bool → Entries → Option Entries) :
    List String → Bool → Entries → Option Entries
  | [], dotted, entries => change dotted entries
  | key :: path, _, entries =>
    update key (fun
      | none => (within byDots change path byDots []).map (Entry.table true byDots)
      | some (.value _) => none
      | some (.tables before last) =>
        (within byDots change path false last).map (Entry.tables before)
      | some (.table implied dotted inner) =>
        if byDots && !implied then none
        else (within byDots change path dotted inner).map (Entry.table implied dotted)) entries

def put (path : List String) (key : String) (v : Value) (entries : Entries) : Option Entries :=
  within true (fun dotted entries =>
    if dotted == path.isEmpty || (Assoc.get? key entries).isSome then none
    else some (entries ++ [(key, .value v)])) path false entries

structure Pair where
  path : List String
  key : String
  value : Value

def putAll (pairs : List Pair) (entries : Entries) : Option Entries :=
  pairs.foldlM (fun entries p => entries.put p.path p.key p.value) entries

/-- Adds the table under a header. An implied table becomes this one and moves to the end. -/
def addTable (path : List String) (key : String) (pairs : List Pair) (root : Entries) :
    Option Entries :=
  within false (fun _ entries =>
    let others := Assoc.erase key entries
    let finish (inner : Entries) : Option Entries :=
      (putAll pairs inner).map fun inner => others ++ [(key, .table false false inner)]
    match Assoc.get? key entries with
    | none => finish []
    | some (.table true false inner) => finish inner
    | some _ => none) path false root

def addElement (path : List String) (key : String) (pairs : List Pair) (root : Entries) :
    Option Entries :=
  within false (fun _ entries =>
    update key (fun
      | none => (putAll pairs []).map (Entry.tables [])
      | some (.tables before last) =>
        (putAll pairs []).map (Entry.tables (before ++ [last]))
      | some _ => none) entries) path false root

end Entries
end Toml
end Stencil
