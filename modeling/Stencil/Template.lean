import Stencil.Tree
import Stencil.Loader
import Stencil.Text.Continuation

/-! Templates: a source text, its tree, and the diagnostics of reading it that have not been
reported yet. -/
namespace Stencil

structure Template where
  name : String
  path : Option String
  source : String
  root : List Node
  /-- How many inclusions deep the template is. -/
  depth : Nat
  diagnostics : List Diagnostic

namespace Template

def literalName : String := "(none)"

def parse (settings : Settings) (name : String) (path : Option String) (source : String)
    (depth : Nat) : Template :=
  let tree := Tree.ofItems settings depth (Item.scan settings.tags source)
  { name, path, source, root := tree.1, depth,
    diagnostics := tree.2.map fun f => f.toDiagnostic name source }

def ofText (settings : Settings) (text : String) : Template :=
  parse settings literalName none text 0

/-- Reads the template at a path, `depth` inclusions deep. -/
def load (settings : Settings) (loader : Loader) (moment : Moment) (depth : Nat) (path : String) :
    Except Problem Template :=
  match loader.load moment path with
  | .ok text => .ok (parse settings path (some path) text depth)
  | .error e => .error (e.problem path)

def text (t : Template) (span : Span) : List Char :=
  (Text.slice? t.source.toList span).getD []

def diagnostic (t : Template) (problem : Problem) (line : Nat) (span : Span) : Diagnostic :=
  Finding.toDiagnostic ⟨problem, line, span⟩ t.name t.source

end Template
end Stencil
