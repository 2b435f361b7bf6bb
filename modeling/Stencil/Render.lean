import Stencil.Store
import Stencil.Text.Decode
import Stencil.Context

/-! Rendering: walking a template's tree in a context.
Jumps are answers of the walk that loops on the way out take in. A template that cannot be included
halts the render: nothing is evaluated after it. The depth of inclusions bounds the recursion. -/
namespace Stencil

/-- How the walk of a node or list ends. -/
inductive Flow
  | on
  /-- Ends so many enclosing loops. -/
  | leave (level : Nat)
  /-- Goes on with the next row of the loop so many levels out. -/
  | next (level : Nat)
  deriving DecidableEq, Repr

/-- The state of a render. -/
structure Progress where
  out : Sink
  err : Sink
  store : Store
  /-- The diagnostics reported so far, in order. -/
  reported : List Diagnostic := []
  halted : Bool := false
  /-- The paths asked for so far with the depths wanted, the newest first. -/
  loads : List (String × Nat) := []

/-- A part of a render: it advances the progress and may stop at a write error. -/
abbrev Walk := EStateM WriteError Progress

/-- A template on the way to which so many inclusions have been entered. -/
structure Visit where
  template : Template
  position : Position

namespace Render

def emit (e : Emission) : Walk Unit := fun p =>
  match e.writeTo p.out with
  | (out, .ok ()) => .ok () { p with out }
  | (out, .error error) => .error error { p with out }

/-- Writes the line of a diagnostic and keeps the diagnostic. -/
def report (d : Diagnostic) : Walk Unit := fun p =>
  match p.err.write (Text.encode (d.text ++ "\n")) with
  | (err, true) => .ok () { p with err, reported := p.reported ++ [d] }
  | (err, false) => .error .full { p with err }

def reportAll : List Diagnostic → Walk Unit
  | [] => pure ()
  | d :: r => do
    report d
    reportAll r

/-- Reports a template that cannot be included, and halts. -/
def halt (d : Diagnostic) : Walk Flow := do
  report d
  modify fun p => { p with halted := true }
  pure .on

def load (settings : Settings) (loader : Loader) (depth : Nat) (path : String) :
    Walk (Except Problem Template) := fun p =>
  let moment : Moment := ⟨p.out.pieces, p.loads.length⟩
  .ok (Template.load settings loader moment depth path)
    { p with loads := (path, depth) :: p.loads }

def fill (position : Position) (t : Template) : Walk Unit :=
  modify fun p => { p with store := p.store.fill position t }

/-- Walks the body of a loop for each row, which is open meanwhile. A jump to this loop ends here,
one further out goes on with a level less. -/
def overRows (step : Context → Walk Flow) (inner : Context) : List Scope → Walk Flow
  | [] => pure .on
  | row :: rows => do
    match ← step (inner.push row) with
    | .on | .next 1 =>
      if (← get).halted then pure .on else overRows step (inner.push row).pop rows
    | .leave 1 => pure .on
    | .leave level => pure (.leave (level - 1))
    | .next level => pure (.next (level - 1))

/-- What is done at an inclusion: its reference, line and span. -/
abbrev Inclusion := Visit → Context → String → Nat → Span → Walk Flow

def valueOf (c : Context) (name : String) (default : Option String) : Option String :=
  (c.value? name).or default

def emission (formatter : Option Formatter) (value : String) : Emission :=
  match formatter with
  | some f => f.format value
  | none => .ofText value

mutual

def walkNode (enter : Inclusion) (v : Visit) (c : Context) : Node → Walk Flow
  | .text span => do
    emit { pieces := (Text.joined (v.template.text span)).map Text.bytes }
    pure .on
  | .value name default formatter =>
    match valueOf c name default with
    | some value => do
      emit (emission formatter value)
      pure .on
    | none => pure .on
  | .cond test yes no =>
    if test.holds c then walkList enter v c yes else walkList enter v c no
  | .loop name body =>
    match c.enter? name with
    | some (owner, rows) => overRows (fun inner => walkList enter v inner body) owner rows
    | none => pure .on
  | .leave level => pure (.leave level)
  | .next level => pure (.next level)
  | .embed reference line span => enter v c reference line span

/-- Walks nodes one after the other, up to the first jump or the halt of the render. -/
def walkList (enter : Inclusion) (v : Visit) (c : Context) : List Node → Walk Flow
  | [] => pure .on
  | node :: rest => do
    if (← get).halted then pure .on
    else
      match ← walkNode enter v c node with
      | .on => walkList enter v c rest
      | flow => pure flow

end

/-- Finds the template of an inclusion: the one its position is filled with, or else one that is
loaded now and whose diagnostics are then reported. Nothing is returned if the render halts. -/
def resolve (settings : Settings) (loader : Loader) (v : Visit) (reference : String) (line : Nat)
    (span : Span) : Walk (Option Visit) := do
  let position := span.start :: v.position
  match (← get).store.find? position with
  | some t => pure (some ⟨t, position⟩)
  | none =>
    let depth := v.template.depth + 1
    let refuse (problem : Problem) : Walk (Option Visit) := do
      let _ ← halt (v.template.diagnostic problem line span)
      pure none
    if settings.includeLimit < depth then
      refuse (.tooDeep (settings.tags.keyword .embed) settings.includeLimit)
    else
      match ← load settings loader depth (Path.resolve reference v.template.path) with
      | .error problem => refuse problem
      | .ok t =>
        reportAll t.diagnostics
        let kept := { t with diagnostics := [] }
        fill position kept
        pure (some ⟨kept, position⟩)

/-- Walks a template in which inclusions may be entered so many levels deep. -/
def walk (settings : Settings) (loader : Loader) : Nat → Visit → Context → Walk Flow
  | levels, v, c =>
    walkList (fun v c reference line span => do
      match ← resolve settings loader v reference line span with
      | none => pure .on
      | some nested =>
        match levels with
        | 0 => pure .on
        | levels + 1 => walk settings loader levels nested c) v c v.template.root

end Render

inductive RenderError
  | template (diagnostics : List Diagnostic)
  | write (error : WriteError)
  deriving DecidableEq, Repr

def RenderError.message : RenderError → String
  | template diagnostics =>
    "template errors: " ++ "; ".intercalate (diagnostics.map Diagnostic.text)
  | write error => "failed to write output: " ++ error.message

/-- A template that is rendered any number of times, and the templates included in it. -/
structure Held where
  template : Template
  store : Store := {}

/-- What a render leaves behind. -/
structure Rendered where
  result : Except RenderError Unit
  out : Sink
  err : Sink
  held : Held
  loads : List (String × Nat)

namespace Held

/-- The template with no diagnostics left. -/
def taken (h : Held) : Held := { h with template := { h.template with diagnostics := [] } }

/-- So many levels of inclusions can be entered: no deeper than templates are loaded, and no deeper
than they already are. -/
def levels (settings : Settings) (h : Held) : Nat :=
  max (settings.includeLimit - h.template.depth) h.store.reach

/-- Reports the held diagnostics and walks the tree. -/
def start (settings : Settings) (loader : Loader) (h : Held) (scope : Scope) : Walk Unit := do
  Render.reportAll h.template.diagnostics
  let _ ← Render.walk settings loader (h.levels settings) ⟨h.taken.template, []⟩ ⟨scope, []⟩

/-- Renders against a scope, writing to two sinks, after so many templates have been asked for. -/
def renderAfter (loads : List (String × Nat)) (settings : Settings) (loader : Loader) (h : Held)
    (scope : Scope) (out err : Sink) : Rendered :=
  let finish (result : Except RenderError Unit) (p : Progress) : Rendered :=
    { result, out := p.out, err := p.err, held := { h.taken with store := p.store },
      loads := p.loads }
  match start settings loader h scope { out, err, store := h.store, loads } with
  | .ok () p => finish (if p.reported = [] then .ok () else .error (.template p.reported)) p
  | .error e p => finish (.error (.write e)) p

def render (settings : Settings) (loader : Loader) (h : Held) (scope : Scope) (out err : Sink) :
    Rendered := h.renderAfter [] settings loader scope out err

end Held

/-- A template given by its text or by its path. -/
inductive Source
  | text (text : String)
  | path (path : String)
  deriving DecidableEq, Repr

structure Outcome where
  result : Except RenderError Unit
  out : Sink
  err : Sink
  /-- The paths asked for, the newest first. -/
  loads : List (String × Nat)

/-- Reads a template and renders it once. -/
def Source.render (settings : Settings) (loader : Loader) (source : Source) (scope : Scope)
    (out err : Sink) : Outcome :=
  let run (loads : List (String × Nat)) (t : Template) : Outcome :=
    let r := Held.renderAfter loads settings loader { template := t } scope out err
    ⟨r.result, r.out, r.err, r.loads⟩
  match source with
  | .text content => run [] (Template.ofText settings content)
  | .path file =>
    match Template.load settings loader { written := out.pieces } 0 file with
    | .ok t => run [(file, 0)] t
    | .error problem =>
      let d : Diagnostic := ⟨problem, file, none⟩
      match err.write (Text.encode (d.text ++ "\n")) with
      | (err, true) => ⟨.error (.template [d]), out, err, [(file, 0)]⟩
      | (err, false) => ⟨.error (.write .full), out, err, [(file, 0)]⟩

/-- Renders a text to a text. Diagnostics are only in the error. -/
def renderToString (settings : Settings) (loader : Loader) (text : String) (scope : Scope) :
    Except RenderError String :=
  let o := (Source.text text).render settings loader scope {} {}
  match o.result with
  | .ok () => .ok (Text.decodeLossy o.out.contents)
  | .error e => .error e

end Stencil
