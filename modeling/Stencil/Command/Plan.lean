import Stencil.Command.Options
import Stencil.Disk
import Stencil.Render
import Stencil.Report
import Stencil.Scope.OfToml
import Stencil.TagSet.OfToml

/-! The command: it renders a template file, or its input, against the bindings of a file.
What it asks of its surroundings is a plan, so that the same plan runs on a disk in memory and on
that of the system. -/
namespace Stencil
namespace Command

/-- What the command asks for, one thing after the other. -/
inductive Plan
  /-- The text of a file. -/
  | read (path : String) (next : Except ReadError String → Plan)
  /-- The text of the input. -/
  | readInput (next : Except ReadError String → Plan)
  /-- An empty file. -/
  | create (path : String) (next : Except PathError Unit → Plan)
  /-- A render; its output goes to the created file, if one has been, and the lines of its
  diagnostics are shown unless it is quiet. What is held back is written at last, if it can be. -/
  | render (job : Loader → Sink → Outcome) (quiet : Bool)
    (next : Except RenderError Unit → Bool → Plan)
  /-- The end, after a message. -/
  | exit (code : Nat) (message : String)

def bufferSize : Nat := 8192

/-- The bytes that have reached the file and those that are held back, after another piece. -/
def buffered (state : Bytes × Bytes) (piece : Bytes) : Bytes × Bytes :=
  let (landed, held) := state
  if held.length + piece.length < bufferSize then (landed, held ++ piece)
  else
    let (landed, held) :=
      if bufferSize < held.length + piece.length then (landed ++ held, []) else (landed, held)
    if bufferSize ≤ piece.length then (landed ++ piece, held) else (landed, held ++ piece)

def landed (pieces : List Bytes) : Bytes := (pieces.reverse.foldl buffered ([], [])).1

/-- How many bytes have been taken when a piece is refused because what is written on account of it
does not fit into an output with room for so many bytes. -/
def refusal? (room : Nat) (state : Bytes × Bytes) : List Bytes → Option Nat
  | [] => none
  | piece :: pieces =>
    let next := buffered state piece
    if room < next.1.length then some (state.1.length + state.2.length)
    else refusal? room next pieces

/-- Renders by way of the buffer to an output with room for so many bytes, if not for any number.
The render stops at the piece that is refused. -/
def renderInto (room : Option Nat) (render : Sink → Outcome) : Outcome :=
  let whole := render {}
  match room.bind fun n => refusal? n ([], []) whole.out.pieces.reverse with
  | some taken => render { room := some taken }
  | none => whole

def trimEnd (s : String) : String :=
  String.ofList (s.toList.reverse.dropWhile Text.isBlank).reverse

def fail (message : String) : Plan := .exit 1 (message ++ "\n")

/-- How the command ends after a render, and after what was held back has been written or not. -/
def conclude (pretty : Bool) (result : Except RenderError Unit) (flushed : Bool) : Plan :=
  match result with
  | .ok () =>
    if flushed then .exit 0 "" else fail ("Error writing output: " ++ WriteError.full.message)
  | .error (.template diagnostics) =>
    .exit 1 (if pretty then
      String.join (diagnostics.map fun d => trimEnd d.report ++ "\n") else "")
  | .error (.write e) => fail ("Error: " ++ (RenderError.write e).message)

def malformed : String := "malformed document"

def renderWith (o : Options) (tags : TagSet) (scope : Scope) (source : Source) : Plan :=
  let settings : Settings := { tags, includeLimit := o.limit.getD 30 }
  .render (fun loader out => source.render settings loader scope out {}) o.pretty
    (conclude o.pretty)

def openOutput (o : Options) (next : Plan) : Plan :=
  match o.output with
  | none => next
  | some path => .create path fun
    | .ok () => next
    | .error e => fail ("Error creating output '" ++ path ++ "': " ++ e.message)

def openSource (o : Options) (next : Source → Plan) : Plan :=
  match o.template with
  | some path => next (.path path)
  | none => .readInput fun
    | .ok text => next (.text text)
    | .error e => fail ("Error reading from stdin: " ++ e.message)

def loadData (o : Options) (next : Scope → Plan) : Plan :=
  match o.data with
  | none => next .empty
  | some path =>
    let failed (reason : String) := fail ("Error loading data '" ++ path ++ "': " ++ reason)
    .read path fun
      | .error e => failed ("Failed to read data file: " ++ e.message)
      | .ok text =>
        match Scope.ofToml? text with
        | some scope => next scope
        | none => failed ("Failed to parse data TOML: " ++ malformed)

def loadTags (o : Options) (next : TagSet → Plan) : Plan :=
  match o.tags with
  | none => next {}
  | some path =>
    let failed (reason : String) := fail ("Error loading tag set '" ++ path ++ "': " ++ reason)
    .read path fun
      | .error e => failed ("Failed to read tag set file: " ++ e.message)
      | .ok text =>
        match TagSet.ofToml text with
        | .ok tags => next tags
        | .error .parse => failed ("Failed to parse tag set TOML: " ++ malformed)
        | .error (.empty field) => failed (TagSet.emptyMessage field)

/-- The plan for these options: tags, data, input and output file, in this order. -/
def Plan.ofOptions (o : Options) : Plan :=
  loadTags o fun tags => loadData o fun scope => openSource o fun source =>
    openOutput o (renderWith o tags scope source)

def usage : String :=
  "Usage: [OPTIONS] [TEMPLATE]\n\n" ++
  "Options:\n" ++
  "  -d, --data <FILE>             Bindings to render against (TOML format)\n" ++
  "  -t, --tags <FILE>             Tag keywords and delimiters (TOML format)\n" ++
  "      --max-include-depth <N>   Maximum nesting of included templates\n" ++
  "  -o, --output <FILE>           Write output here instead of stdout\n" ++
  "  -p, --pretty                  Show diagnostics with source context\n" ++
  "  -h, --help                    Print help\n"

structure Exit where
  code : Nat
  stdout : Bytes
  stderr : Bytes
  disk : Disk

def duringOutput (disk : Disk) (output : Option Place) (pieces : List Bytes) : Disk :=
  match output with
  | some place => disk.write place (landed pieces)
  | none => disk

def loaderDuring (disk : Disk) (output : Option Place) : Loader :=
  ⟨fun moment path => (duringOutput disk output moment.written).load path⟩

/-- Carries out a plan on a disk. The output has room for so many bytes, if not for any number. -/
def Plan.run (input : Bytes) (room : Option Nat) :
    Plan → Disk → Option Place → Bytes → Bytes → Exit
  | .read path next, disk, output, stdout, stderr =>
    (next (disk.readText path)).run input room disk output stdout stderr
  | .readInput next, disk, output, stdout, stderr =>
    let text : Except ReadError String :=
      match Text.decode? input with
      | some text => .ok text
      | none => .error .encoding
    (next text).run input room disk output stdout stderr
  | .create path next, disk, output, stdout, stderr =>
    match disk.target path with
    | .ok place => (next (.ok ())).run input room (disk.write place []) (some place) stdout stderr
    | .error e => (next (.error e)).run input room disk output stdout stderr
  | .render job quiet next, disk, output, stdout, stderr =>
    let render := job (loaderDuring disk output)
    let o := renderInto room render
    let stderr := if quiet then stderr else stderr ++ o.err.contents
    let contents := (render {}).out.contents
    let written := ({ room } : Sink).taken contents
    let next := next o.result (written == contents)
    match output with
    | some place => next.run input room (disk.write place written) output stdout stderr
    | none => next.run input room disk output (stdout ++ written) stderr
  | .exit code message, disk, _, stdout, stderr =>
    ⟨code, stdout, stderr ++ Text.encode message, disk⟩

def run (words : List String) (input : Bytes) (disk : Disk) (room : Option Nat := none) : Exit :=
  match Request.ofWords words with
  | .misuse => ⟨2, [], Text.encode usage, disk⟩
  | .help => ⟨0, Text.encode usage, [], disk⟩
  | .run o => (Plan.ofOptions o).run input room disk none [] []

end Command
end Stencil
