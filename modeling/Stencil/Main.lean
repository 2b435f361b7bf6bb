import Stencil.Command.Plan

/-! The command on the files of the system. -/
namespace Stencil
namespace Command

def PathError.ofSystem : IO.Error → PathError
  | .noFileOrDirectory .. => .notFound
  | .inappropriateType _ code details =>
    if code = 20 then .notADirectory
    else if code = 21 then .isADirectory
    else .other details
  | .invalidArgument _ code details => if code = 36 then .nameTooLong else .other details
  | e => .other (toString e)

def attempt {α : Type} (path : String) (action : IO α) : IO (Except PathError α) :=
  match Disk.vet path with
  | .error e => pure (.error e)
  | .ok () => try .ok <$> action catch e => pure (.error (PathError.ofSystem e))

def textOf (content : ByteArray) : Except ReadError String :=
  match Text.decode? content.toList with
  | some text => .ok text
  | none => .error .encoding

def readText (path : String) : IO (Except ReadError String) := do
  match ← attempt path (IO.FS.readBinFile path) with
  | .ok content => pure (textOf content)
  | .error e => pure (.error (.path e))

/-- The text of a template, which has to be a regular file. -/
def loadTemplate (path : String) : IO (Except LoadError String) := do
  let read : IO (Option ByteArray) := do
    let entry : IO.FS.DirEntry := ⟨".", path⟩
    match (← entry.path.metadata).type with
    | .file => some <$> IO.FS.readBinFile path
    | _ => pure none
  match ← attempt path read with
  | .ok (some content) => pure (.ok (Text.decodeLossy content.toList))
  | .ok none => pure (.error .notAFile)
  | .error e => pure (.error (.unreadable e.message))

/-- Where output goes, and how many bytes of it have been written. -/
structure Output where
  stream : IO.FS.Stream
  written : Nat := 0

/-- Brings the output up to bytes that begin at an offset of it. Nothing is taken if this fails. -/
def Output.extend (output : Output) (offset : Nat) (content : Bytes) : IO (Output × Bool) := do
  let more := content.drop (output.written - offset)
  if more.isEmpty then return (output, true)
  try
    output.stream.write ⟨more.toArray⟩
    output.stream.flush
    return ({ output with written := offset + content.length }, true)
  catch _ => return (output, false)

/-- Brings the output up to what leaves the buffer when these pieces are written. If that fails, as
many bytes had been taken. -/
def Output.follow (output : Output) (offset : Nat) (held : Bytes) :
    List Bytes → IO (Output × Option Nat)
  | [] => pure (output, none)
  | piece :: pieces => do
    let (landing, left) := buffered ([], held) piece
    match ← output.extend offset landing with
    | (output, true) => output.follow (offset + landing.length) left pieces
    | (output, false) => pure (output, some (offset + held.length))

/-- Renders with the answers that templates have had so far, until no further one is asked for. A
template is read when the output before it has been written. -/
partial def settle (job : Loader → Sink → Outcome) (output : Output)
    (answers : Array (Except LoadError String)) : IO (Outcome × Output) := do
  let loader : Loader :=
    ⟨fun moment _ => answers[moment.loads]?.getD (.error (.unreadable "not read yet"))⟩
  let o := job loader {}
  match ← output.follow 0 [] o.out.pieces.reverse with
  | (output, some taken) => pure (job loader { room := some taken }, output)
  | (output, none) =>
    match o.loads.reverse[answers.size]? with
    | none => pure (o, output)
    | some (path, _) => settle job output (answers.push (← loadTemplate path))

def Plan.perform : Plan → Output → IO UInt32
  | .read path next, output => do (next (← readText path)).perform output
  | .readInput next, output => do
    (next (textOf (← (← IO.getStdin).readBinToEnd))).perform output
  | .create path next, output => do
    match ← attempt path (IO.FS.Handle.mk path .write) with
    | .ok handle => (next (.ok ())).perform { stream := IO.FS.Stream.ofHandle handle }
    | .error e => (next (.error e)).perform output
  | .render job quiet next, output => do
    let (o, output) ← settle job output #[]
    unless quiet do (← IO.getStderr).write ⟨o.err.contents.toArray⟩
    let (output, flushed) ← output.extend 0 o.out.contents
    (next o.result flushed).perform output
  | .exit code message, _ => do
    (← IO.getStderr).write (Text.encode message).toByteArray
    pure code.toUInt32

end Command
end Stencil

open Stencil Command in
def main (words : List String) : IO UInt32 := do
  match Request.ofWords words with
  | .misuse =>
    (← IO.getStderr).putStr usage
    pure 2
  | .help =>
    (← IO.getStdout).putStr usage
    pure 0
  | .run o => (Plan.ofOptions o).perform { stream := ← IO.getStdout }
