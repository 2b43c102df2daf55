import Lox.CommandLine

/-!
# The program

Reads files, standard input and the clock, and prints what the commands answer. A running
program is advanced a number of steps at a time, so that its output appears and its clock
moves on while it runs.
-/
namespace Lox.Main

open CommandLine

def emit (t : Transcript) : IO Unit := do
  let out ← IO.getStdout
  out.write t.out
  out.flush
  let err ← IO.getStderr
  err.putStr t.err
  err.flush

/-- Seconds on a clock that never goes back. -/
def now : IO Float := do
  return (← IO.monoMsNow).toFloat / 1000.0

def stride : Nat := 4096

/-- Prints what the machine wrote. -/
def release (σ : State) : IO State := do
  let out ← IO.getStdout
  out.write σ.sink.written
  out.flush
  return { σ with sink := σ.sink.drained }

partial def drive (c : Config) : IO Config := do
  if c.finished then return { c with state := ← release c.state }
  let time ← now
  let σ := { c.state with clock := ⟨fun _ => time, 0⟩ }
  let c := Config.run stride { c with state := σ }
  drive { c with state := ← release c.state }

def runSource (s : Session) (source : String) : IO (Session × Outcome) := do
  match s.load source with
  | (s, .error faults) => return (s, .rejected faults)
  | (s, .ok program) =>
    let c ← drive (s.state.interpreting program)
    return (Session.finish? s.nextId c).getD (s, .success)

def freshSession : Session := .initial .unlimited fun _ => 0

def fileFault : IO.Error → SourceFault
  | .noFileOrDirectory .. => noSuchFile
  | e => .unopened e.toString

def readSource (name : String) : IO (Except SourceFault String) := do
  try
    return sourceText (← IO.FS.readBinFile name)
  catch e =>
    return .error (fileFault e)

def withSource (name : String) (command : String → IO UInt32) : IO UInt32 := do
  match ← readSource name with
  | .ok source => command source
  | .error fault =>
    let t := unusable name fault
    emit t
    return t.exitCode.toUInt32

def answer (t : Transcript) : IO UInt32 := do
  emit t
  return t.exitCode.toUInt32

def runFile (source : String) : IO UInt32 := do
  let (s, outcome) ← runSource freshSession source
  answer (transcript s outcome)

partial def promptLoop (input : IO.FS.Stream) (s : Session) : IO UInt32 := do
  emit (.ofText prompt "" 0)
  let line ← readLine input .empty
  if line.isEmpty then answer farewell
  else match lineText line.toList with
    | .error _ => answer lineNotText
    | .ok source =>
      let (s, outcome) ← runSource s source
      emit (transcript s outcome)
      promptLoop input s
where
  readLine (input : IO.FS.Stream) (line : ByteArray) : IO ByteArray := do
    let byte ← input.read 1
    if byte.isEmpty || byte[0]! == 10 then return line ++ byte
    readLine input (line ++ byte)

def usage : Transcript :=
  .ofText "" "Usage: lox tokenize [--json] FILE | lox parse FILE | lox run [FILE]\n" 2

end Lox.Main

open Lox Lox.CommandLine Lox.Main in
def main (arguments : List String) : IO UInt32 := do
  match arguments with
  | ["tokenize", name] => withSource name fun source => answer (tokenize Token.display source)
  | ["tokenize", "--json", name]
  | ["tokenize", name, "--json"] =>
    withSource name fun source => answer (tokenize Token.json source)
  | ["parse", name] => withSource name fun source => answer (parse source)
  | ["run", name] => withSource name runFile
  | ["run"] => promptLoop (← IO.getStdin) freshSession
  | _ => answer usage
