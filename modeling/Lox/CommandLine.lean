import Lox.Session
import Lox.Token.Json
import Lox.Tree.Text
import Lox.Utf8

/-!
# The commands

Each command turns the bytes it reads into what goes to the two output streams and an exit
code. Reading files and the clock are left to the caller.
-/
namespace Lox.CommandLine

structure Transcript where
  out : ByteArray
  err : String
  exitCode : Nat

namespace Transcript

def ofText (out err : String) (exitCode : Nat) : Transcript := ⟨out.toUTF8, err, exitCode⟩

/-- One transcript after another; the exit code is that of the second. -/
def followedBy (a b : Transcript) : Transcript := ⟨a.out ++ b.out, a.err ++ b.err, b.exitCode⟩

end Transcript

inductive SourceFault where
  | unopened (reason : String)
  | unreadable (reason : String)
  | notText (fault : Utf8.Fault)

/-- A file name in quotes. -/
def quotedName (name : String) : String :=
  String.ofList ('"' :: name.toList.flatMap (fun c =>
    if c = '"' ∨ c = '\\' then ['\\', c] else [c]) ++ ['"'])

def SourceFault.message (name : String) : SourceFault → String
  | unopened reason => "Failed to open file " ++ quotedName name ++ ": " ++ reason
  | unreadable reason => "Failed to read file " ++ quotedName name ++ ": " ++ reason
  | notText fault => "File " ++ quotedName name ++ " is not valid UTF-8: " ++ fault.message

/-- The reason given for a file that does not exist. -/
def noSuchFile : SourceFault := .unopened "No such file or directory (os error 2)"

/-- The text of a file that could be read. -/
def sourceText (bytes : ByteArray) : Except SourceFault String :=
  (Utf8.decode bytes).mapError .notText

def unusable (name : String) (fault : SourceFault) : Transcript :=
  .ofText "" (fault.message name ++ "\n") 74

/-- Each text on a line of its own. -/
def lines (texts : List String) : String := String.join (texts.map (· ++ "\n"))

def faultLines (faults : List Fault) : String := lines (faults.map Fault.message)

def staticCode (faults : List Fault) : Nat := if faults.isEmpty then 0 else 65

/-- Shows the tokens of a source, one on a line. -/
def tokenize (shown : Token → String) (source : String) : Transcript :=
  let items := scan source
  let faults := errorsOnly items
  .ofText (lines ((okOnly items).map shown)) (faultLines faults) (staticCode faults)

/-- Shows the trees of a source, unless there are faults. -/
def parse (source : String) : Transcript :=
  let items := scan source
  let parsed := Lox.parse (okOnly items) 0
  let faults := errorsOnly items ++ parsed.faults
  let trees := if faults.isEmpty then parsed.statements.map Stmt.text else []
  .ofText (lines trees) (faultLines faults) (staticCode faults)

/-- What a source printed, and how it ended. -/
def transcript (s : Session) (outcome : Outcome) : Transcript :=
  ⟨s.state.sink.written, faultLines outcome.faults, outcome.exitCode⟩

def run (fuel : Nat) (s : Session) (source : String) : Option Transcript :=
  (s.run fuel source).map fun ended => transcript ended.1 ended.2

/-! ## The prompt -/

def prompt : String := "> "

/-- The lines of an input, each with the newline that ends it. -/
def splitLines : List UInt8 → List (List UInt8)
  | [] => []
  | b :: rest =>
    if b = 10 then [b] :: splitLines rest
    else match splitLines rest with
      | [] => [[b]]
      | line :: more => (b :: line) :: more

/-- A line without the newline, or carriage return and newline, that ends it. -/
def stripNewline (line : List UInt8) : List UInt8 :=
  match line.reverse with
  | 10 :: 13 :: rest => rest.reverse
  | 10 :: rest => rest.reverse
  | _ => line

/-- The end of a session at the prompt. -/
def farewell : Transcript := .ofText "\n" "" 0

/-- A line that is not text ends the session. -/
def lineNotText : Transcript := .ofText "" "Error: stream did not contain valid UTF-8\n" 1

def lineText (line : List UInt8) : Except Utf8.Fault String :=
  Utf8.decode ⟨(stripNewline line).toArray⟩

/-- Answers each line in turn after a prompt; faults end a line only. -/
def repl (fuel : Nat) (s : Session) : List (List UInt8) → Option Transcript
  | [] => some ((Transcript.ofText prompt "" 0).followedBy farewell)
  | line :: rest =>
    let asked := Transcript.ofText prompt "" 0
    match lineText line with
    | .error _ => some (asked.followedBy lineNotText)
    | .ok source =>
      match s.run fuel source with
      | none => none
      | some (s, outcome) =>
        let answered := asked.followedBy (transcript s outcome)
        (repl fuel s.drained rest).map answered.followedBy

end Lox.CommandLine
