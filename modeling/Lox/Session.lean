import Lox.Grammar.Statement
import Lox.Machine.Run
import Lox.Token.Scan

/-!
# Sessions

Sources are run one after another on the same state; global names and the numbering of
occurrences go on from one to the next. A source with a static fault is not executed.
-/
namespace Lox

inductive Outcome where
  | success
  | rejected (faults : List Fault)
  | failed (fault : Fault)
  deriving DecidableEq, Repr

namespace Outcome

def exitCode : Outcome → Nat
  | success => 0
  | rejected _ => 65
  | failed _ => 70

def faults : Outcome → List Fault
  | success => []
  | rejected faults => faults
  | failed fault => [fault]

def succeeded : Outcome → Bool
  | success => true
  | _ => false

end Outcome

structure Session where
  state : State
  nextId : Nat

namespace Session

/-- A session in which nothing was run yet. -/
def initial (sink : Sink) (readings : Nat → Float) : Session := ⟨.initial sink readings, 0⟩

/-- Reads a source: its program, or the faults for which it is rejected. Faults of scanning
and of parsing are reported together, those of scoping only when there are none. -/
def load (s : Session) (source : String) : Session × Except (List Fault) (List Stmt) :=
  let items := scan source
  let parsed := parse (okOnly items) s.nextId
  let s := { s with nextId := parsed.nextId }
  let faults := errorsOnly items ++ parsed.faults
  if faults.isEmpty then
    let report := resolve parsed.statements
    let s := { s with state := s.state.record report.occurrences }
    if report.faults.isEmpty then (s, .ok parsed.statements) else (s, .error report.faults)
  else (s, .error faults)

/-- What a configuration that ended leaves. -/
def finish? (nextId : Nat) (c : Config) : Option (Session × Outcome) :=
  c.ending?.map fun ending =>
    (⟨ending.2, nextId⟩, match ending.1 with
      | none => .success
      | some f => .failed f)

/-- Runs a source, or gives nothing if `fuel` steps are too few. -/
def run (fuel : Nat) (s : Session) (source : String) : Option (Session × Outcome) :=
  match s.load source with
  | (s, .error faults) => some (s, .rejected faults)
  | (⟨state, nextId⟩, .ok program) => finish? nextId ((state.interpreting program).run fuel)

/-- The session with its output taken out. -/
def drained (s : Session) : Session :=
  { s with state := { s.state with sink := s.state.sink.drained } }

end Session

end Lox
