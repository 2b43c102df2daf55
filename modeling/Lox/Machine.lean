import Std.Data.TreeMap.Basic
import Lox.Sink
import Lox.Store

/-!
# The evaluating machine

A configuration is what is being done now, the list of what waits for its result, and the
state that a run changes. Nothing waits outside this list, so a run needs no more than the
list of native stack, and every moment of a run can be spoken of.
-/
namespace Lox

/-- The distances found for occurrences; one that is missing is global. -/
abbrev Distances := Std.TreeMap Nat Nat compare

/-- The times that successive calls of the clock give, and how many were made. -/
structure Clock where
  readings : Nat → Float
  taken : Nat

structure State where
  store : Store
  current : EnvironmentId
  depth : Nat
  distances : Distances
  sink : Sink
  clock : Clock

inductive Control where
  | evaluate (e : Expr)
  | execute (s : Stmt)
  | value (v : Value)
  | completed (c : Completion)
  | failed (f : Fault)

/-- What waits for a result. Those in the first group wait for a value, those in the second
for a completion. -/
inductive Pending where
  | assignment (id : Nat) (name : Token)
  | rightOperand (operator : Token) (right : Expr)
  | operation (left : Value) (operator : Token)
  | callee (paren : Token) (arguments : List Expr)
  | argument (callee : Value) (paren : Token) (before : List Value) (after : List Expr)
  | property (name : Token)
  | decision (operator : Token) (right : Expr)
  | target (name : Token) (value : Expr)
  | field (object : InstanceId) (name : Token)
  | negation (operator : Token)
  | discard
  | branch (thenBranch : Stmt) (elseBranch : Option Stmt)
  | printing
  | returning
  | definition (name : Token)
  | superclass (name : Token) (expression : Expr) (methods : List FunctionDecl)
  | construction (object : InstanceId)
  | loopTest (condition : Expr) (body : Stmt)
  | loopBody (condition : Expr) (body : Stmt)
  | sequence (rest : List Stmt)
  | program (rest : List Stmt)
  | restoration (environment : EnvironmentId)
  | body (caller : EnvironmentId) (closure : Closure)

structure Config where
  control : Control
  pending : List Pending
  state : State

namespace State

/-- The environment of the global names. -/
def globals : EnvironmentId := 0

/-- A new state: one environment, in which the clock is defined. -/
def initial (sink : Sink) (readings : Nat → Float) : State where
  store := Store.empty.addEnvironment none
    (Bindings.empty.insert Native.clock.name (.native .clock))
  current := globals
  depth := 0
  distances := {}
  sink := sink
  clock := ⟨readings, 0⟩

def record (σ : State) (occurrences : List Scope.Occurrence) : State :=
  { σ with
    distances := occurrences.foldl (fun table o => match o.distance with
      | some distance => table.insert o.id distance
      | none => table) σ.distances }

/-- Binds a name in the current environment. -/
def define (σ : State) (name : String) (value : Value) : State :=
  { σ with store := σ.store.define σ.current name value }

/-- The value of an occurrence: at its distance if one was found, otherwise global. -/
def lookup (σ : State) (id : Nat) (name : Token) : Except Fault Value :=
  match σ.distances[id]? with
  | some distance => σ.store.getAt σ.current distance name
  | none => σ.store.get globals name

/-- Enters a new environment within `enclosing`. -/
def enter (σ : State) (enclosing : EnvironmentId) (bindings : Bindings Value) : State :=
  let entered := σ.store.nextEnvironment
  { σ with store := σ.store.addEnvironment (some enclosing) bindings, current := entered }

end State

end Lox
