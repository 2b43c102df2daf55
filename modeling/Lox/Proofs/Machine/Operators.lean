import Lox.Proofs.Grammar.Regularity
import Lox.Proofs.Machine.Restoration

/-!
# Operators along a run

An operator waits only for its operands, and it comes from the node that is evaluated. Where all
these nodes are regular, no run meets an operator that it has no rule for.
-/
namespace Lox

open Scope (Part)

/-- A fault of an operator that is none. -/
def Fault.ofOperator : Fault → Bool
  | .runtime .unaryOperator _ => true
  | .runtime .binaryOperator _ => true
  | _ => false

/-- What waits with an operator waits with one of the right kind. -/
def Pending.Operates : Pending → Prop
  | .rightOperand operator _ => operator.kind ∈ binaryKinds
  | .operation _ operator => operator.kind ∈ binaryKinds
  | .negation operator => operator.kind ∈ unaryKinds
  | _ => True

/-- Operators that wait are of the right kinds, and none was missing so far. -/
structure Config.Operates (c : Config) : Prop where
  sound : ∀ f, c.control = .failed f → f.ofOperator = false
  waits : ∀ p ∈ c.pending, p.Operates

variable {pending : List Pending} {σ : State}

/-! ## Operators that are there -/

theorem binary_sound {operator : Token} (known : operator.kind ∈ binaryKinds) (left right : Value)
    (f : Fault) (h : binary operator left right = .failed f) : f.ofOperator = false := by
  unfold binary Control.fault at h
  split at h
  · split at h <;> cases h
    rfl
  · cases h
  · cases h
  · next plus equal different =>
    split at h
    · split at h <;> cases h
      -- the eight kinds that are left all have a rule for numbers
      simp_all [binaryKinds]
    · cases h
      rfl

theorem unary_sound {operator : Token} (known : operator.kind ∈ unaryKinds) (right : Value)
    (f : Fault) (h : unary operator right = .failed f) : f.ofOperator = false := by
  unfold unary Control.fault at h
  split at h
  · split at h <;> cases h
    rfl
  · cases h
  · simp_all [unaryKinds]

/-! ## Steps -/

section
variable (rest : ∀ p ∈ pending, p.Operates)
include rest

theorem operates_fault (cause : RuntimeCause) (blamed : Token)
    (other : Fault.ofOperator (.runtime cause blamed.line) = false) :
    Config.Operates ⟨.fault cause blamed, pending, σ⟩ :=
  ⟨fun f hf => by cases hf; exact other, rest⟩

theorem operates_value {v : Value} : Config.Operates ⟨.value v, pending, σ⟩ :=
  ⟨fun f hf => (by cases hf), rest⟩

theorem operates_completed {c : Completion} : Config.Operates ⟨.completed c, pending, σ⟩ :=
  ⟨fun f hf => (by cases hf), rest⟩

theorem operates_property (object : Value) (name : Token) :
    (property object name pending σ).Operates := by
  unfold property
  (repeat' split) <;> first
    | exact operates_value rest
    | exact operates_fault rest _ _ rfl

theorem operates_superMethod (id : Nat) (keyword method : Token) :
    (superMethod id keyword method pending σ).Operates := by
  unfold superMethod
  split
  · next f hf =>
    obtain ⟨name, rfl⟩ := superParts_fault hf
    exact ⟨fun f hf => by cases hf; rfl, rest⟩
  · split
    · exact operates_value rest
    · exact operates_fault rest _ _ rfl

theorem operates_lookup (id : Nat) (name : Token) :
    Config.Operates ⟨.ofExcept (σ.lookup id name), pending, σ⟩ := by
  cases found : σ.lookup id name with
  | ok v => exact operates_value rest
  | error f =>
    refine ⟨fun f hf => ?_, rest⟩
    cases hf
    rcases lookup_fault found with rfl | rfl <;> rfl

theorem operates_evaluating {first : Pending} {e : Expr} (operates : first.Operates) :
    Config.Operates ⟨.evaluate e, first :: pending, σ⟩ :=
  ⟨fun f hf => (by cases hf), List.forall_mem_cons.mpr ⟨operates, rest⟩⟩

theorem operates_enterBody (closure : Closure) (arguments : List Value) :
    (enterBody closure arguments pending σ).Operates := by
  have waits : ∀ p ∈ .sequence closure.decl.body :: .body σ.current closure :: pending,
      Pending.Operates p :=
    List.forall_mem_cons.mpr ⟨trivial, List.forall_mem_cons.mpr ⟨trivial, rest⟩⟩
  exact operates_completed waits

theorem operates_construct (k : ClassId) (arguments : List Value) :
    (construct k arguments pending σ).Operates := by
  unfold construct
  split
  · exact operates_value rest
  · have waits : ∀ p ∈ .construction σ.store.nextInstance :: pending, p.Operates :=
      List.forall_mem_cons.mpr ⟨trivial, rest⟩
    exact operates_enterBody waits _ _

theorem operates_call (callee : Value) (paren : Token) (arguments : List Value) :
    (call callee paren arguments pending σ).Operates := by
  unfold call apply
  (repeat' split) <;> first
    | exact operates_fault rest _ _ rfl
    | exact operates_value rest
    | exact operates_construct rest _ _
    | exact operates_enterBody rest _ _

theorem operates_nextArgument (callee : Value) (paren : Token) (before : List Value)
    (after : List Expr) : (nextArgument callee paren before after pending σ).Operates := by
  cases after with
  | nil => exact operates_call rest _ _ _
  | cons e es => exact operates_evaluating rest trivial

theorem operates_assign (id : Nat) (name : Token) (v : Value) :
    (assign id name v pending σ).Operates := by
  unfold assign Store.assignAt Store.assign
  (repeat' split) <;> first
    | exact operates_value rest
    | next hf =>
      refine ⟨fun f h => ?_, rest⟩
      cases h
      split at hf <;> cases hf
      rfl

theorem operates_finishClass (name : Token) (parent : Option ClassId)
    (methods : List FunctionDecl) (environment : EnvironmentId) :
    (finishClass name parent methods environment pending σ).Operates := by
  unfold finishClass Store.assign
  simp only
  split
  · exact operates_completed rest
  · next hf =>
    refine ⟨fun f h => ?_, rest⟩
    cases h
    split at hf <;> cases hf
    rfl

theorem operates_declareClass (name : Token) (parent : Option ClassId)
    (methods : List FunctionDecl) : (declareClass name parent methods pending σ).Operates := by
  cases parent <;> exact operates_finishClass rest _ _ _ _

theorem operates_evaluate {e : Expr} (regular : (Part.expr e).Regular) :
    (evaluate e pending σ).Operates := by
  cases e with
  | superRef id keyword method => exact operates_superMethod rest _ _ _
  | thisRef id keyword => exact operates_lookup rest _ _
  | var id name => exact operates_lookup rest _ _
  | literal value => exact operates_value rest
  | grouping inner => exact ⟨fun f hf => (by cases hf), rest⟩
  | binary left operator right => exact operates_evaluating rest regular
  | unary operator right => exact operates_evaluating rest regular
  | assign | call | get | logical | set => exact operates_evaluating rest trivial

theorem operates_execute (s : Stmt) : (execute s pending σ).Operates := by
  cases s with
  | classDecl name parent methods =>
    cases parent with
    | none => exact operates_declareClass rest name none methods
    | some e => exact operates_evaluating rest trivial
  | block body =>
    have waits : ∀ p ∈ .sequence body :: .restoration σ.current :: pending, p.Operates :=
      List.forall_mem_cons.mpr ⟨trivial, List.forall_mem_cons.mpr ⟨trivial, rest⟩⟩
    exact operates_completed waits
  | functionDecl decl => exact operates_completed rest
  | returnWith keyword value =>
    cases value with
    | none => exact operates_completed rest
    | some e => exact operates_evaluating rest trivial
  | varDecl name value =>
    cases value with
    | none => exact operates_completed rest
    | some e => exact operates_evaluating rest trivial
  | expression | ifElse | print | whileLoop => exact operates_evaluating rest trivial

omit rest in
theorem operates_resume (v : Value) {first : Pending} (waits : ∀ p ∈ first :: pending, p.Operates) :
    (resume v first pending σ).Operates := by
  obtain ⟨here, rest⟩ := List.forall_mem_cons.mp waits
  cases first with
  | assignment id name => exact operates_assign rest _ _ _
  | rightOperand operator right => exact operates_evaluating rest here
  | operation left operator => exact ⟨binary_sound here left v, rest⟩
  | negation operator => exact ⟨unary_sound here v, rest⟩
  | callee paren arguments => exact operates_nextArgument rest _ _ _ _
  | argument callee paren before after => exact operates_nextArgument rest _ _ _ _
  | property name => exact operates_property rest _ _
  | superclass name expression methods =>
    cases v with
    | classRef c => exact operates_declareClass rest name (some c) methods
    | _ => exact operates_fault rest _ _ rfl
  | target name value =>
    cases v with
    | instanceRef i => exact operates_evaluating rest trivial
    | _ => exact operates_fault rest _ _ rfl
  | printing =>
    refine ⟨fun f hf => ?_, rest⟩
    simp only [resume, print] at hf
    split at hf <;> cases hf
    rfl
  | decision operator right =>
    simp only [resume]
    split
    · exact operates_value rest
    · exact ⟨fun f hf => (by cases hf), rest⟩
  | branch thenBranch elseBranch =>
    simp only [resume]
    (repeat' split) <;> exact ⟨fun f hf => (by cases hf), rest⟩
  | loopTest condition body =>
    simp only [resume]
    split
    · exact ⟨fun f hf => (by cases hf), List.forall_mem_cons.mpr ⟨trivial, rest⟩⟩
    · exact operates_completed rest
  | field | construction => exact operates_value rest
  | discard | returning | definition => exact operates_completed rest
  | loopBody | sequence | program | restoration | body => exact operates_value waits

omit rest in
theorem operates_proceed (c : Completion) {first : Pending}
    (waits : ∀ p ∈ first :: pending, p.Operates) : (proceed c first pending σ).Operates := by
  obtain ⟨_, rest⟩ := List.forall_mem_cons.mp waits
  cases first with
  | loopBody condition body =>
    cases c with
    | normal => exact operates_evaluating rest trivial
    | returned v => exact operates_completed rest
  | sequence statements =>
    cases c with
    | returned v => exact operates_completed rest
    | normal =>
      cases statements with
      | nil => exact operates_completed rest
      | cons s ss => exact ⟨fun f hf => (by cases hf), List.forall_mem_cons.mpr ⟨trivial, rest⟩⟩
  | program statements =>
    cases statements with
    | nil => exact operates_completed rest
    | cons s ss => exact ⟨fun f hf => (by cases hf), List.forall_mem_cons.mpr ⟨trivial, rest⟩⟩
  | restoration environment => exact operates_completed rest
  | body caller closure => exact operates_value rest
  | _ => exact operates_completed waits

end

/-- A step of a regular node keeps the operators in order. -/
theorem Config.Operates.step {c : Config} (h : c.Operates)
    (regular : ∀ e, c.control = .evaluate e → (Part.expr e).Regular) : c.step.Operates := by
  obtain ⟨control, pending, σ⟩ := c
  obtain ⟨sound, waits⟩ := h
  cases control with
  | evaluate e => exact operates_evaluate waits (regular e rfl)
  | execute s => exact operates_execute waits s
  | value v =>
    cases pending with
    | nil => exact ⟨sound, waits⟩
    | cons first pending => exact operates_resume v waits
  | completed c =>
    cases pending with
    | nil => exact ⟨sound, waits⟩
    | cons first pending => exact operates_proceed c waits
  | failed f =>
    cases pending with
    | nil => exact ⟨sound, waits⟩
    | cons first pending =>
      have rest := (List.forall_mem_cons.mp waits).2
      have raised : ∀ g, Control.failed f = .failed g → g.ofOperator = false := sound
      cases first <;> exact ⟨raised, rest⟩

end Lox
