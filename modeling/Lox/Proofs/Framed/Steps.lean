import Lox.Proofs.Alike.Steps
import Lox.Proofs.Framed.Stores
import Lox.Proofs.Machine.Scoping

/-!
# Runs of programs that are framed alike

A step of the machine on the first of two configurations that are framed alike is one or more steps
on the second one, which also enters and leaves the blocks that the first program lacks. Both runs
give the same values, write the same text and raise the same faults.
-/
namespace Lox

open Scope (Part thisName superName)
open Shape (Open Spans)
open Store (Chain Onward)

/-! ## What corresponds -/

/-- What is waited for: a value, a completion, or a completion that may first have to leave blocks
of the second program. -/
inductive Expected where
  | value
  | completion
  | exit

/-- What is given when nothing waits any more: a fault or what was waited for. -/
inductive Expected.Gets : Expected → Control → Prop where
  | value (v : Value) : Gets .value (.value v)
  | completion (c : Completion) : Gets .completion (.completed c)
  | fault (k : Expected) (f : Fault) : Gets k (.failed f)

/-- What two runs start from: environments that correspond, and what the runs end with when nothing
waits any more. -/
structure Ground where
  pairs : Pairing
  ends : Expected → EnvironmentId → EnvironmentId → Shape → Prop

namespace Numbering

variable (K : Numbering)

/-- What waits in both runs and goes on in the environment `e` of the first one, with what it waits
for and what the next one will get. -/
inductive Frame (σ : Store) (e : EnvironmentId) (w : Shape) :
    Expected → Expected → Pending → Pending → Prop where
  | assignment {id id' : Nat} {name : Token} (occurs : K.occurs w id id') :
      Frame σ e w .value .value (.assignment id name) (.assignment id' name)
  | rightOperand {operator : Token} {right right' : Expr}
      (operand : K.Framed w (.expr right) (.expr right')) :
      Frame σ e w .value .value (.rightOperand operator right) (.rightOperand operator right')
  | operation (left : Value) (operator : Token) :
      Frame σ e w .value .value (.operation left operator) (.operation left operator)
  | callee {paren : Token} {arguments arguments' : List Expr}
      (listed : K.Framed w (.exprs arguments) (.exprs arguments')) :
      Frame σ e w .value .value (.callee paren arguments) (.callee paren arguments')
  | argument {callee : Value} {paren : Token} {before : List Value} {after after' : List Expr}
      (listed : K.Framed w (.exprs after) (.exprs after')) :
      Frame σ e w .value .value (.argument callee paren before after)
        (.argument callee paren before after')
  | property (name : Token) : Frame σ e w .value .value (.property name) (.property name)
  | decision {operator : Token} {right right' : Expr}
      (operand : K.Framed w (.expr right) (.expr right')) :
      Frame σ e w .value .value (.decision operator right) (.decision operator right')
  | target {name : Token} {value value' : Expr}
      (assigned : K.Framed w (.expr value) (.expr value')) :
      Frame σ e w .value .value (.target name value) (.target name value')
  | field (object : InstanceId) (name : Token) :
      Frame σ e w .value .value (.field object name) (.field object name)
  | negation (operator : Token) :
      Frame σ e w .value .value (.negation operator) (.negation operator)
  | construction (object : InstanceId) :
      Frame σ e w .value .value (.construction object) (.construction object)
  | discard : Frame σ e w .value .exit .discard .discard
  | branch {thenBranch thenBranch' : Stmt} {elseBranch elseBranch' : Option Stmt}
      (chosen : K.Framed w (.stmt thenBranch) (.stmt thenBranch'))
      (alternated : Option.Rel (fun s s' => K.Framed w (.stmt s) (.stmt s'))
        elseBranch elseBranch') :
      Frame σ e w .value .exit (.branch thenBranch elseBranch) (.branch thenBranch' elseBranch')
  | printing : Frame σ e w .value .exit .printing .printing
  | returning : Frame σ e w .value .exit .returning .returning
  | definition (opens : Open w) (name : Token) :
      Frame σ e w .value .exit (.definition name) (.definition name)
  | superclass {name parent : Token} {number number' : Nat} {methods methods' : List FunctionDecl}
      (opens : Open w) (bound : ∃ v, σ.local? e name.lexeme = some v)
      (listed : K.Framed (.both :: .both :: w) (.functions methods) (.functions methods')) :
      Frame σ e w .value .exit (.superclass name (.var number parent) methods)
        (.superclass name (.var number' parent) methods')
  | loopTest {condition condition' : Expr} {body body' : Stmt}
      (tested : K.Framed w (.expr condition) (.expr condition'))
      (repeated : K.Framed w (.stmt body) (.stmt body')) :
      Frame σ e w .value .exit (.loopTest condition body) (.loopTest condition' body')
  | loopBody {condition condition' : Expr} {body body' : Stmt}
      (tested : K.Framed w (.expr condition) (.expr condition'))
      (repeated : K.Framed w (.stmt body) (.stmt body')) :
      Frame σ e w .completion .exit (.loopBody condition body) (.loopBody condition' body')
  | sequence {body body' : List Stmt} (content : K.Framed w (.stmts body) (.stmts body')) :
      Frame σ e w .completion .exit (.sequence body) (.sequence body')
  | program {statements statements' : List Stmt}
      (content : K.Framed w (.stmts statements) (.stmts statements')) :
      Frame σ e w .completion .exit (.program statements) (.program statements')

variable (G : Ground)

/-- All that waits. Blocks and bodies that end give back an environment with a shape of its own.
Where the second program has a block more, it has to leave this block as well. -/
inductive Waiting (σ σ' : Store) (ρ : Pairing) : Expected → EnvironmentId → EnvironmentId → Shape →
    List Pending → List Pending → Prop where
  | nothing {k : Expected} {e e' : EnvironmentId} {w : Shape} (settled : k ≠ .exit)
      (ends : G.ends k e e' w) : Waiting σ σ' ρ k e e' w [] []
  | frame {k k' : Expected} {e e' : EnvironmentId} {w : Shape} {first first' : Pending}
      {rest rest' : List Pending} (frame : K.Frame σ e w k k' first first')
      (next : Waiting σ σ' ρ k' e e' w rest rest') :
      Waiting σ σ' ρ k e e' w (first :: rest) (first' :: rest')
  | restoration {e e' outer outer' : EnvironmentId} {w around : Shape} {rest rest' : List Pending}
      (chain : Chain σ σ' ρ outer outer' around)
      (next : Waiting σ σ' ρ .exit outer outer' around rest rest') :
      Waiting σ σ' ρ .completion e e' w (.restoration outer :: rest) (.restoration outer' :: rest')
  | body {e e' caller caller' : EnvironmentId} {w around : Shape} {rest rest' : List Pending}
      {closure closure' : Closure} (initializes : closure'.isInitializer = closure.isInitializer)
      (receiver : closure.isInitializer = true → ρ closure.environment closure'.environment)
      (chain : Chain σ σ' ρ caller caller' around)
      (next : Waiting σ σ' ρ .value caller caller' around rest rest') :
      Waiting σ σ' ρ .completion e e' w (.body caller closure :: rest)
        (.body caller' closure' :: rest')
  | settled {e e' : EnvironmentId} {w : Shape} {pending pending' : List Pending}
      (waiting : Waiting σ σ' ρ .completion e e' w pending pending') :
      Waiting σ σ' ρ .exit e e' w pending pending'
  | added {e e' outer' : EnvironmentId} {w around : Shape} {rest rest' : List Pending}
      (chain : Chain σ σ' ρ e outer' around)
      (next : Waiting σ σ' ρ .exit e outer' around rest rest') :
      Waiting σ σ' ρ .exit e e' w rest (.sequence [] :: .restoration outer' :: rest')

/-- States of two runs that correspond, wherever the runs stand. -/
structure Beside (ρ : Pairing) (σ σ' : State) : Prop where
  store : Store.Framed K ρ σ.store σ'.store
  pairs : ∀ e e', G.pairs e e' → ρ e e'
  depth : σ'.depth = σ.depth
  sink : σ'.sink = σ.sink
  clock : σ'.clock = σ.clock
  resolves : K.Resolves σ.distances σ'.distances

/-- Two runs stand at the same place: the environments in use and what waits correspond. -/
structure InStep (ρ : Pairing) (w : Shape) (k : Expected) (σ σ' : State)
    (pending pending' : List Pending) : Prop extends Beside K G ρ σ σ' where
  chain : Chain σ.store σ'.store ρ σ.current σ'.current w
  waiting : K.Waiting G σ.store σ'.store ρ k σ.current σ'.current w pending pending'

/-- Configurations that are framed alike. -/
inductive Configs : Config → Config → Prop where
  | evaluate {ρ : Pairing} {w : Shape} {σ σ' : State} {pending pending' : List Pending}
      {e e' : Expr} (inStep : K.InStep G ρ w .value σ σ' pending pending')
      (code : K.Framed w (.expr e) (.expr e')) :
      Configs ⟨.evaluate e, pending, σ⟩ ⟨.evaluate e', pending', σ'⟩
  | execute {ρ : Pairing} {w : Shape} {σ σ' : State} {pending pending' : List Pending}
      {s s' : Stmt} (inStep : K.InStep G ρ w .exit σ σ' pending pending')
      (code : K.Framed w (.stmt s) (.stmt s')) :
      Configs ⟨.execute s, pending, σ⟩ ⟨.execute s', pending', σ'⟩
  | value {ρ : Pairing} {w : Shape} {σ σ' : State} {pending pending' : List Pending}
      (v : Value) (inStep : K.InStep G ρ w .value σ σ' pending pending') :
      Configs ⟨.value v, pending, σ⟩ ⟨.value v, pending', σ'⟩
  | completed {ρ : Pairing} {w : Shape} {σ σ' : State} {pending pending' : List Pending}
      (c : Completion) (inStep : K.InStep G ρ w .exit σ σ' pending pending') :
      Configs ⟨.completed c, pending, σ⟩ ⟨.completed c, pending', σ'⟩
  | failed {ρ : Pairing} {w : Shape} {k : Expected} {σ σ' : State} {pending pending' : List Pending}
      (f : Fault) (inStep : K.InStep G ρ w k σ σ' pending pending') :
      Configs ⟨.failed f, pending, σ⟩ ⟨.failed f, pending', σ'⟩

end Numbering

section
variable {K : Numbering} {G : Ground} {ρ ν : Pairing} {w : Shape} {k : Expected} {σ σ' : State}
  {pending pending' : List Pending}

theorem Numbering.Frame.onward {e : EnvironmentId} {k' : Expected} {first first' : Pending}
    {τ τ' υ υ' : Store} (h : K.Frame τ e w k k' first first') (onward : Onward τ τ' ρ υ υ' ν) :
    K.Frame υ e w k k' first first' := by
  cases h with
  | superclass opens bound listed =>
    obtain ⟨v, hv⟩ := bound
    exact .superclass opens (onward.kept _ _ v hv) listed
  | assignment occurs => exact .assignment occurs
  | rightOperand operand => exact .rightOperand operand
  | operation left operator => exact .operation left operator
  | callee listed => exact .callee listed
  | argument listed => exact .argument listed
  | property name => exact .property name
  | decision operand => exact .decision operand
  | target assigned => exact .target assigned
  | field object name => exact .field object name
  | negation operator => exact .negation operator
  | construction object => exact .construction object
  | discard => exact .discard
  | branch chosen alternated => exact .branch chosen alternated
  | printing => exact .printing
  | returning => exact .returning
  | definition opens name => exact .definition opens name
  | loopTest tested repeated => exact .loopTest tested repeated
  | loopBody tested repeated => exact .loopBody tested repeated
  | sequence content => exact .sequence content
  | program content => exact .program content

theorem Numbering.Waiting.onward {e e' : EnvironmentId} {τ τ' υ υ' : Store}
    (h : K.Waiting G τ τ' ρ k e e' w pending pending') (onward : Onward τ τ' ρ υ υ' ν) :
    K.Waiting G υ υ' ν k e e' w pending pending' := by
  induction h with
  | nothing settled ends => exact .nothing settled ends
  | frame frame _ ih => exact .frame (frame.onward onward) ih
  | restoration chain _ ih => exact .restoration (chain.onward onward) ih
  | body initializes receiver chain _ ih =>
    exact .body initializes (fun hi => onward.pairs _ _ (receiver hi)) (chain.onward onward) ih
  | settled _ ih => exact .settled ih
  | added chain _ ih => exact .added (chain.onward onward) ih

namespace Numbering.InStep

/-- What waits is replaced, the states stay. -/
theorem waitFor {k' : Expected} {first first' : List Pending}
    (h : K.InStep G ρ w k σ σ' pending pending')
    (waiting : K.Waiting G σ.store σ'.store ρ k' σ.current σ'.current w first first') :
    K.InStep G ρ w k' σ σ' first first' :=
  { h with waiting }

theorem push {k' : Expected} {first first' : Pending} (h : K.InStep G ρ w k' σ σ' pending pending')
    (frame : K.Frame σ.store σ.current w k k' first first') :
    K.InStep G ρ w k σ σ' (first :: pending) (first' :: pending') :=
  h.waitFor (.frame frame h.waiting)

/-- There are no blocks of the second program to be left first. -/
theorem settle (h : K.InStep G ρ w .completion σ σ' pending pending') :
    K.InStep G ρ w .exit σ σ' pending pending' :=
  h.waitFor (.settled h.waiting)

/-- The stores are replaced by later ones. -/
theorem keep (h : K.InStep G ρ w k σ σ' pending pending') {τ τ' : Store}
    (framed : Store.Framed K ν τ τ') (onward : Onward σ.store σ'.store ρ τ τ' ν) :
    K.InStep G ν w k { σ with store := τ } { σ' with store := τ' } pending pending' where
  toBeside := { h.toBeside with
    store := framed
    pairs := fun e e' he => onward.pairs e e' (h.pairs e e' he) }
  chain := h.chain.onward onward
  waiting := h.waiting.onward onward

theorem fault (h : K.InStep G ρ w k σ σ' pending pending') (cause : RuntimeCause) (blamed : Token) :
    K.Configs G ⟨.fault cause blamed, pending, σ⟩ ⟨.fault cause blamed, pending', σ'⟩ :=
  .failed _ h

/-- Both runs have the same result of an operator. -/
theorem result (h : K.InStep G ρ w .value σ σ' pending pending') {control : Control}
    (result : (∃ v, control = .value v) ∨ ∃ f, control = .failed f) :
    K.Configs G ⟨control, pending, σ⟩ ⟨control, pending', σ'⟩ := by
  rcases result with ⟨v, rfl⟩ | ⟨f, rfl⟩
  · exact .value v h
  · exact .failed f h

theorem ofExcept (h : K.InStep G ρ w .value σ σ' pending pending') (r : Except Fault Value) :
    K.Configs G ⟨.ofExcept r, pending, σ⟩ ⟨.ofExcept r, pending', σ'⟩ := by
  cases r with
  | ok v => exact .value v h
  | error f => exact .failed f h

/-- New environments with the same bindings, within two in use. -/
theorem enter (k' : Expected) (h : K.InStep G ρ w k σ σ' pending pending') {around : Shape}
    {enclosing enclosing' : EnvironmentId}
    (chain : Chain σ.store σ'.store ρ enclosing enclosing' around) (bindings : Bindings Value)
    {first first' : List Pending}
    (waiting : ∀ τ τ' ν, Onward σ.store σ'.store ρ τ τ' ν → ∀ e e',
      K.Waiting G τ τ' ν k' e e' (.both :: around) first first') :
    K.InStep G (ρ.add σ.store.nextEnvironment σ'.store.nextEnvironment) (.both :: around) k'
      (σ.enter enclosing bindings) (σ'.enter enclosing' bindings) first first' :=
  have onward := Onward.addEnvironment σ.store σ'.store ρ (some enclosing) (some enclosing')
    bindings
  { h.keep (h.store.addEnvironment enclosing enclosing' bindings) onward with
    chain := chain.enter bindings
    waiting := waiting _ _ _ onward _ _ }

/-- The second run enters a block that the first program lacks. -/
theorem enterRight (h : K.InStep G ρ w .exit σ σ' pending pending') :
    K.InStep G ρ (.right :: w) .exit σ (σ'.enter σ'.current .empty) pending
      (.sequence [] :: .restoration σ'.current :: pending') :=
  have onward := Onward.addRight σ.store σ'.store ρ (some σ'.current)
  { h.keep (h.store.addRight σ'.current) onward with
    chain := h.chain.enterRight
    waiting := .added (h.chain.onward onward) (h.waiting.onward onward) }

/-- The name of an occurrence has the same value in both runs. -/
theorem lookup (h : K.InStep G ρ w k σ σ' pending pending') {id id' : Nat}
    (occurs : K.occurs w id id') (name : Token) : σ'.lookup id' name = σ.lookup id name := by
  have found := h.resolves.occurs w id id' occurs
  unfold State.lookup
  generalize σ.distances[id]? = d, σ'.distances[id']? = d' at found
  cases found with
  | none => simp only [Store.get, h.store.get_globals]
  | some spans => simp only [Store.getAt, h.store.lookupAt h.chain spans]

end Numbering.InStep

/-! ## Calls and properties -/

theorem property_framed (h : K.InStep G ρ w .value σ σ' pending pending') (object : Value)
    (name : Token) :
    K.Configs G (property object name pending σ) (property object name pending' σ') := by
  cases object with
  | instanceRef i =>
    simp only [property, h.store.field, h.store.instances]
    cases σ.store.field? i name.lexeme with
    | some v => exact .value v h
    | none =>
      cases hi : σ.store.instances[i]? with
      | none => exact h.fault _ name
      | some object =>
        have hm := h.store.findMethod object.classId name.lexeme
        simp only [Option.bind_some]
        generalize σ.store.findMethod object.classId name.lexeme = m,
          σ'.store.findMethod object.classId name.lexeme = m' at hm
        cases hm with
        | none => exact h.fault _ name
        | some framed =>
          obtain ⟨same, ν, onward, stores⟩ := h.store.boundMethod framed i
          simp only [same]
          exact .value _ (h.keep stores onward)
  | _ => exact h.fault _ name

theorem superParts_framed (h : K.InStep G ρ w k σ σ' pending pending') {id id' : Nat}
    (superior : K.superior w id id') (keyword : Token) :
    superParts σ' id' keyword = superParts σ id keyword := by
  obtain ⟨inner, inner', found, found', within, spans⟩ := h.resolves.superior w id id' superior
  simp only [superParts, found, found', Store.getAt, h.store.lookupAt h.chain spans,
    h.store.lookupAt h.chain within]

theorem superMethod_framed (h : K.InStep G ρ w .value σ σ' pending pending') {id id' : Nat}
    (superior : K.superior w id id') (keyword method : Token) :
    K.Configs G (superMethod id keyword method pending σ)
      (superMethod id' keyword method pending' σ') := by
  unfold superMethod
  rw [superParts_framed h superior]
  cases superParts σ id keyword with
  | error f => exact .failed f h
  | ok parts =>
    obtain ⟨c, i⟩ := parts
    have hm := h.store.findMethod c method.lexeme
    simp only
    generalize σ.store.findMethod c method.lexeme = m, σ'.store.findMethod c method.lexeme = m'
      at hm
    cases hm with
    | none => exact h.fault _ method
    | some framed =>
      obtain ⟨same, ν, onward, stores⟩ := h.store.boundMethod framed i
      simp only [same]
      exact .value _ (h.keep stores onward)

theorem enterBody_framed (h : K.InStep G ρ w .value σ σ' pending pending') {c c' : Closure}
    (framed : Store.CallablesFramed K ρ σ.store σ'.store c c') (arguments : List Value) :
    K.Configs G (enterBody c arguments pending σ) (enterBody c' arguments pending' σ') := by
  obtain ⟨⟨initializes, around, kind, chain, code⟩, receiver⟩ := framed
  obtain ⟨⟨name, params, body⟩, environment, isInitializer⟩ := c
  obtain ⟨⟨name', params', body'⟩, environment', isInitializer'⟩ := c'
  cases code with
  | function content =>
    have deeper : K.InStep G ρ w .value { σ with depth := σ.depth + 1 }
        { σ' with depth := σ'.depth + 1 } pending pending' :=
      { h with depth := congrArg (· + 1) h.depth }
    have inside := deeper.enter .exit chain (parameterBindings params arguments)
      fun τ τ' ν onward e e' => .settled (.frame (.sequence content) (.settled
        (.body initializes (fun hi => onward.pairs _ _ (receiver hi)) (h.chain.onward onward)
          (h.waiting.onward onward))))
    exact .completed .normal inside

theorem construct_framed (h : K.InStep G ρ w .value σ σ' pending pending') (c : ClassId)
    (arguments : List Value) :
    K.Configs G (construct c arguments pending σ) (construct c arguments pending' σ') := by
  have onward : Onward σ.store σ'.store ρ (σ.store.addInstance c) (σ'.store.addInstance c) ρ :=
    .of_environments ρ rfl rfl
  have added := h.keep (h.store.addInstance c) onward
  have next : σ'.store.nextInstance = σ.store.nextInstance := by
    rw [Store.nextInstance, h.store.instances, Store.nextInstance]
  have hm := h.store.findMethod c initializerName
  unfold construct
  generalize σ.store.findMethod c initializerName = m,
    σ'.store.findMethod c initializerName = m' at hm
  cases hm with
  | none =>
    simp only [next]
    exact .value _ added
  | some framed =>
    obtain ⟨ν, bound, stores, callables⟩ :=
      added.store.bind (framed.onward onward) σ.store.nextInstance
    have ready := (added.keep stores bound).push (.construction σ.store.nextInstance)
    simp only [next]
    exact enterBody_framed ready callables arguments

theorem apply_framed (h : K.InStep G ρ w .value σ σ' pending pending') (callee : Value)
    (paren : Token) (arguments : List Value) :
    K.Configs G (apply callee paren arguments pending σ)
      (apply callee paren arguments pending' σ') := by
  cases callee with
  | native function =>
    cases function
    simp only [apply, h.clock]
    exact .value _ { h with clock := rfl }
  | functionRef i =>
    have hc := h.store.functions i
    simp only [apply]
    generalize σ.store.functions[i]? = c, σ'.store.functions[i]? = c' at hc
    cases hc with
    | none => exact h.fault _ paren
    | some framed => exact enterBody_framed h framed arguments
  | classRef c => exact construct_framed h c arguments
  | _ => exact h.fault _ paren

theorem call_framed (h : K.InStep G ρ w .value σ σ' pending pending') (callee : Value)
    (paren : Token) (arguments : List Value) :
    K.Configs G (call callee paren arguments pending σ)
      (call callee paren arguments pending' σ') := by
  unfold call
  rw [h.store.arity, h.depth]
  split
  · exact h.fault _ paren
  · split
    · exact h.fault _ paren
    · split
      · exact h.fault _ paren
      · exact apply_framed h callee paren arguments

theorem nextArgument_framed (h : K.InStep G ρ w .value σ σ' pending pending') (callee : Value)
    (paren : Token) (before : List Value) {after after' : List Expr}
    (listed : K.Framed w (.exprs after) (.exprs after')) :
    K.Configs G (nextArgument callee paren before after pending σ)
      (nextArgument callee paren before after' pending' σ') := by
  cases listed with
  | noExprs => exact call_framed h callee paren before.reverse
  | moreExprs first rest => exact .evaluate (h.push (.argument rest)) first

/-! ## Assignments and declarations -/

/-- Binding a name in the environments in use, where both programs declare. -/
theorem define_framed (h : K.InStep G ρ w k σ σ' pending pending') (opens : Open w) (name : String)
    (v : Value) : K.InStep G ρ w k (σ.define name v) (σ'.define name v) pending pending' :=
  h.keep (h.store.define (h.chain.paired h.store.globals opens) name v) (.define _ _ _ _ _ _ _)

theorem assign_framed (h : K.InStep G ρ w .value σ σ' pending pending') {id id' : Nat}
    (occurs : K.occurs w id id') (name : Token) (v : Value) :
    K.Configs G (assign id name v pending σ) (assign id' name v pending' σ') := by
  have found := h.resolves.occurs w id id' occurs
  unfold assign
  generalize σ.distances[id]? = d, σ'.distances[id']? = d' at found
  cases found with
  | some spans =>
    have ancestors := h.store.ancestor h.chain spans
    simp only [Store.assignAt]
    generalize σ.store.ancestor? σ.current _ = a, σ'.store.ancestor? σ'.current _ = a' at ancestors
    cases ancestors with
    | none => exact .failed _ h
    | @some a a' paired =>
      simp only [Option.filter_some, h.store.bound a a' paired]
      cases (σ.store.local? a name.lexeme).isSome with
      | false => exact .failed _ h
      | true =>
        exact .value v (h.keep (h.store.define paired name.lexeme v) (.define _ _ _ _ _ _ _))
  | none =>
    simp only [Store.assign, h.store.owner_globals_eq]
    rw [Store.EnvironmentsAlike.owner_globals h.store.outermost
      (h.store.made _ _ h.store.globals).1]
    cases (σ.store.local? State.globals name.lexeme).isSome with
    | false => exact .failed _ h
    | true =>
      exact .value v
        (h.keep (h.store.define h.store.globals name.lexeme v) (.define _ _ _ _ _ _ _))

/-- The methods of a class are entered under the same names. -/
theorem methodTable_framed {around : Shape} {environment environment' : EnvironmentId}
    {methods methods' : List FunctionDecl} {τ τ' : Store}
    (chain : Chain τ τ' ρ environment environment' around)
    (listed : K.Framed (.both :: around) (.functions methods) (.functions methods'))
    (name : String) :
    Option.Rel (Store.ClosuresFramed K ρ τ τ' [.both]) ((methodTable environment methods).get? name)
      ((methodTable environment' methods').get? name) := by
  have along {b b' : Bindings Closure}
      (hb : Option.Rel (Store.ClosuresFramed K ρ τ τ' [.both]) (b.get? name) (b'.get? name)) :
      Option.Rel (Store.ClosuresFramed K ρ τ τ' [.both])
        ((methods.foldl (fun b decl =>
          b.insert decl.name.lexeme ⟨decl, environment, decl.isInitializer⟩) b).get? name)
        ((methods'.foldl (fun b decl =>
          b.insert decl.name.lexeme ⟨decl, environment', decl.isInitializer⟩) b').get? name) := by
    induction methods generalizing methods' b b' with
    | nil =>
      cases listed
      exact hb
    | cons decl methods ih =>
      cases listed with
      | @moreFunctions _ _ decl' _ methods' first rest =>
        refine ih rest ?_
        have same := first.function_same.1
        simp only [Bindings.get?_insert, same]
        split
        · refine .some ⟨?_, around, _, chain, first⟩
          simp only [FunctionDecl.isInitializer, same]
        · exact hb
  exact along .none

theorem finishClass_framed (h : K.InStep G ρ w .exit σ σ' pending pending') (opens : Open w)
    {name : Token} {v : Value} (bound : σ.store.local? σ.current name.lexeme = some v)
    (parent : Option ClassId) {methods methods' : List FunctionDecl} {around : Shape}
    {environment environment' : EnvironmentId}
    (chain : Chain σ.store σ'.store ρ environment environment' around)
    (listed : K.Framed (.both :: around) (.functions methods) (.functions methods')) :
    K.Configs G (finishClass name parent methods environment pending σ)
      (finishClass name parent methods' environment' pending' σ') := by
  have paired := h.chain.paired h.store.globals opens
  have classes : Store.ClassesFramed K ρ σ.store σ'.store
      ⟨name.lexeme, parent, methodTable environment methods⟩
      ⟨name.lexeme, parent, methodTable environment' methods'⟩ :=
    ⟨rfl, rfl, methodTable_framed chain listed⟩
  have made := h.keep (h.store.addClass classes) (.of_environments ρ rfl rfl)
  have bound' : σ'.store.local? σ'.current name.lexeme = some v := by
    rw [h.store.bound _ _ paired]
    exact bound
  have next : σ'.store.nextClass = σ.store.nextClass := h.store.classCount
  have owner := Store.owner_of_bound (σ := σ.store.addClass
    ⟨name.lexeme, parent, methodTable environment methods⟩) bound
  have owner' := Store.owner_of_bound (σ := σ'.store.addClass
    ⟨name.lexeme, parent, methodTable environment' methods'⟩) bound'
  have kept := define_framed made opens name.lexeme (.classRef σ.store.nextClass)
  simp only [finishClass, Store.assign, owner, owner', next]
  exact .completed .normal kept

theorem declareClass_framed (h : K.InStep G ρ w .exit σ σ' pending pending') (opens : Open w)
    {name : Token} {v : Value} (bound : σ.store.local? σ.current name.lexeme = some v)
    {methods methods' : List FunctionDecl} (parent : Option ClassId)
    (listed : K.Framed (.both :: (parent.map fun _ => Layer.both).toList ++ w)
      (.functions methods) (.functions methods')) :
    K.Configs G (declareClass name parent methods pending σ)
      (declareClass name parent methods' pending' σ') := by
  cases parent with
  | none => exact finishClass_framed h opens bound none h.chain listed
  | some c =>
    let superior := Bindings.empty.insert superName (Value.classRef c)
    have onward := Onward.addEnvironment σ.store σ'.store ρ (some σ.current) (some σ'.current)
      superior
    have added := h.keep (h.store.addEnvironment σ.current σ'.current superior) onward
    obtain ⟨w, bound⟩ := onward.kept _ _ v bound
    exact finishClass_framed added opens bound (some c) (h.chain.enter superior) listed

/-! ## Steps -/

theorem print_framed (h : K.InStep G ρ w .exit σ σ' pending pending') (v : Value) :
    K.Configs G (print v pending σ) (print v pending' σ') := by
  simp only [print, h.store.display, h.sink]
  split
  · exact .completed .normal { h with sink := rfl }
  · exact .failed _ { h with sink := rfl }

theorem evaluate_framed (h : K.InStep G ρ w .value σ σ' pending pending') {e e' : Expr}
    (code : K.Framed w (.expr e) (.expr e')) :
    K.Configs G (evaluate e pending σ) (evaluate e' pending' σ') := by
  cases code with
  | assign occurs assigned => exact .evaluate (h.push (.assignment occurs)) assigned
  | binary before after => exact .evaluate (h.push (.rightOperand after)) before
  | call called listed => exact .evaluate (h.push (.callee listed)) called
  | get owner => exact .evaluate (h.push (.property _)) owner
  | grouping content => exact .evaluate h content
  | literal value => exact .value _ h
  | logical before after => exact .evaluate (h.push (.decision after)) before
  | set owner assigned => exact .evaluate (h.push (.target assigned)) owner
  | superRef superior => exact superMethod_framed h superior _ _
  | thisRef occurs =>
    simp only [evaluate, h.lookup occurs]
    exact h.ofExcept _
  | unary operand => exact .evaluate (h.push (.negation _)) operand
  | var occurs =>
    simp only [evaluate, h.lookup occurs]
    exact h.ofExcept _

/-- Executing a statement of the second program may take more steps, those that enter the blocks
around the statement that it has more than the first one. -/
theorem execute_framed {w : Shape} {σ' : State} {pending' : List Pending}
    (h : K.InStep G ρ w .exit σ σ' pending pending') {s s' : Stmt}
    (code : K.Framed w (.stmt s) (.stmt s')) :
    ∃ n, K.Configs G (execute s pending σ) (Config.run n (execute s' pending' σ')) := by
  have made := h.chain.made (h.store.made _ _ h.store.globals).1
  cases code with
  | wrapped content =>
    obtain ⟨n, configs⟩ := execute_framed h.enterRight content
    exact ⟨n + 2, by rwa [Nat.add_comm, Config.run_add]⟩
  | block content =>
    have inside := h.enter .exit h.chain .empty fun τ τ' ν onward e e' =>
      .settled (.frame (.sequence content) (.settled
        (.restoration (h.chain.onward onward) (h.waiting.onward onward))))
    exact ⟨0, .completed .normal inside⟩
  | @baseClass _ name _ _ opens listed =>
    have declared := define_framed h opens name.lexeme .nil
    exact ⟨0, declareClass_framed declared opens (bound_define .nil made) none listed⟩
  | @derivedClass _ name _ _ _ _ _ opens inherits listed =>
    have declared := define_framed h opens name.lexeme .nil
    exact ⟨0, .evaluate
      (declared.push (.superclass opens ⟨.nil, bound_define .nil made⟩ listed)) (.var inherits)⟩
  | expression evaluated => exact ⟨0, .evaluate (h.push .discard) evaluated⟩
  | @functionDecl _ name params body body' opens declared =>
    have closures : Store.CallablesFramed K ρ σ.store σ'.store
        ⟨⟨name, params, body⟩, σ.current, false⟩ ⟨⟨name, params, body'⟩, σ'.current, false⟩ :=
      ⟨⟨rfl, w, .function, h.chain, declared⟩, nofun⟩
    have made := h.keep (h.store.addFunction closures) (.of_environments ρ rfl rfl)
    have next : σ'.store.nextFunction = σ.store.nextFunction := h.store.functionCount
    refine ⟨0, ?_⟩
    simp only [execute, next]
    exact .completed .normal (define_framed made opens _ _)
  | ifThen tested chosen => exact ⟨0, .evaluate (h.push (.branch chosen .none)) tested⟩
  | ifElse tested chosen alternated =>
    exact ⟨0, .evaluate (h.push (.branch chosen (.some alternated))) tested⟩
  | print evaluated => exact ⟨0, .evaluate (h.push .printing) evaluated⟩
  | bareReturn keyword => exact ⟨0, .completed _ h⟩
  | returnWith evaluated => exact ⟨0, .evaluate (h.push .returning) evaluated⟩
  | bareVariable opens name => exact ⟨0, .completed .normal (define_framed h opens _ .nil)⟩
  | initializedVariable opens initialized =>
    exact ⟨0, .evaluate (h.push (.definition opens _)) initialized⟩
  | whileLoop tested repeated => exact ⟨0, .evaluate (h.push (.loopTest tested repeated)) tested⟩
termination_by sizeOf s'

/-- A value is given to what waits in both runs. -/
theorem resume_framed {first first' : Pending}
    (h : K.InStep G ρ w .value σ σ' (first :: pending) (first' :: pending')) (v : Value) :
    K.Configs G (resume v first pending σ) (resume v first' pending' σ') := by
  cases hw : h.waiting with
  | frame frame next =>
    have ready := h.waitFor next
    cases frame with
    | assignment occurs => exact assign_framed ready occurs _ v
    | rightOperand operand => exact .evaluate (ready.push (.operation _ _)) operand
    | operation left operator => exact ready.result (binary_result operator left v)
    | callee listed => exact nextArgument_framed ready v _ [] listed
    | argument listed => exact nextArgument_framed ready _ _ _ listed
    | property name => exact property_framed ready v name
    | decision operand =>
      simp only [resume]
      split
      · exact .value v ready
      · exact .evaluate ready operand
    | target assigned =>
      cases v with
      | instanceRef i => exact .evaluate (ready.push (.field i _)) assigned
      | _ => exact ready.fault _ _
    | field object name =>
      have onward : Onward σ.store σ'.store ρ (σ.store.setField object name.lexeme v)
          (σ'.store.setField object name.lexeme v) ρ :=
        .of_environments ρ (σ.store.setField_rest object name.lexeme v).1
          (σ'.store.setField_rest object name.lexeme v).1
      exact .value v (ready.keep (ready.store.setField object name.lexeme v) onward)
    | negation operator => exact ready.result (unary_result operator v)
    | construction object => exact .value _ ready
    | discard => exact .completed .normal ready
    | branch chosen alternated =>
      simp only [resume]
      split
      · exact .execute ready chosen
      · cases alternated with
        | none => exact .completed .normal ready
        | some alternated => exact .execute ready alternated
    | printing => exact print_framed ready v
    | returning => exact .completed _ ready
    | definition opens name => exact .completed .normal (define_framed ready opens _ v)
    | superclass opens bound listed =>
      cases v with
      | classRef c =>
        obtain ⟨u, hb⟩ := bound
        exact declareClass_framed ready opens hb (some c) listed
      | _ => exact ready.fault _ _
    | loopTest tested repeated =>
      simp only [resume]
      split
      · exact .execute (ready.push (.loopBody tested repeated)).settle repeated
      · exact .completed .normal ready

/-- The second run leaves the blocks that the first program lacks, one after the other. -/
theorem Numbering.InStep.leave {w : Shape} {σ' : State} {pending' : List Pending}
    (h : K.InStep G ρ w .exit σ σ' pending pending') :
    ∃ n w' τ' rest', K.InStep G ρ w' .completion σ τ' pending rest' ∧
      (∀ c, Config.run n ⟨.completed c, pending', σ'⟩ = ⟨.completed c, rest', τ'⟩) ∧
        ∀ f, Config.run n ⟨.failed f, pending', σ'⟩ = ⟨.failed f, rest', τ'⟩ := by
  cases hw : h.waiting with
  | settled waiting => exact ⟨0, w, σ', pending', h.waitFor waiting, fun _ => rfl, fun _ => rfl⟩
  | @added _ _ outer' _ around _ rest' chain next =>
    have outside : K.InStep G ρ around .exit σ { σ' with current := outer' } pending rest' :=
      { h with chain, waiting := next }
    obtain ⟨n, w', τ', rest, inStep, completes, fails⟩ := outside.leave
    refine ⟨2 + n, w', τ', rest, inStep, fun c => ?_, fun f => ?_⟩
    · rw [Config.run_add]
      have leaving : Config.run 2 ⟨.completed c, .sequence [] :: .restoration outer' :: rest', σ'⟩ =
          ⟨.completed c, rest', { σ' with current := outer' }⟩ := by
        cases c <;> rfl
      rw [leaving, completes]
    · rw [Config.run_add]
      exact fails f
  | nothing settled => exact absurd rfl settled
  | frame frame => cases frame
termination_by pending'.length

/-- A fault leaves these blocks as well. -/
theorem Numbering.InStep.leaveFailed (h : K.InStep G ρ w k σ σ' pending pending') (f : Fault) :
    ∃ n w' k' τ' rest', K.InStep G ρ w' k' σ τ' pending rest' ∧ k' ≠ .exit ∧
      Config.run n ⟨.failed f, pending', σ'⟩ = ⟨.failed f, rest', τ'⟩ := by
  cases k with
  | exit =>
    obtain ⟨n, w', τ', rest', settled, _, fails⟩ := h.leave
    exact ⟨n, w', .completion, τ', rest', settled, nofun, fails f⟩
  | value => exact ⟨0, w, .value, σ', pending', h, nofun, rfl⟩
  | completion => exact ⟨0, w, .completion, σ', pending', h, nofun, rfl⟩

theorem bodyResult_framed (h : K.InStep G ρ w k σ σ' pending pending') {closure closure' : Closure}
    (initializes : closure'.isInitializer = closure.isInitializer)
    (receiver : closure.isInitializer = true → ρ closure.environment closure'.environment)
    (c : Completion) : bodyResult σ'.store closure' c = bodyResult σ.store closure c := by
  unfold bodyResult
  rw [initializes]
  split
  · next hi => rw [h.store.bound _ _ (receiver hi)]
  · rfl

theorem proceed_framed {first first' : Pending}
    (h : K.InStep G ρ w .completion σ σ' (first :: pending) (first' :: pending')) (c : Completion) :
    K.Configs G (proceed c first pending σ) (proceed c first' pending' σ') := by
  cases hw : h.waiting with
  | restoration chain next => exact .completed c { h with chain, waiting := next }
  | body initializes receiver chain next =>
    simp only [proceed, bodyResult_framed h initializes receiver, h.depth]
    exact .value _ { h with depth := rfl, chain, waiting := next }
  | frame frame next =>
    have ready := h.waitFor next
    cases frame with
    | loopBody tested repeated =>
      cases c with
      | normal => exact .evaluate (ready.push (.loopTest tested repeated)) tested
      | returned v => exact .completed _ ready
    | sequence content =>
      cases content with
      | noStmts => cases c <;> exact .completed _ ready
      | moreStmts first rest =>
        cases c with
        | normal => exact .execute (ready.push (.sequence rest)).settle first
        | returned v => exact .completed _ ready
    | program content =>
      cases content with
      | noStmts => exact .completed .normal ready
      | moreStmts first rest => exact .execute (ready.push (.program rest)).settle first

theorem unwind_framed {first first' : Pending}
    (h : K.InStep G ρ w k σ σ' (first :: pending) (first' :: pending')) (settled : k ≠ .exit)
    (f : Fault) :
    K.Configs G (unwind f first pending σ) (unwind f first' pending' σ') := by
  cases hw : h.waiting with
  | restoration chain next => exact .failed f { h with chain, waiting := next }
  | body initializes receiver chain next =>
    simp only [unwind, h.depth]
    exact .failed f { h with depth := rfl, chain, waiting := next }
  | frame frame next =>
    have ready := h.waitFor next
    cases frame <;> exact .failed f ready
  | settled => exact absurd rfl settled
  | added => exact absurd rfl settled

/-- Both wait for nothing, or something waits in both runs. -/
theorem Numbering.Waiting.cases {τ τ' : Store} {e e' : EnvironmentId}
    (h : K.Waiting G τ τ' ρ k e e' w pending pending') (settled : k ≠ .exit) :
    pending = [] ∧ pending' = [] ∨
      ∃ first rest first' rest', pending = first :: rest ∧ pending' = first' :: rest' := by
  cases h with
  | nothing => exact .inl ⟨rfl, rfl⟩
  | settled => exact absurd rfl settled
  | added => exact absurd rfl settled
  | frame | restoration | body => exact .inr ⟨_, _, _, _, rfl, rfl⟩

end

namespace Numbering.Configs

variable {K : Numbering} {G : Ground} {c c' : Config}

/-- A step of the first run is one or more steps of the second one. -/
theorem step (h : K.Configs G c c') : ∃ n, 1 ≤ n ∧ K.Configs G c.step (c'.run n) := by
  have one (d : Config) : d.run 1 = d.step := Config.run_succ 0 d
  cases h with
  | evaluate inStep code => exact ⟨1, Nat.le_refl 1, evaluate_framed inStep code⟩
  | @execute _ _ _ σ' _ pending' _ s' inStep code =>
    obtain ⟨n, configs⟩ := execute_framed inStep code
    exact ⟨1 + n, Nat.le_add_right 1 n, by rwa [Config.run_add, one]⟩
  | value v inStep =>
    refine ⟨1, Nat.le_refl 1, ?_⟩
    rw [one]
    rcases inStep.waiting.cases nofun with ⟨rfl, rfl⟩ | ⟨_, _, _, _, rfl, rfl⟩
    · exact .value v inStep
    · exact resume_framed inStep v
  | completed c inStep =>
    obtain ⟨n, w', τ', rest', settled, completes, _⟩ := inStep.leave
    refine ⟨n + 1, Nat.le_add_left 1 n, ?_⟩
    rw [Config.run_succ, completes]
    rcases settled.waiting.cases nofun with ⟨rfl, rfl⟩ | ⟨_, _, _, _, rfl, rfl⟩
    · exact .completed c settled.settle
    · exact proceed_framed settled c
  | failed f inStep =>
    obtain ⟨n, w', k', τ', rest', inStep, other, fails⟩ := inStep.leaveFailed f
    refine ⟨n + 1, Nat.le_add_left 1 n, ?_⟩
    rw [Config.run_succ, fails]
    rcases inStep.waiting.cases other with ⟨rfl, rfl⟩ | ⟨_, _, _, _, rfl, rfl⟩
    · exact .failed f inStep
    · exact unwind_framed inStep other f

/-- However long the first run is, the second one comes to the same place, in as many steps or
more. -/
theorem run (h : K.Configs G c c') (n : Nat) : ∃ m, n ≤ m ∧ K.Configs G (c.run n) (c'.run m) := by
  induction n with
  | zero => exact ⟨0, Nat.le_refl 0, h⟩
  | succ n ih =>
    obtain ⟨m, le, configs⟩ := ih
    obtain ⟨k, pos, next⟩ := configs.step
    exact ⟨m + k, Nat.add_le_add le pos, by rwa [Config.run_succ, Config.run_add]⟩

theorem sink (h : K.Configs G c c') : c'.state.sink = c.state.sink := by
  cases h with
  | evaluate inStep | execute inStep | value _ inStep | completed _ inStep | failed _ inStep =>
    exact inStep.sink

/-! ## Ends -/

/-- Once the first run has ended the second one has only blocks to leave. -/
theorem finish (h : K.Configs G c c') (done : c.finished = true) :
    ∃ n, (c'.run n).finished = true ∧ K.Configs G c (c'.run n) := by
  cases h with
  | evaluate | execute => cases done
  | value v inStep =>
    obtain rfl := List.isEmpty_iff.mp done
    rcases inStep.waiting.cases nofun with ⟨-, rfl⟩ | ⟨_, _, _, _, he, _⟩
    · exact ⟨0, rfl, .value v inStep⟩
    · cases he
  | completed c inStep =>
    obtain rfl := List.isEmpty_iff.mp done
    obtain ⟨n, w', τ', rest', settled, completes, _⟩ := inStep.leave
    rcases settled.waiting.cases nofun with ⟨-, rfl⟩ | ⟨_, _, _, _, he, _⟩
    · exact ⟨n, by rw [completes]; rfl, by rw [completes]; exact .completed c settled.settle⟩
    · cases he
  | failed f inStep =>
    obtain rfl := List.isEmpty_iff.mp done
    obtain ⟨n, w', k', τ', rest', settled, other, fails⟩ := inStep.leaveFailed f
    rcases settled.waiting.cases other with ⟨-, rfl⟩ | ⟨_, _, _, _, he, _⟩
    · exact ⟨n, by rw [fails]; rfl, by rw [fails]; exact .failed f settled⟩
    · cases he

/-- Where the second run has ended the first one has as well, and with the same result. -/
theorem results (h : K.Configs G c c') (done' : c'.finished = true) :
    ∃ ρ w k control σ σ', k.Gets control ∧ G.ends k σ.current σ'.current w ∧
      K.InStep G ρ w k σ σ' [] [] ∧ c = ⟨control, [], σ⟩ ∧ c' = ⟨control, [], σ'⟩ := by
  have last {ρ : Pairing} {w : Shape} {k : Expected} {σ σ' : State} {pending : List Pending}
      (inStep : K.InStep G ρ w k σ σ' pending []) (other : k ≠ .exit) :
      pending = [] ∧ G.ends k σ.current σ'.current w := by
    cases hw : inStep.waiting with
    | nothing _ ends => exact ⟨rfl, ends⟩
    | settled => exact absurd rfl other
  have settle {ρ : Pairing} {w : Shape} {σ σ' : State} {pending : List Pending}
      (inStep : K.InStep G ρ w .exit σ σ' pending []) :
      K.InStep G ρ w .completion σ σ' pending [] := by
    cases hw : inStep.waiting with
    | settled waiting => exact inStep.waitFor waiting
    | nothing other => exact absurd rfl other
  cases h with
  | evaluate | execute => cases done'
  | value v inStep =>
    obtain rfl := List.isEmpty_iff.mp done'
    obtain ⟨rfl, ends⟩ := last inStep nofun
    exact ⟨_, _, .value, _, _, _, .value v, ends, inStep, rfl, rfl⟩
  | completed c inStep =>
    obtain rfl := List.isEmpty_iff.mp done'
    obtain ⟨rfl, ends⟩ := last (settle inStep) nofun
    exact ⟨_, _, .completion, _, _, _, .completion c, ends, settle inStep, rfl, rfl⟩
  | @failed _ _ k _ _ _ _ f inStep =>
    obtain rfl := List.isEmpty_iff.mp done'
    cases k with
    | exit =>
      obtain ⟨rfl, ends⟩ := last (settle inStep) nofun
      exact ⟨_, _, .completion, _, _, _, .fault _ f, ends, settle inStep, rfl, rfl⟩
    | value | completion =>
      obtain ⟨rfl, ends⟩ := last inStep nofun
      exact ⟨_, _, _, _, _, _, .fault _ f, ends, inStep, rfl, rfl⟩

/-- The second run does not end before the first one. -/
theorem finished (h : K.Configs G c c') (done' : c'.finished = true) : c.finished = true := by
  obtain ⟨_, _, _, control, _, _, _, _, _, rfl, rfl⟩ := h.results done'
  cases control <;> exact done'

/-- Two runs that have both ended, ended the same way. -/
theorem ending {own : Option Fault} {σ : State} (h : K.Configs G c c') (done' : c'.finished = true)
    (ends : c.ending? = some (own, σ)) :
    ∃ σ', c'.ending? = some (own, σ') ∧ ∃ ρ w k,
      G.ends k σ.current σ'.current w ∧ K.InStep G ρ w k σ σ' [] [] := by
  obtain ⟨ρ, w, k, control, τ, τ', -, ground, inStep, rfl, rfl⟩ := h.results done'
  have here := h.finished done'
  simp only [Config.ending?, if_pos here, Option.some.injEq, Prod.mk.injEq] at ends
  obtain ⟨rfl, rfl⟩ := ends
  refine ⟨τ', ?_, ρ, w, k, ground, inStep⟩
  simp only [Config.ending?, if_pos done', inStep.sink]

/-- If the first run ends the second one does. -/
theorem ends (h : K.Configs G c c') {fuel : Nat} {own : Option Fault} {σ : State}
    (ends : (c.run fuel).ending? = some (own, σ)) :
    ∃ fuel' σ', (c'.run fuel').ending? = some (own, σ') ∧ ∃ ρ w k,
      G.ends k σ.current σ'.current w ∧ K.InStep G ρ w k σ σ' [] [] := by
  obtain ⟨before, _, configs⟩ := h.run fuel
  obtain ⟨after, done', configs⟩ := configs.finish (Config.finished_of_ending? ends).1
  rw [← Config.run_add] at done' configs
  exact ⟨before + after, configs.ending done' ends⟩

/-- If the second run ends the first one did. -/
theorem ended (h : K.Configs G c c') {fuel : Nat} {own : Option Fault} {σ' : State}
    (ends' : (c'.run fuel).ending? = some (own, σ')) :
    ∃ σ, (c.run fuel).ending? = some (own, σ) ∧ ∃ ρ w k,
      G.ends k σ.current σ'.current w ∧ K.InStep G ρ w k σ σ' [] [] := by
  have done' := (Config.finished_of_ending? ends').1
  obtain ⟨later, le, configs⟩ := h.run fuel
  have last : c'.run later = c'.run fuel := by
    rw [← Nat.add_sub_cancel' le, Config.run_add, Config.run_of_finished done']
  rw [last] at configs
  obtain ⟨r, ends⟩ : ∃ r, (c.run fuel).ending? = some r := by
    rw [Config.ending?, if_pos (configs.finished done')]
    exact ⟨_, rfl⟩
  obtain ⟨own', σ⟩ := r
  obtain ⟨_, again, inStep⟩ := configs.ending done' ends
  rw [ends'] at again
  cases again
  exact ⟨σ, ends, inStep⟩

end Numbering.Configs

end Lox
