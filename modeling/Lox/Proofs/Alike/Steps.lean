import Lox.Proofs.Alike.Stores
import Lox.Machine.Run

/-!
# Runs of programs that are alike

A step of the machine on one of two configurations that are alike is a step on the other, and they
are alike again. So two programs that are alike go on in step for as long as they run. The second
program may have more statements at its end; it goes on with them where the first one is over.
-/
namespace Lox

open Scope (Part thisName superName)
open Store (Spells Later)

/-! ## What corresponds -/

namespace Link

variable (L : Link)

/-- The name that is reported as unresolved is spelled as in its scope. -/
inductive Causes : RuntimeCause → RuntimeCause → Prop where
  | same (cause : RuntimeCause) : Causes cause cause
  | unresolved {name : String} {f : Spelling} (spelling : L.spellings f) (named : L.names name) :
      Causes (.unresolvedVariable name) (.unresolvedVariable (f name))

inductive Faults : Fault → Fault → Prop where
  | runtime {cause cause' : RuntimeCause} {line line' : Nat} (causes : L.Causes cause cause')
      (lines : L.lines line line') : Faults (.runtime cause line) (.runtime cause' line')
  | output (cause : OutputCause) : Faults (.output cause) (.output cause)

inductive Results {α : Type} : Except Fault α → Except Fault α → Prop where
  | ok (v : α) : Results (.ok v) (.ok v)
  | error {f f' : Fault} (faults : L.Faults f f') : Results (.error f) (.error f')

/-- What waits in both runs and goes on in the environment `e`. -/
inductive Frame (σ : Store) (e : EnvironmentId) (fs : List Spelling) :
    Pending → Pending → Prop where
  | assignment {id id' : Nat} {name name' : Token} (occurs : L.Occurs fs id name id' name') :
      Frame σ e fs (.assignment id name) (.assignment id' name')
  | rightOperand {operator operator' : Token} {right right' : Expr}
      (operates : L.Same operator operator') (operand : L.Alike fs (.expr right) (.expr right')) :
      Frame σ e fs (.rightOperand operator right) (.rightOperand operator' right')
  | operation {left : Value} {operator operator' : Token} (operates : L.Same operator operator') :
      Frame σ e fs (.operation left operator) (.operation left operator')
  | callee {paren paren' : Token} {arguments arguments' : List Expr} (closed : L.Same paren paren')
      (listed : L.Alike fs (.exprs arguments) (.exprs arguments')) :
      Frame σ e fs (.callee paren arguments) (.callee paren' arguments')
  | argument {callee : Value} {paren paren' : Token} {before : List Value}
      {after after' : List Expr} (closed : L.Same paren paren')
      (listed : L.Alike fs (.exprs after) (.exprs after')) :
      Frame σ e fs (.argument callee paren before after) (.argument callee paren' before after')
  | property {name name' : Token} (named : L.Same name name') :
      Frame σ e fs (.property name) (.property name')
  | decision {operator operator' : Token} {right right' : Expr}
      (operates : L.Same operator operator') (operand : L.Alike fs (.expr right) (.expr right')) :
      Frame σ e fs (.decision operator right) (.decision operator' right')
  | target {name name' : Token} {value value' : Expr} (named : L.Same name name')
      (assigned : L.Alike fs (.expr value) (.expr value')) :
      Frame σ e fs (.target name value) (.target name' value')
  | field {object : InstanceId} {name name' : Token} (named : L.Same name name') :
      Frame σ e fs (.field object name) (.field object name')
  | negation {operator operator' : Token} (operates : L.Same operator operator') :
      Frame σ e fs (.negation operator) (.negation operator')
  | discard : Frame σ e fs .discard .discard
  | branch {thenBranch thenBranch' : Stmt} {elseBranch elseBranch' : Option Stmt}
      (chosen : L.Alike fs (.stmt thenBranch) (.stmt thenBranch'))
      (alternated : Option.Rel (fun s s' => L.Alike fs (.stmt s) (.stmt s'))
        elseBranch elseBranch') :
      Frame σ e fs (.branch thenBranch elseBranch) (.branch thenBranch' elseBranch')
  | printing : Frame σ e fs .printing .printing
  | returning : Frame σ e fs .returning .returning
  | definition {name name' : Token} (named : L.Spelled (spellingHere fs) name name') :
      Frame σ e fs (.definition name) (.definition name')
  | superclass {name name' parent parent' : Token} {number number' : Nat}
      {methods methods' : List FunctionDecl} (named : L.Kept (spellingHere fs) name name')
      (bound : ∃ v, σ.local? e name.lexeme = some v)
      (inherits : L.lines parent.line parent'.line)
      (listed : L.Alike (id :: id :: fs) (.functions methods) (.functions methods')) :
      Frame σ e fs (.superclass name (.var number parent) methods)
        (.superclass name' (.var number' parent') methods')
  | construction (object : InstanceId) : Frame σ e fs (.construction object) (.construction object)
  | loopTest {condition condition' : Expr} {body body' : Stmt}
      (tested : L.Alike fs (.expr condition) (.expr condition'))
      (repeated : L.Alike fs (.stmt body) (.stmt body')) :
      Frame σ e fs (.loopTest condition body) (.loopTest condition' body')
  | loopBody {condition condition' : Expr} {body body' : Stmt}
      (tested : L.Alike fs (.expr condition) (.expr condition'))
      (repeated : L.Alike fs (.stmt body) (.stmt body')) :
      Frame σ e fs (.loopBody condition body) (.loopBody condition' body')
  | sequence {body body' : List Stmt} (content : L.Alike fs (.stmts body) (.stmts body')) :
      Frame σ e fs (.sequence body) (.sequence body')

/-- All that waits. Blocks and bodies that end give back an environment with its own spellings; at
its end the second program has `extra` statements more. -/
inductive Waiting (extra : List Stmt) (σ : Store) (μ : Spellings) :
    EnvironmentId → List Spelling → List Pending → List Pending → Prop where
  | nothing {e : EnvironmentId} {fs : List Spelling} : Waiting extra σ μ e fs [] []
  | program {e : EnvironmentId} {statements statements' : List Stmt}
      (content : L.Alike [] (.stmts statements) (.stmts statements')) :
      Waiting extra σ μ e [] [.program statements] [.program (statements' ++ extra)]
  | frame {e : EnvironmentId} {fs : List Spelling} {first first' : Pending}
      {rest rest' : List Pending} (frame : L.Frame σ e fs first first')
      (next : Waiting extra σ μ e fs rest rest') :
      Waiting extra σ μ e fs (first :: rest) (first' :: rest')
  | restoration {e outer : EnvironmentId} {fs around : List Spelling} {rest rest' : List Pending}
      (spells : σ.Spells μ outer around) (next : Waiting extra σ μ outer around rest rest') :
      Waiting extra σ μ e fs (.restoration outer :: rest) (.restoration outer :: rest')
  | body {e caller : EnvironmentId} {fs around : List Spelling} {rest rest' : List Pending}
      {closure closure' : Closure} (environment : closure'.environment = closure.environment)
      (initializes : closure'.isInitializer = closure.isInitializer)
      (spells : σ.Spells μ caller around) (next : Waiting extra σ μ caller around rest rest') :
      Waiting extra σ μ e fs (.body caller closure :: rest) (.body caller closure' :: rest')

/-- Two runs stand at the same place: stores, what waits and the rest of the states correspond,
and the tables have the distances by which occurrences correspond. -/
structure InStep (extra : List Stmt) (μ : Spellings) (fs : List Spelling) (σ σ' : State)
    (pending pending' : List Pending) : Prop where
  store : Store.Alike L μ σ.store σ'.store
  current : σ'.current = σ.current
  depth : σ'.depth = σ.depth
  sink : σ'.sink = σ.sink
  clock : σ'.clock = σ.clock
  distances : ∀ id id' d, L.occurrences id id' d → σ.distances[id]? = d ∧ σ'.distances[id']? = d
  spells : σ.store.Spells μ σ.current fs
  waiting : L.Waiting extra σ.store μ σ.current fs pending pending'

/-- Configurations that are alike. -/
inductive Configs (extra : List Stmt) : Config → Config → Prop where
  | evaluate {μ : Spellings} {fs : List Spelling} {σ σ' : State} {pending pending' : List Pending}
      {e e' : Expr} (inStep : L.InStep extra μ fs σ σ' pending pending')
      (code : L.Alike fs (.expr e) (.expr e')) :
      Configs extra ⟨.evaluate e, pending, σ⟩ ⟨.evaluate e', pending', σ'⟩
  | execute {μ : Spellings} {fs : List Spelling} {σ σ' : State} {pending pending' : List Pending}
      {s s' : Stmt} (inStep : L.InStep extra μ fs σ σ' pending pending')
      (code : L.Alike fs (.stmt s) (.stmt s')) :
      Configs extra ⟨.execute s, pending, σ⟩ ⟨.execute s', pending', σ'⟩
  | value {μ : Spellings} {fs : List Spelling} {σ σ' : State} {pending pending' : List Pending}
      {v : Value} (inStep : L.InStep extra μ fs σ σ' pending pending') :
      Configs extra ⟨.value v, pending, σ⟩ ⟨.value v, pending', σ'⟩
  | completed {μ : Spellings} {fs : List Spelling} {σ σ' : State}
      {pending pending' : List Pending} {c : Completion}
      (inStep : L.InStep extra μ fs σ σ' pending pending') :
      Configs extra ⟨.completed c, pending, σ⟩ ⟨.completed c, pending', σ'⟩
  | failed {μ : Spellings} {fs : List Spelling} {σ σ' : State} {pending pending' : List Pending}
      {f f' : Fault} (inStep : L.InStep extra μ fs σ σ' pending pending')
      (faults : L.Faults f f') :
      Configs extra ⟨.failed f, pending, σ⟩ ⟨.failed f', pending', σ'⟩

end Link

section
variable {L : Link} {extra : List Stmt} {μ ν : Spellings} {fs : List Spelling} {σ σ' : State}
  {pending pending' : List Pending}

theorem Link.Frame.later {e : EnvironmentId} {τ τ' : Store} {first first' : Pending}
    (h : L.Frame τ e fs first first') (later : Later τ μ τ' ν) : L.Frame τ' e fs first first' := by
  cases h with
  | superclass named bound inherits listed =>
    obtain ⟨v, hv⟩ := bound
    exact .superclass named (later.kept _ _ v hv) inherits listed
  | assignment occurs => exact .assignment occurs
  | rightOperand operates operand => exact .rightOperand operates operand
  | operation operates => exact .operation operates
  | callee closed listed => exact .callee closed listed
  | argument closed listed => exact .argument closed listed
  | property named => exact .property named
  | decision operates operand => exact .decision operates operand
  | target named assigned => exact .target named assigned
  | field named => exact .field named
  | negation operates => exact .negation operates
  | discard => exact .discard
  | branch chosen alternated => exact .branch chosen alternated
  | printing => exact .printing
  | returning => exact .returning
  | definition named => exact .definition named
  | construction object => exact .construction object
  | loopTest tested repeated => exact .loopTest tested repeated
  | loopBody tested repeated => exact .loopBody tested repeated
  | sequence content => exact .sequence content

theorem Link.Waiting.later {e : EnvironmentId} {τ τ' : Store}
    (h : L.Waiting extra τ μ e fs pending pending') (later : Later τ μ τ' ν) :
    L.Waiting extra τ' ν e fs pending pending' := by
  induction h with
  | nothing => exact .nothing
  | program content => exact .program content
  | frame frame _ ih => exact .frame (frame.later later) ih
  | restoration spells _ ih => exact .restoration (spells.later later) ih
  | body environment initializes spells _ ih =>
    exact .body environment initializes (spells.later later) ih

namespace Link.InStep

/-- What waits is replaced, the states stay. -/
theorem waitFor {first first' : List Pending} (h : L.InStep extra μ fs σ σ' pending pending')
    (waiting : L.Waiting extra σ.store μ σ.current fs first first') :
    L.InStep extra μ fs σ σ' first first' :=
  { h with waiting }

theorem push {first first' : Pending} (h : L.InStep extra μ fs σ σ' pending pending')
    (frame : L.Frame σ.store σ.current fs first first') :
    L.InStep extra μ fs σ σ' (first :: pending) (first' :: pending') :=
  h.waitFor (.frame frame h.waiting)

/-- The stores are replaced by later ones. -/
theorem keep (h : L.InStep extra μ fs σ σ' pending pending') {τ τ' : Store}
    (alike : Store.Alike L ν τ τ') (later : Later σ.store μ τ ν) :
    L.InStep extra ν fs { σ with store := τ } { σ' with store := τ' } pending pending' where
  store := alike
  current := h.current
  depth := h.depth
  sink := h.sink
  clock := h.clock
  distances := h.distances
  spells := h.spells.later later
  waiting := h.waiting.later later

theorem fault (h : L.InStep extra μ fs σ σ' pending pending') (cause : RuntimeCause)
    {blamed blamed' : Token} (lines : L.lines blamed.line blamed'.line) :
    L.Configs extra ⟨.fault cause blamed, pending, σ⟩ ⟨.fault cause blamed', pending', σ'⟩ :=
  .failed h (.runtime (.same cause) lines)

theorem ofExcept (h : L.InStep extra μ fs σ σ' pending pending') {r r' : Except Fault Value}
    (results : L.Results r r') :
    L.Configs extra ⟨.ofExcept r, pending, σ⟩ ⟨.ofExcept r', pending', σ'⟩ := by
  cases results with
  | ok v => exact .value h
  | error faults => exact .failed h faults

/-- A new environment within one in use. -/
theorem enter (h : L.InStep extra μ fs σ σ' pending pending') {around : List Spelling}
    {enclosing : EnvironmentId} (spells : σ.store.Spells μ enclosing around) {f : Spelling}
    (spelling : L.spellings f) {b b' : Bindings Value} (alike : Store.BindingsAlike L f b b')
    {first first' : List Pending}
    (waiting : ∀ τ ν, Later σ.store μ τ ν → ∀ e, L.Waiting extra τ ν e (f :: around) first first') :
    ∃ ν, L.InStep extra ν (f :: around) (σ.enter enclosing b) (σ'.enter enclosing b')
      first first' := by
  have later := Later.addEnvironment σ.store μ (some enclosing) b f
  have kept := h.keep (h.store.addEnvironment enclosing spelling alike) later
  exact ⟨_, { kept with
    current := h.store.size
    spells := spells.enter f b
    waiting := waiting _ _ later _ }⟩

/-- The name of an occurrence has the same value in both runs. -/
theorem lookup (h : L.InStep extra μ fs σ σ' pending pending') {id id' : Nat} {name name' : Token}
    (occurs : L.Occurs fs id name id' name') : L.Results (σ.lookup id name) (σ'.lookup id' name') := by
  obtain ⟨d, hd, spelled⟩ := occurs
  obtain ⟨found, found'⟩ := h.distances id id' d hd
  unfold State.lookup
  rw [found, found', h.current]
  cases d with
  | some d =>
    simp only [Store.getAt, spelled.lexeme,
      h.store.lookupAt h.spells d spelled.name]
    split
    · exact .ok _
    · have allowed := h.spells.allowed h.store.toEnvironmentsAlike (some d)
      refine .error (.runtime ?_ spelled.line)
      rw [spelled.lexeme]
      exact .unresolved allowed spelled.name
  | none =>
    have same : name'.lexeme = name.lexeme := spelled.lexeme
    simp only [Store.get, same, h.store.get_globals spelled.name]
    split
    · exact .ok _
    · refine .error (.runtime ?_ spelled.line)
      rw [same]
      exact .same _

end Link.InStep

/-! ## Calls and properties -/

theorem property_alike (h : L.InStep extra μ fs σ σ' pending pending') (object : Value)
    {name name' : Token} (named : L.Same name name') :
    L.Configs extra (property object name pending σ) (property object name' pending' σ') := by
  cases object with
  | instanceRef i =>
    have found := h.store.findMethod
    simp only [property, named.lexeme, h.store.field, h.store.instances]
    cases σ.store.field? i name.lexeme with
    | some v => exact .value h
    | none =>
      cases hi : σ.store.instances[i]? with
      | none => exact h.fault _ named.line
      | some object =>
        have hm := h.store.findMethod object.classId name.lexeme
        simp only [Option.bind_some]
        generalize σ.store.findMethod object.classId name.lexeme = m,
          σ'.store.findMethod object.classId name.lexeme = m' at hm
        cases hm with
        | none => exact h.fault _ named.line
        | some alike =>
          obtain ⟨same, ν, later, stores⟩ := h.store.boundMethod alike i
          simp only [same]
          exact .value (h.keep stores later)
  | _ => exact h.fault _ named.line

theorem superParts_alike (h : L.InStep extra μ fs σ σ' pending pending') {id id' : Nat}
    {keyword keyword' : Token} (occurs : L.Occurs fs id keyword id' keyword') :
    L.Results (superParts σ id keyword) (superParts σ' id' keyword') := by
  obtain ⟨d, hd, spelled⟩ := occurs
  obtain ⟨found, found'⟩ := h.distances id id' d hd
  have missing : L.Faults (.runtime (.unresolvedVariable superName) keyword.line)
      (.runtime (.unresolvedVariable superName) keyword'.line) :=
    .runtime (.same _) spelled.line
  unfold superParts
  simp only [found, found', h.current]
  cases d with
  | none => exact .error missing
  | some d =>
    have fixed (inner : Nat) :
        spellingAt fs (some inner) thisName = thisName :=
      (L.keywords thisName (.inl rfl)).2 _ (h.spells.allowed h.store.toEnvironmentsAlike _)
    have receiver (inner : Nat) := h.store.lookupAt h.spells inner (L.keywords thisName (.inl rfl)).1
    simp only [fixed] at receiver
    simp only [Store.getAt, spelled.lexeme, h.store.lookupAt h.spells d spelled.name]
    cases σ.store.lookupAt? σ.current d keyword.lexeme with
    | none =>
      refine .error (.runtime ?_ spelled.line)
      rw [spelled.lexeme]
      exact .unresolved (h.spells.allowed h.store.toEnvironmentsAlike (some d)) spelled.name
    | some v =>
      cases v with
      | classRef c =>
        cases d with
        | zero => exact .error missing
        | succ inner =>
          simp only [receiver]
          split
          · exact .ok _
          · exact .error missing
      | _ => exact .error missing

theorem superMethod_alike (h : L.InStep extra μ fs σ σ' pending pending') {id id' : Nat}
    {keyword keyword' method method' : Token} (occurs : L.Occurs fs id keyword id' keyword')
    (named : L.Same method method') :
    L.Configs extra (superMethod id keyword method pending σ)
      (superMethod id' keyword' method' pending' σ') := by
  have parts := superParts_alike h occurs
  unfold superMethod
  generalize superParts σ id keyword = r, superParts σ' id' keyword' = r' at parts
  cases parts with
  | error faults => exact .failed h faults
  | ok parts =>
    obtain ⟨c, i⟩ := parts
    have hm := h.store.findMethod c method.lexeme
    simp only [named.lexeme]
    generalize σ.store.findMethod c method.lexeme = m, σ'.store.findMethod c method.lexeme = m'
      at hm
    cases hm with
    | none => exact h.fault _ named.line
    | some alike =>
      obtain ⟨same, ν, later, stores⟩ := h.store.boundMethod alike i
      simp only [same]
      exact .value (h.keep stores later)

/-- Parameters are bound to the same arguments, each as it is spelled. -/
theorem bindingsAlike_parameters {f : Spelling} (spelling : L.spellings f) {params params' : List Token}
    (listed : List.Forall₂ (L.Spelled f) params params') (arguments : List Value) :
    Store.BindingsAlike L f (parameterBindings params arguments)
      (parameterBindings params' arguments) := by
  have along {b b' : Bindings Value} (hb : Store.BindingsAlike L f b b') :
      Store.BindingsAlike L f
        ((params.zip arguments).foldl (fun b pair => b.insert pair.1.lexeme pair.2) b)
        ((params'.zip arguments).foldl (fun b pair => b.insert pair.1.lexeme pair.2) b') := by
    induction listed generalizing arguments b b' with
    | nil => exact hb
    | @cons param param' params params' spelled _ ih =>
      cases arguments with
      | nil => exact hb
      | cons v arguments =>
        refine ih arguments fun name hn => ?_
        have same : f name = f param.lexeme ↔ name = param.lexeme :=
          ⟨L.apart _ _ _ _ spelling spelling hn spelled.name, fun he => by rw [he]⟩
        simp only [Bindings.get?_insert, spelled.lexeme, same, hb name hn]
  exact along fun _ _ => rfl

theorem enterBody_alike (h : L.InStep extra μ fs σ σ' pending pending') {c c' : Closure}
    (alike : Store.ClosuresAlike L μ σ.store [] c c') (arguments : List Value) :
    L.Configs extra (enterBody c arguments pending σ) (enterBody c' arguments pending' σ') := by
  obtain ⟨he, hi, around, kind, spells, code⟩ := alike
  obtain ⟨⟨name, params, body⟩, environment, initializes⟩ := c
  obtain ⟨⟨name', params', body'⟩, environment', initializes'⟩ := c'
  obtain rfl : environment' = environment := id he
  cases code with
  | @function f _ _ _ _ _ _ _ _ spelling named listed content =>
    have bindings := bindingsAlike_parameters spelling listed arguments
    have deeper : L.InStep extra μ fs { σ with depth := σ.depth + 1 }
        { σ' with depth := σ'.depth + 1 } pending pending' :=
      { h with depth := congrArg (· + 1) h.depth }
    obtain ⟨ν, inside⟩ := deeper.enter spells spelling bindings fun τ ν later e =>
      .frame (.sequence content)
        (.body he hi (h.spells.later later) (h.waiting.later later))
    rw [enterBody, enterBody, h.current]
    exact .completed inside

theorem construct_alike (h : L.InStep extra μ fs σ σ' pending pending') (c : ClassId)
    (arguments : List Value) :
    L.Configs extra (construct c arguments pending σ) (construct c arguments pending' σ') := by
  have added := h.keep (h.store.addInstance c) (.of_environments rfl)
  have next : σ'.store.nextInstance = σ.store.nextInstance := by
    rw [Store.nextInstance, h.store.instances, Store.nextInstance]
  have hm := h.store.findMethod c initializerName
  unfold construct
  generalize σ.store.findMethod c initializerName = m,
    σ'.store.findMethod c initializerName = m' at hm
  cases hm with
  | none =>
    simp only [next]
    exact .value added
  | some alike =>
    have later : Later σ.store μ (σ.store.addInstance c) μ := .of_environments rfl
    obtain ⟨ν, bound, stores, closures⟩ :=
      added.store.bind (alike.later later) σ.store.nextInstance
    have ready := (added.keep stores bound).push (.construction σ.store.nextInstance)
    simp only [next]
    exact enterBody_alike ready closures arguments

theorem apply_alike (h : L.InStep extra μ fs σ σ' pending pending') (callee : Value)
    {paren paren' : Token} (closed : L.Same paren paren') (arguments : List Value) :
    L.Configs extra (apply callee paren arguments pending σ)
      (apply callee paren' arguments pending' σ') := by
  cases callee with
  | native function =>
    cases function
    simp only [apply, h.clock]
    exact .value { h with clock := rfl }
  | functionRef i =>
    have hc := h.store.functions i
    simp only [apply]
    generalize σ.store.functions[i]? = c, σ'.store.functions[i]? = c' at hc
    cases hc with
    | none => exact h.fault _ closed.line
    | some alike => exact enterBody_alike h alike arguments
  | classRef c => exact construct_alike h c arguments
  | _ => exact h.fault _ closed.line

theorem call_alike (h : L.InStep extra μ fs σ σ' pending pending') (callee : Value)
    {paren paren' : Token} (closed : L.Same paren paren') (arguments : List Value) :
    L.Configs extra (call callee paren arguments pending σ)
      (call callee paren' arguments pending' σ') := by
  unfold call
  rw [h.store.arity, h.depth]
  split
  · exact h.fault _ closed.line
  · split
    · exact h.fault _ closed.line
    · split
      · exact h.fault _ closed.line
      · exact apply_alike h callee closed arguments

theorem nextArgument_alike (h : L.InStep extra μ fs σ σ' pending pending') (callee : Value)
    {paren paren' : Token} (closed : L.Same paren paren') (before : List Value)
    {after after' : List Expr} (listed : L.Alike fs (.exprs after) (.exprs after')) :
    L.Configs extra (nextArgument callee paren before after pending σ)
      (nextArgument callee paren' before after' pending' σ') := by
  cases listed with
  | noExprs => exact call_alike h callee closed before.reverse
  | moreExprs first rest => exact .evaluate (h.push (.argument closed rest)) first

/-! ## Assignments and declarations -/

/-- Binding a declared name in the environment in use. -/
theorem define_alike (h : L.InStep extra μ fs σ σ' pending pending') {name name' : Token}
    (named : L.Spelled (spellingHere fs) name name') (v : Value) :
    L.InStep extra μ fs (σ.define name.lexeme v) (σ'.define name'.lexeme v) pending pending' := by
  have spelled : name'.lexeme = μ σ.current name.lexeme := by
    rw [h.spells.here h.store.toEnvironmentsAlike]
    exact named.lexeme
  have kept := h.keep (h.store.define σ.current named.name spelled v) (.define _ _ _ _ _)
  unfold State.define
  rw [h.current] at kept ⊢
  exact kept

theorem assign_alike (h : L.InStep extra μ fs σ σ' pending pending') {id id' : Nat}
    {name name' : Token} (occurs : L.Occurs fs id name id' name') (v : Value) :
    L.Configs extra (assign id name v pending σ) (assign id' name' v pending' σ') := by
  obtain ⟨d, hd, spelled⟩ := occurs
  obtain ⟨found, found'⟩ := h.distances id id' d hd
  have environments := h.store.toEnvironmentsAlike
  unfold assign
  simp only [found, found', h.current]
  cases d with
  | some d =>
    have unresolved : L.Faults (Store.unresolved name) (Store.unresolved name') := by
      rw [Store.unresolved, Store.unresolved, spelled.lexeme]
      exact .runtime (.unresolved (h.spells.allowed environments (some d)) spelled.name)
        spelled.line
    simp only [Store.assignAt, environments.ancestor]
    cases ha : σ.store.ancestor? σ.current d with
    | none => exact .failed h unresolved
    | some a =>
      have here : name'.lexeme = μ a name.lexeme := by
        rw [environments.spelling_of_ancestor h.spells ha]
        exact spelled.lexeme
      simp only [Option.filter_some, here, environments.bound a name.lexeme spelled.name]
      cases (σ.store.local? a name.lexeme).isSome with
      | false => exact .failed h unresolved
      | true =>
        have kept := h.keep (h.store.define a spelled.name rfl v) (.define _ _ _ _ _)
        rw [h.current] at kept
        exact .value kept
  | none =>
    have same : name'.lexeme = name.lexeme := spelled.lexeme
    have plain : name.lexeme = μ State.globals name.lexeme := by
      rw [environments.plain]
      rfl
    simp only [Store.assign, same, environments.owner_globals_eq spelled.name,
      Store.EnvironmentsAlike.owner_globals environments.outermost environments.made]
    cases (σ.store.local? State.globals name.lexeme).isSome with
    | false =>
      refine .failed h (.runtime ?_ spelled.line)
      rw [same]
      exact .same _
    | true =>
      have kept := h.keep (h.store.define State.globals spelled.name plain v) (.define _ _ _ _ _)
      rw [h.current] at kept
      exact .value kept

/-- The methods of a class are entered under the same names. -/
theorem methodTable_alike {around : List Spelling} {environment : EnvironmentId}
    {methods methods' : List FunctionDecl} {τ : Store} (spells : τ.Spells μ environment around)
    (listed : L.Alike (id :: around) (.functions methods) (.functions methods')) (name : String) :
    Option.Rel (Store.ClosuresAlike L μ τ [id]) ((methodTable environment methods).get? name)
      ((methodTable environment methods').get? name) := by
  have along {b b' : Bindings Closure}
      (hb : Option.Rel (Store.ClosuresAlike L μ τ [id]) (b.get? name) (b'.get? name)) :
      Option.Rel (Store.ClosuresAlike L μ τ [id])
        ((methods.foldl (fun b decl =>
          b.insert decl.name.lexeme ⟨decl, environment, decl.isInitializer⟩) b).get? name)
        ((methods'.foldl (fun b decl =>
          b.insert decl.name.lexeme ⟨decl, environment, decl.isInitializer⟩) b').get? name) := by
    induction methods generalizing methods' b b' with
    | nil =>
      cases listed
      exact hb
    | cons decl methods ih =>
      cases listed with
      | @moreFunctions _ _ decl' _ methods' first rest =>
        refine ih rest ?_
        have same := first.function_same.1
        simp only [Bindings.get?_insert, same]
        split
        · refine .some ⟨rfl, ?_, around, _, spells, first⟩
          simp only [FunctionDecl.isInitializer, same]
        · exact hb
  exact along .none

theorem finishClass_alike (h : L.InStep extra μ fs σ σ' pending pending') {name name' : Token}
    (named : L.Kept (spellingHere fs) name name') {v : Value}
    (bound : σ.store.local? σ.current name.lexeme = some v) (parent : Option ClassId)
    {methods methods' : List FunctionDecl} {around : List Spelling} {environment : EnvironmentId}
    (spells : σ.store.Spells μ environment around)
    (listed : L.Alike (id :: around) (.functions methods) (.functions methods')) :
    L.Configs extra (finishClass name parent methods environment pending σ)
      (finishClass name' parent methods' environment pending' σ') := by
  have classes : Store.ClassesAlike L μ σ.store
      ⟨name.lexeme, parent, methodTable environment methods⟩
      ⟨name'.lexeme, parent, methodTable environment methods'⟩ :=
    ⟨named.lexeme, rfl, methodTable_alike spells listed⟩
  have made := h.keep (h.store.addClass classes) (.of_environments rfl)
  have here := h.spells.here h.store.toEnvironmentsAlike
  have spelled : name'.lexeme = μ σ.current name.lexeme := by
    rw [here]
    exact named.spelled.lexeme
  have bound' : σ'.store.local? σ.current name'.lexeme = some v := by
    rw [spelled, h.store.bound _ _ named.name]
    exact bound
  have next : σ'.store.nextClass = σ.store.nextClass := h.store.classCount
  have owner := Store.owner_of_bound (σ := σ.store.addClass
    ⟨name.lexeme, parent, methodTable environment methods⟩) bound
  have owner' := Store.owner_of_bound (σ := σ'.store.addClass
    ⟨name'.lexeme, parent, methodTable environment methods'⟩) bound'
  have kept := made.keep (made.store.define σ.current named.name spelled
    (.classRef σ.store.nextClass)) (.define _ _ _ _ _)
  simp only [finishClass, Store.assign, h.current, owner, owner', next]
  rw [h.current] at kept
  exact .completed kept

theorem declareClass_alike (h : L.InStep extra μ fs σ σ' pending pending') {name name' : Token}
    (named : L.Kept (spellingHere fs) name name') {v : Value}
    (bound : σ.store.local? σ.current name.lexeme = some v)
    {methods methods' : List FunctionDecl} (parent : Option ClassId)
    (listed : L.Alike (id :: (parent.map fun _ => (id : Spelling)).toList ++ fs)
      (.functions methods) (.functions methods')) :
    L.Configs extra (declareClass name parent methods pending σ)
      (declareClass name' parent methods' pending' σ') := by
  cases parent with
  | none =>
    simp only [declareClass, h.current]
    exact finishClass_alike h named bound none h.spells listed
  | some c =>
    have later := Later.addEnvironment σ.store μ (some σ.current)
      (Bindings.empty.insert superName (.classRef c)) id
    have stores := h.store.addEnvironment σ.current L.plain
      (.refl L (Bindings.empty.insert superName (.classRef c)))
    have added := h.keep stores later
    obtain ⟨w, bound⟩ := later.kept _ _ v bound
    have next : σ'.store.nextEnvironment = σ.store.nextEnvironment := h.store.size
    simp only [declareClass, h.current, next]
    have done := finishClass_alike added named bound (some c)
      (h.spells.enter id (Bindings.empty.insert superName (.classRef c))) listed
    rw [h.current] at done
    exact done

/-! ## Steps -/

theorem print_alike (h : L.InStep extra μ fs σ σ' pending pending') (v : Value) :
    L.Configs extra (print v pending σ) (print v pending' σ') := by
  simp only [print, h.store.display, h.sink]
  split
  · exact .completed { h with sink := rfl }
  · exact .failed { h with sink := rfl } (.output _)

theorem evaluate_alike (h : L.InStep extra μ fs σ σ' pending pending') {e e' : Expr}
    (code : L.Alike fs (.expr e) (.expr e')) :
    L.Configs extra (evaluate e pending σ) (evaluate e' pending' σ') := by
  cases code with
  | assign occurs assigned => exact .evaluate (h.push (.assignment occurs)) assigned
  | binary before operates after => exact .evaluate (h.push (.rightOperand operates after)) before
  | call called closed listed => exact .evaluate (h.push (.callee closed listed)) called
  | get owner named => exact .evaluate (h.push (.property named)) owner
  | grouping content => exact .evaluate h content
  | literal value => exact .value h
  | logical before operates after => exact .evaluate (h.push (.decision operates after)) before
  | set owner named assigned => exact .evaluate (h.push (.target named assigned)) owner
  | superRef spelled occurs named => exact superMethod_alike h occurs named
  | thisRef spelled occurs => exact h.ofExcept (h.lookup occurs)
  | unary operates operand => exact .evaluate (h.push (.negation operates)) operand
  | var occurs => exact h.ofExcept (h.lookup occurs)

/-- What was just bound in the environment in use. -/
theorem bound_define {name : String} (v : Value)
    (made : σ.current < σ.store.environments.size) :
    (σ.define name v).store.local? (σ.define name v).current name = some v := by
  rw [State.define, Store.local?_define, if_pos ⟨rfl, made, rfl⟩]

theorem execute_alike (h : L.InStep extra μ fs σ σ' pending pending') {s s' : Stmt}
    (code : L.Alike fs (.stmt s) (.stmt s')) :
    L.Configs extra (execute s pending σ) (execute s' pending' σ') := by
  have made := h.spells.lt_size h.store.made
  cases code with
  | block spelling content =>
    obtain ⟨ν, inside⟩ := h.enter h.spells spelling (.empty L _)
      fun τ ν later e => .frame (.sequence content)
        (.restoration (h.spells.later later) (h.waiting.later later))
    simp only [execute, h.current]
    exact .completed inside
  | baseClass named listed =>
    have declared := define_alike h named.spelled .nil
    exact declareClass_alike declared named (bound_define .nil made) none listed
  | derivedClass named inherits listed =>
    have declared := define_alike h named.spelled .nil
    have lines : L.lines _ _ := inherits.choose_spec.2.line
    exact .evaluate
      (declared.push (.superclass named ⟨.nil, bound_define .nil made⟩ lines listed))
      (.var inherits)
  | expression evaluated => exact .evaluate (h.push .discard) evaluated
  | @functionDecl _ decl decl' named declared =>
    have closures : Store.ClosuresAlike L μ σ.store [] ⟨decl, σ.current, false⟩
        ⟨decl', σ'.current, false⟩ :=
      ⟨h.current, rfl, fs, .function, h.spells, declared⟩
    have made := h.keep (h.store.addFunction closures) (.of_environments rfl)
    have next : σ'.store.nextFunction = σ.store.nextFunction := h.store.functionCount
    simp only [execute, next]
    exact .completed (define_alike made named.spelled _)
  | ifThen tested chosen => exact .evaluate (h.push (.branch chosen .none)) tested
  | ifElse tested chosen alternated =>
    exact .evaluate (h.push (.branch chosen (.some alternated))) tested
  | print evaluated => exact .evaluate (h.push .printing) evaluated
  | bareReturn keyed => exact .completed h
  | returnWith keyed evaluated => exact .evaluate (h.push .returning) evaluated
  | bareVariable named => exact .completed (define_alike h named .nil)
  | initializedVariable named initialized => exact .evaluate (h.push (.definition named)) initialized
  | whileLoop tested repeated => exact .evaluate (h.push (.loopTest tested repeated)) tested

theorem binary_alike (h : L.InStep extra μ fs σ σ' pending pending') {operator operator' : Token}
    (operates : L.Same operator operator') (left right : Value) :
    L.Configs extra ⟨binary operator left right, pending, σ⟩
      ⟨binary operator' left right, pending', σ'⟩ := by
  unfold binary
  rw [operates.kind]
  (repeat' split) <;> first | exact .value h | exact h.fault _ operates.line

theorem unary_alike (h : L.InStep extra μ fs σ σ' pending pending') {operator operator' : Token}
    (operates : L.Same operator operator') (right : Value) :
    L.Configs extra ⟨unary operator right, pending, σ⟩ ⟨unary operator' right, pending', σ'⟩ := by
  unfold unary
  rw [operates.kind]
  (repeat' split) <;> first | exact .value h | exact h.fault _ operates.line

/-- A value is given to what waits in both runs. -/
theorem resume_alike {first first' : Pending}
    (h : L.InStep extra μ fs σ σ' (first :: pending) (first' :: pending')) (v : Value) :
    L.Configs extra (resume v first pending σ) (resume v first' pending' σ') := by
  cases hw : h.waiting with
  | program content => exact .value h
  | restoration spells next => exact .value h
  | body environment initializes spells next => exact .value h
  | frame frame next =>
    have ready := h.waitFor next
    cases frame with
    | assignment occurs => exact assign_alike ready occurs v
    | rightOperand operates operand => exact .evaluate (ready.push (.operation operates)) operand
    | operation operates => exact binary_alike ready operates _ v
    | callee closed listed => exact nextArgument_alike ready v closed [] listed
    | argument closed listed => exact nextArgument_alike ready _ closed _ listed
    | property named => exact property_alike ready v named
    | @decision operator operator' _ _ operates operand =>
      have same : decides operator' v = decides operator v := by
        rw [decides, operates.kind, decides]
      simp only [resume, same]
      split
      · exact .value ready
      · exact .evaluate ready operand
    | target named assigned =>
      cases v with
      | instanceRef i => exact .evaluate (ready.push (.field named)) assigned
      | _ => exact ready.fault _ named.line
    | @field object name _ named =>
      simp only [resume, named.lexeme]
      have later : Later σ.store μ (σ.store.setField object name.lexeme v) μ :=
        .of_environments (σ.store.setField_rest object name.lexeme v).1
      exact .value (ready.keep (ready.store.setField _ _ v) later)
    | negation operates => exact unary_alike ready operates v
    | discard => exact .completed ready
    | branch chosen alternated =>
      simp only [resume]
      split
      · exact .execute ready chosen
      · cases alternated with
        | none => exact .completed ready
        | some alternated => exact .execute ready alternated
    | printing => exact print_alike ready v
    | returning => exact .completed ready
    | definition named => exact .completed (define_alike ready named v)
    | superclass named bound inherits listed =>
      cases v with
      | classRef c =>
        obtain ⟨w, hb⟩ := bound
        exact declareClass_alike ready named hb (some c) listed
      | _ => exact ready.fault _ inherits
    | construction object => exact .value ready
    | loopTest tested repeated =>
      simp only [resume]
      split
      · exact .execute (ready.push (.loopBody tested repeated)) repeated
      · exact .completed ready
    | loopBody tested repeated => exact .value h
    | sequence content => exact .value h

/-- The first program is not over while the second one goes on, or they end together. -/
def Config.Within (extra : List Stmt) (c : Config) : Prop :=
  extra = [] ∨ ∀ completion, c.control = .completed completion → c.pending ≠ [.program []]

theorem bodyResult_alike (h : L.InStep extra μ fs σ σ' pending pending') {closure closure' : Closure}
    (environment : closure'.environment = closure.environment)
    (initializes : closure'.isInitializer = closure.isInitializer) (c : Completion) :
    bodyResult σ'.store closure' c = bodyResult σ.store closure c := by
  obtain ⟨named, fixed⟩ := L.keywords thisName (.inl rfl)
  have receiver := h.store.bound closure.environment thisName named
  rw [fixed _ (h.store.spellings _)] at receiver
  simp only [bodyResult, environment, initializes, receiver]

theorem proceed_alike {first first' : Pending}
    (h : L.InStep extra μ fs σ σ' (first :: pending) (first' :: pending')) (c : Completion)
    (within : Config.Within extra ⟨.completed c, first :: pending, σ⟩) :
    L.Configs extra (proceed c first pending σ) (proceed c first' pending' σ') := by
  cases hw : h.waiting with
  | @program _ statements statements' content =>
    cases content with
    | noStmts =>
      rcases within with rfl | within
      · exact .completed (h.waitFor .nothing)
      · exact absurd rfl (within c rfl)
    | moreStmts first rest => exact .execute (h.waitFor (.program rest)) first
  | restoration spells next =>
    exact .completed { h with current := rfl, spells := spells, waiting := next }
  | body environment initializes spells next =>
    simp only [proceed, bodyResult_alike h environment initializes, h.depth]
    exact .value { h with current := rfl, depth := rfl, spells := spells, waiting := next }
  | frame frame next =>
    have ready := h.waitFor next
    cases frame with
    | loopBody tested repeated =>
      cases c with
      | normal => exact .evaluate (ready.push (.loopTest tested repeated)) tested
      | returned v => exact .completed ready
    | sequence content =>
      cases content with
      | noStmts => cases c <;> exact .completed ready
      | moreStmts first rest =>
        cases c with
        | normal => exact .execute (ready.push (.sequence rest)) first
        | returned v => exact .completed ready
    | _ => exact .completed h

theorem unwind_alike {first first' : Pending} {f f' : Fault} (faults : L.Faults f f')
    (h : L.InStep extra μ fs σ σ' (first :: pending) (first' :: pending')) :
    L.Configs extra (unwind f first pending σ) (unwind f' first' pending' σ') := by
  cases hw : h.waiting with
  | program content => exact .failed (h.waitFor .nothing) faults
  | restoration spells next =>
    exact .failed { h with current := rfl, spells := spells, waiting := next } faults
  | body environment initializes spells next =>
    simp only [unwind, h.depth]
    exact .failed { h with current := rfl, depth := rfl, spells := spells, waiting := next } faults
  | frame frame next =>
    have ready := h.waitFor next
    cases frame <;> exact .failed ready faults

end

section
variable {L : Link} {extra : List Stmt} {c c' : Config}

theorem Link.Waiting.isEmpty {σ : Store} {μ : Spellings} {e : EnvironmentId} {fs : List Spelling}
    {pending pending' : List Pending} (h : L.Waiting extra σ μ e fs pending pending') :
    pending'.isEmpty = pending.isEmpty := by
  cases h <;> rfl

/-- Configurations that are alike are finished together. -/
theorem Link.Configs.finished (h : L.Configs extra c c') : c'.finished = c.finished := by
  cases h with
  | evaluate => rfl
  | execute => rfl
  | value inStep => exact inStep.waiting.isEmpty
  | completed inStep => exact inStep.waiting.isEmpty
  | failed inStep => exact inStep.waiting.isEmpty

/-- One step on either side leads to configurations that are alike. -/
theorem Link.Configs.step (h : L.Configs extra c c') (within : c.Within extra) :
    L.Configs extra c.step c'.step := by
  cases h with
  | evaluate inStep code => exact evaluate_alike inStep code
  | execute inStep code => exact execute_alike inStep code
  | value inStep =>
    cases hw : inStep.waiting with
    | nothing => exact .value inStep
    | program => exact resume_alike inStep _
    | frame => exact resume_alike inStep _
    | restoration => exact resume_alike inStep _
    | body => exact resume_alike inStep _
  | completed inStep =>
    cases hw : inStep.waiting with
    | nothing => exact .completed inStep
    | program => exact proceed_alike inStep _ within
    | frame => exact proceed_alike inStep _ within
    | restoration => exact proceed_alike inStep _ within
    | body => exact proceed_alike inStep _ within
  | failed inStep faults =>
    cases hw : inStep.waiting with
    | nothing => exact .failed inStep faults
    | program => exact unwind_alike faults inStep
    | frame => exact unwind_alike faults inStep
    | restoration => exact unwind_alike faults inStep
    | body => exact unwind_alike faults inStep

/-- Two programs that are alike run in step. -/
theorem Link.Configs.run (h : L.Configs [] c c') (fuel : Nat) :
    L.Configs [] (c.run fuel) (c'.run fuel) := by
  induction fuel generalizing c c' with
  | zero => exact h
  | succ fuel ih =>
    rw [Config.run, Config.run, h.finished]
    split
    · exact h
    · exact ih (h.step (.inl rfl))

/-! ## Ends -/

theorem Link.Configs.sink (h : L.Configs extra c c') : c'.state.sink = c.state.sink := by
  cases h with
  | evaluate inStep => exact inStep.sink
  | execute inStep => exact inStep.sink
  | value inStep => exact inStep.sink
  | completed inStep => exact inStep.sink
  | failed inStep => exact inStep.sink

/-- What two runs report and leave. -/
def Link.Ends (L : Link) (r r' : Option Fault × State) : Prop :=
  Option.Rel L.Faults r.1 r'.1 ∧ ∃ μ fs, L.InStep [] μ fs r.2 r'.2 [] []

theorem Link.Ends.of_inStep {own own' : Option Fault} (h : L.InStep [] μ fs σ σ' pending pending')
    (done : pending.isEmpty = true) (faults : Option.Rel L.Faults own own') :
    L.Ends (σ.sink.flush?.or own, σ) (σ'.sink.flush?.or own', σ') := by
  have emptied : pending = [] ∧ pending' = [] := by
    cases hw : h.waiting with
    | nothing => exact ⟨rfl, rfl⟩
    | _ => cases done
  obtain ⟨rfl, rfl⟩ := emptied
  refine ⟨?_, μ, fs, h⟩
  rw [h.sink, Sink.flush?]
  split
  · exact .some (.output _)
  · exact faults

/-- Runs that are alike end together, and alike. -/
theorem Link.Configs.ending (h : L.Configs [] c c') : Option.Rel L.Ends c.ending? c'.ending? := by
  rw [Config.ending?, Config.ending?, h.finished]
  split
  · next done =>
    refine .some ?_
    cases h with
    | evaluate => cases done
    | execute => cases done
    | value inStep => exact .of_inStep inStep done .none
    | completed inStep => exact .of_inStep inStep done .none
    | failed inStep faults => exact .of_inStep inStep done (.some faults)
  · exact .none

end

end Lox
