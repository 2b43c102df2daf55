import Lox.Proofs.Machine.Restoration
import Lox.Proofs.Machine.Turns

/-!
# Environments in which nothing is declared

A statement that declares nothing may still call functions and open blocks, and these declare in
environments of their own. An assignment binds a name anew that is bound already. So the environment
in which the statement is executed has the same names bound all the time.
-/
namespace Lox

open Scope (Part)

/-- Declares nothing in the environment in which it is executed. -/
def Stmt.sparing : Stmt → Bool
  | .classDecl .. => false
  | .functionDecl _ => false
  | .varDecl .. => false
  | .ifElse _ thenBranch none => thenBranch.sparing
  | .ifElse _ thenBranch (some other) => thenBranch.sparing && other.sparing
  | .whileLoop _ body => body.sparing
  | _ => true

/-- Branches and loop bodies declare nothing, so only the statement itself could. -/
theorem Stmt.sparing_of_wellFormed {names : String → Prop} {s : Stmt}
    (wf : (Part.stmt s).WellFormed names) (plain : s.declares = false) : s.sparing = true := by
  cases s with
  | classDecl | functionDecl | varDecl => cases plain
  | ifElse condition thenBranch other =>
    have chosen := wf.child .top (List.mem_cons_of_mem _ List.mem_cons_self)
    have first := sparing_of_wellFormed chosen wf.proper.1
    cases other with
    | none => exact first
    | some other =>
      have alternated :=
        wf.child .top (List.mem_cons_of_mem _ (List.mem_cons_of_mem _ List.mem_cons_self))
      exact Bool.and_eq_true_iff.mpr
        ⟨first, sparing_of_wellFormed alternated (wf.proper.2 other rfl)⟩
  | whileLoop condition body =>
    have repeated := wf.child .top (List.mem_cons_of_mem _ List.mem_cons_self)
    have plain : body.declares = false := wf.proper
    exact (sparing_of_wellFormed repeated plain : body.sparing = true)
  | block | expression | print | returnWith => rfl

/-- Goes on without a declaration in the environment that it finds. -/
def Pending.sparing : Pending → Bool
  | .branch thenBranch none => thenBranch.sparing
  | .branch thenBranch (some other) => thenBranch.sparing && other.sparing
  | .loopTest _ repeated => repeated.sparing
  | .loopBody _ repeated => repeated.sparing
  | .definition _ => false
  | .superclass .. => false
  | .sequence _ => false
  | .program _ => false
  | _ => true

/-- What waits declares nothing in the environment `a`, the one in use being `e`. -/
def Spares (a : EnvironmentId) : EnvironmentId → List Pending → Prop
  | _, [] => True
  | e, first :: rest => (e = a → first.sparing = true) ∧ Spares a (first.outer?.getD e) rest

/-- The environment `a` is there and has just these names bound. -/
structure Store.Names (σ : Store) (a : EnvironmentId) (bound : String → Bool) : Prop where
  made : a < σ.environments.size
  locals : ∀ name, (σ.local? a name).isSome = bound name

/-- The statement that is executed next. -/
def Control.executed? : Control → Option Stmt
  | .execute s => some s
  | _ => none

theorem Control.executed?_eq_none {control : Control} (h : ∀ s, control ≠ .execute s) :
    control.executed? = none := by
  cases control with
  | execute s => exact absurd rfl (h s)
  | _ => rfl

/-- So it is now, and nothing is done next that declares a name there. -/
structure Config.Keeps (a : EnvironmentId) (bound : String → Bool) (c : Config) : Prop where
  names : c.state.store.Names a bound
  now : c.state.current = a → ∀ s, c.control = .execute s → s.sparing = true
  waits : Spares a c.state.current c.pending

section
variable {a : EnvironmentId} {bound : String → Bool}

namespace Store.Names

variable {σ σ' : Store} {e : EnvironmentId} {name : String} {v : Value}

theorem of_environments (h : σ.Names a bound) (same : σ'.environments = σ.environments) :
    σ'.Names a bound where
  made := same ▸ h.made
  locals name := by
    rw [local?, same]
    exact h.locals name

theorem addEnvironment (h : σ.Names a bound) (outer : Option EnvironmentId)
    (bindings : Bindings Value) : (σ.addEnvironment outer bindings).Names a bound where
  made := by
    rw [size_addEnvironment]
    exact Nat.lt_succ_of_lt h.made
  locals name := by
    rw [local?_addEnvironment, if_neg (ne_nextEnvironment h.made)]
    exact h.locals name

/-- A name is bound in another environment, or was bound already. -/
theorem define (h : σ.Names a bound) (spared : e = a → (σ.local? e name).isSome = true) :
    (σ.define e name v).Names a bound where
  made := by simpa using h.made
  locals other := by
    rw [local?_define]
    split
    · next same =>
      obtain ⟨rfl, _, rfl⟩ := same
      rw [← h.locals, spared rfl]
      rfl
    · exact h.locals other

theorem bind (h : σ.Names a bound) (method : Closure) (i : InstanceId) :
    (σ.bind method i).2.Names a bound :=
  h.addEnvironment _ _

end Store.Names

namespace Config.Keeps

variable {c : Config} {σ : State} {pending : List Pending} {first : Pending}

/-- A result, or an expression that comes next. -/
theorem result {control : Control} (names : σ.store.Names a bound)
    (waits : Spares a σ.current pending) (other : control.executed? = none) :
    Config.Keeps a bound ⟨control, pending, σ⟩ := by
  refine ⟨names, fun _ s hs => ?_, waits⟩
  rw [show control = .execute s from hs] at other
  cases other

theorem failed {f : Fault} (names : σ.store.Names a bound) (waits : Spares a σ.current pending) :
    Config.Keeps a bound ⟨.failed f, pending, σ⟩ :=
  result names waits rfl

end Config.Keeps

variable {σ : State} {pending : List Pending}

/-- What waits besides declares nothing. -/
theorem Spares.push {e : EnvironmentId} {first : Pending} (h : Spares a e pending)
    (stays : first.outer? = none) (sparing : first.sparing = true) :
    Spares a e (first :: pending) := by
  refine ⟨fun _ => sparing, ?_⟩
  rw [stays]
  exact h

theorem keeps_ofExcept (names : σ.store.Names a bound) (waits : Spares a σ.current pending)
    (r : Except Fault Value) : Config.Keeps a bound ⟨.ofExcept r, pending, σ⟩ := by
  cases r <;> exact .result names waits rfl

theorem keeps_property (names : σ.store.Names a bound) (waits : Spares a σ.current pending)
    (object : Value) (name : Token) : (property object name pending σ).Keeps a bound := by
  unfold property
  split
  · split
    · exact .result names waits rfl
    · split
      · next method _ =>
        exact .result ((names.bind method _).of_environments rfl) waits rfl
      · exact .failed names waits
  · exact .failed names waits

theorem keeps_superMethod (names : σ.store.Names a bound) (waits : Spares a σ.current pending)
    (id : Nat) (keyword method : Token) :
    (superMethod id keyword method pending σ).Keeps a bound := by
  unfold superMethod
  split
  · exact .failed names waits
  · split
    · next found _ => exact .result ((names.bind found _).of_environments rfl) waits rfl
    · exact .failed names waits

/-- The environment of the parameters is a new one. -/
theorem keeps_enterBody (names : σ.store.Names a bound) (waits : Spares a σ.current pending)
    (closure : Closure) (arguments : List Value) :
    (enterBody closure arguments pending σ).Keeps a bound := by
  have new : σ.store.nextEnvironment ≠ a := (Store.ne_nextEnvironment names.made).symm
  exact .result (names.addEnvironment _ _) ⟨fun here => absurd here new, fun _ => rfl, waits⟩ rfl

theorem keeps_construct (names : σ.store.Names a bound) (waits : Spares a σ.current pending)
    (k : ClassId) (arguments : List Value) : (construct k arguments pending σ).Keeps a bound := by
  have instanced : (σ.store.addInstance k).Names a bound := names.of_environments rfl
  unfold construct
  split
  · exact .result instanced waits rfl
  · next initializer _ =>
    exact keeps_enterBody (σ := { σ with store := _ }) (instanced.bind initializer _)
      (waits.push rfl rfl) _ arguments

theorem keeps_call (names : σ.store.Names a bound) (waits : Spares a σ.current pending)
    (callee : Value) (paren : Token) (arguments : List Value) :
    (call callee paren arguments pending σ).Keeps a bound := by
  unfold call
  split
  · exact .failed names waits
  split
  · exact .failed names waits
  split
  · exact .failed names waits
  unfold apply
  split
  · exact .result names waits rfl
  · split
    · exact keeps_enterBody names waits _ _
    · exact .failed names waits
  · exact keeps_construct names waits _ _
  · exact .failed names waits

theorem keeps_nextArgument (names : σ.store.Names a bound) (waits : Spares a σ.current pending)
    (callee : Value) (paren : Token) (before : List Value) (after : List Expr) :
    (nextArgument callee paren before after pending σ).Keeps a bound := by
  cases after with
  | nil => exact keeps_call names waits _ _ _
  | cons e rest => exact .result names (waits.push rfl rfl) rfl

/-- An assignment finds its name bound. -/
theorem keeps_assign (names : σ.store.Names a bound) (waits : Spares a σ.current pending)
    (id : Nat) (name : Token) (v : Value) : (assign id name v pending σ).Keeps a bound := by
  unfold assign Store.assignAt Store.assign
  split
  · split
    · next stored =>
      split at stored
      · next owner found =>
        cases stored
        have here := (Option.filter_eq_some_iff.mp found).2
        exact .result (names.define fun _ => here) waits rfl
      · cases stored
    · exact .failed names waits
  · split
    · next stored =>
      split at stored
      · next owner found =>
        cases stored
        obtain ⟨w, here⟩ := Store.bound_of_owner? found
        exact .result (names.define fun _ => Option.isSome_of_eq_some here) waits rfl
      · cases stored
    · exact .failed names waits

theorem keeps_finishClass (names : σ.store.Names a bound) (waits : Spares a σ.current pending)
    (name : Token) (parent : Option ClassId) (methods : List FunctionDecl)
    (environment : EnvironmentId) :
    (finishClass name parent methods environment pending σ).Keeps a bound := by
  unfold finishClass Store.assign
  simp only
  split
  · next stored =>
    split at stored
    · next owner found =>
      cases stored
      obtain ⟨w, here⟩ := Store.bound_of_owner? found
      refine .result (.define (names.of_environments rfl) fun _ => ?_) waits rfl
      exact Option.isSome_of_eq_some here
    · cases stored
  · exact .failed (names.of_environments rfl) waits

theorem keeps_declareClass (names : σ.store.Names a bound) (waits : Spares a σ.current pending)
    (name : Token) (parent : Option ClassId) (methods : List FunctionDecl) :
    (declareClass name parent methods pending σ).Keeps a bound := by
  cases parent with
  | none => exact keeps_finishClass names waits _ _ _ _
  | some k =>
    exact keeps_finishClass (σ := { σ with store := _ }) (names.addEnvironment _ _) waits _ _ _ _

theorem keeps_evaluate (names : σ.store.Names a bound) (waits : Spares a σ.current pending)
    (e : Expr) : (evaluate e pending σ).Keeps a bound := by
  cases e with
  | superRef id keyword method => exact keeps_superMethod names waits id keyword method
  | thisRef id keyword => exact keeps_ofExcept names waits _
  | var id name => exact keeps_ofExcept names waits _
  | grouping | literal => exact .result names waits rfl
  | assign | binary | call | get | logical | set | unary =>
    exact .result names (waits.push rfl rfl) rfl

/-- A declaration is executed elsewhere. -/
theorem keeps_execute (names : σ.store.Names a bound) (waits : Spares a σ.current pending)
    {s : Stmt} (now : σ.current = a → s.sparing = true) :
    (execute s pending σ).Keeps a bound := by
  have elsewhere (declares : s.sparing = false) {name : String} :
      σ.current = a → (σ.store.local? σ.current name).isSome = true :=
    fun here => absurd (declares.symm.trans (now here)) Bool.false_ne_true
  have apart (declares : s.sparing = false) {first : Pending} (stays : first.outer? = none) :
      Spares a σ.current (first :: pending) := by
    refine ⟨fun here => absurd (declares.symm.trans (now here)) Bool.false_ne_true, ?_⟩
    rw [stays]
    exact waits
  cases s with
  | block body =>
    have new : σ.store.nextEnvironment ≠ a := (Store.ne_nextEnvironment names.made).symm
    exact .result (names.addEnvironment _ _)
      ⟨fun here => absurd here new, fun _ => rfl, waits⟩ rfl
  | classDecl name parent methods =>
    have defined : (σ.define name.lexeme .nil).store.Names a bound := names.define (elsewhere rfl)
    cases parent with
    | none => exact keeps_declareClass defined waits name none methods
    | some e => exact .result defined (apart rfl rfl) rfl
  | functionDecl decl =>
    exact .result (.define (names.of_environments rfl) (elsewhere rfl)) waits rfl
  | varDecl name value =>
    cases value with
    | none => exact .result (names.define (elsewhere rfl)) waits rfl
    | some e => exact .result names (apart rfl rfl) rfl
  | expression | print => exact .result names (waits.push rfl rfl) rfl
  | returnWith keyword value =>
    cases value with
    | none => exact .result names waits rfl
    | some e => exact .result names (waits.push rfl rfl) rfl
  | ifElse condition thenBranch other =>
    refine .result names ⟨fun here => ?_, waits⟩ rfl
    have sparing := now here
    cases other <;> exact sparing
  | whileLoop condition body => exact .result names ⟨now, waits⟩ rfl

variable {first : Pending}

theorem keeps_resume (names : σ.store.Names a bound)
    (waits : Spares a σ.current (first :: pending)) (v : Value) :
    (resume v first pending σ).Keeps a bound := by
  obtain ⟨here, rest⟩ := id waits
  cases first with
  | assignment id name => exact keeps_assign names rest id name v
  | operation left operator =>
    refine .result names rest ?_
    unfold binary Control.fault
    repeat' split
    all_goals rfl
  | negation operator =>
    refine .result names rest ?_
    unfold unary Control.fault
    repeat' split
    all_goals rfl
  | callee paren arguments => exact keeps_nextArgument names rest _ _ _ _
  | argument callee paren before after => exact keeps_nextArgument names rest _ _ _ _
  | property name => exact keeps_property names rest v name
  | decision operator right =>
    simp only [resume]
    split <;> exact .result names rest rfl
  | target name value =>
    cases v with
    | instanceRef i => exact .result names (Spares.push rest rfl rfl) rfl
    | _ => exact .failed names rest
  | field i name =>
    have same := (σ.store.setField_rest i name.lexeme v).1
    exact .result (names.of_environments same) rest rfl
  | rightOperand => exact .result names (Spares.push rest rfl rfl) rfl
  | branch thenBranch other =>
    simp only [resume]
    cases other with
    | none =>
      split
      · refine ⟨names, fun at' s hs => ?_, rest⟩
        cases hs
        exact here at'
      · exact .result names rest rfl
    | some other =>
      split
      · refine ⟨names, fun at' s hs => ?_, rest⟩
        cases hs
        exact (Bool.and_eq_true_iff.mp (here at')).1
      · refine ⟨names, fun at' s hs => ?_, rest⟩
        cases hs
        exact (Bool.and_eq_true_iff.mp (here at')).2
  | printing =>
    simp only [resume, print]
    split <;> exact .result names rest rfl
  | definition name =>
    exact .result (names.define fun at' => absurd (here at') Bool.false_ne_true) rest rfl
  | superclass name expression methods =>
    cases v with
    | classRef k => exact keeps_declareClass names rest name (some k) methods
    | _ => exact .failed names rest
  | loopTest condition body =>
    simp only [resume]
    split
    · refine ⟨names, fun at' s hs => ?_, here, rest⟩
      cases hs
      exact here at'
    · exact .result names rest rfl
  | discard | returning | construction => exact .result names rest rfl
  | loopBody | sequence | program | restoration | body => exact .result names waits rfl

theorem keeps_proceed (names : σ.store.Names a bound)
    (waits : Spares a σ.current (first :: pending)) (c : Completion) :
    (proceed c first pending σ).Keeps a bound := by
  obtain ⟨here, rest⟩ := id waits
  have apart {s : Stmt} {next : Pending} (stays : next.outer? = none) (other : σ.current ≠ a)
      (rest : Spares a σ.current pending) :
      Config.Keeps a bound ⟨.execute s, next :: pending, σ⟩ := by
    refine ⟨names, fun at' => absurd at' other, fun at' => absurd at' other, ?_⟩
    rw [stays]
    exact rest
  cases first with
  | loopBody condition body =>
    cases c with
    | normal => exact .result names ⟨here, rest⟩ rfl
    | returned v => exact .result names rest rfl
  | sequence statements =>
    have other : σ.current ≠ a := fun at' => absurd (here at') Bool.false_ne_true
    cases c with
    | returned v => exact .result names rest rfl
    | normal =>
      cases statements with
      | nil => exact .result names rest rfl
      | cons s ss => exact apart rfl other rest
  | program statements =>
    have other : σ.current ≠ a := fun at' => absurd (here at') Bool.false_ne_true
    cases statements with
    | nil => exact .result names rest rfl
    | cons s ss => exact apart rfl other rest
  | restoration outer => exact .result names rest rfl
  | body caller closure => exact .result names rest rfl
  | _ => exact .result names waits rfl

theorem keeps_unwind (names : σ.store.Names a bound)
    (waits : Spares a σ.current (first :: pending)) (f : Fault) :
    (unwind f first pending σ).Keeps a bound := by
  cases first <;> exact .failed names waits.2

/-- While nothing is declared in an environment its names stay the same. -/
theorem Config.Keeps.step {c : Config} (h : c.Keeps a bound) : c.step.Keeps a bound := by
  obtain ⟨control, pending, σ⟩ := c
  obtain ⟨names, now, waits⟩ := h
  cases control with
  | evaluate e => exact keeps_evaluate names waits e
  | execute s => exact keeps_execute names waits fun here => now here s rfl
  | value v =>
    cases pending with
    | nil => exact .result names waits rfl
    | cons first pending => exact keeps_resume names waits v
  | completed completion =>
    cases pending with
    | nil => exact .result names waits rfl
    | cons first pending => exact keeps_proceed names waits completion
  | failed f =>
    cases pending with
    | nil => exact .failed names waits
    | cons first pending => exact keeps_unwind names waits f

end

end Lox
