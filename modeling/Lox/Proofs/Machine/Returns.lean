import Lox.Proofs.Machine.Scoping

/-!
# What a return ends

A return passes over what is left of the body it stands in, and ends the call that the body belongs
to. The text and the calls in progress agree: each statement at hand belongs to the body of the
innermost call, or stands outside all functions where no call is in progress. So the rules for
returns, which are checked on the text, hold of the calls at run time.
-/
namespace Lox

open Scope (Context Part)

/-! ## The text of a function -/

section
variable (programs : List (List Stmt))

/-- The walk came to the function of a closure, as an initializer exactly if the closure is one. -/
def Sourced (closure : Closure) : Prop :=
  ∃ ctx kind, Visited programs ctx (.function kind closure.decl) ∧
    (kind = .initializer ↔ closure.isInitializer = true)

/-- The part stands in the body of this function, but in no function within it, or it stands
outside all functions; and it is met in this context. -/
inductive Belongs : Option Closure → Context → Part → Prop where
  | program {program : List Stmt} (h : program ∈ programs) : Belongs none .top (.stmts program)
  | body {closure : Closure} {ctx : Context} {kind : Scope.FunctionKind}
      (visited : Visited programs ctx (.function kind closure.decl))
      (initializes : kind = .initializer ↔ closure.isInitializer = true) :
      Belongs (some closure) (ctx.inside kind closure.decl.params) (.stmts closure.decl.body)
  | deeper {within : Option Closure} {ctx ctx' : Context} {part part' : Part}
      (h : Belongs within ctx part) (child : (ctx', part') ∈ part.children ctx)
      (same : ∀ kind decl, part' ≠ .function kind decl) : Belongs within ctx' part'

end

/-- Only the body of a function is in another function than the part around it. -/
theorem Scope.Part.function_children {ctx : Context} {part : Part}
    (same : ∀ kind decl, part ≠ .function kind decl) :
    ∀ c ∈ part.children ctx, c.1.function = ctx.function := by
  cases part with
  | expr e => cases e <;> simp [children]
  | exprs es => cases es <;> simp [children]
  | stmt s =>
    cases s with
    | classDecl name parent methods =>
      cases parent <;> simp [children, classBody, Context.introducing]
    | ifElse condition thenBranch elseBranch =>
      cases elseBranch <;> simp [children, Context.after]
    | returnWith keyword value => cases value <;> simp [children]
    | varDecl name value => cases value <;> simp [children, Context.declaring]
    | _ => simp [children, Context.introducing]
  | stmts ss => cases ss <;> simp [children, Context.after]
  | function kind decl => exact absurd rfl (same kind decl)
  | functions decls => cases decls <;> simp [children]

section
variable {programs : List (List Stmt)} {table : Distances} {n : Nat} {within : Option Closure}
  {ctx ctx' : Context} {part : Part}

theorem Belongs.visited (h : Belongs programs within ctx part) : Visited programs ctx part := by
  induction h with
  | program h => exact ⟨_, h, .program _⟩
  | body visited => exact visited.enter (by simp [Part.children])
  | deeper _ child _ ih => exact ih.enter child

theorem Belongs.not_function (h : Belongs programs within ctx part) :
    ∀ kind decl, part ≠ .function kind decl := by
  cases h with
  | program | body => exact nofun
  | deeper _ _ same => exact same

/-- The walk is in a function exactly if the part belongs to one. -/
theorem Belongs.outside (h : Belongs programs none ctx part) : ctx.function = none := by
  generalize hw : none = within at h
  induction h with
  | program => rfl
  | body => cases hw
  | deeper h child _ ih => exact (Part.function_children h.not_function _ child).trans (ih hw)

theorem Belongs.inside {closure : Closure} (h : Belongs programs (some closure) ctx part) :
    ∃ kind, ctx.function = some kind ∧ (kind = .initializer ↔ closure.isInitializer = true) := by
  generalize hw : some closure = within at h
  induction h with
  | program => cases hw
  | body _ initializes =>
    cases hw
    exact ⟨_, rfl, initializes⟩
  | deeper h child _ ih => exact Part.function_children h.not_function _ child ▸ ih hw

theorem Belongs.stmt (h : Belongs programs within ctx part) {s : Stmt}
    (child : (ctx', .stmt s) ∈ part.children ctx) : Belongs programs within ctx' (.stmt s) :=
  h.deeper child nofun

theorem Belongs.stmts (h : Belongs programs within ctx part) {ss : List Stmt}
    (child : (ctx', .stmts ss) ∈ part.children ctx) : Belongs programs within ctx' (.stmts ss) :=
  h.deeper child nofun

theorem Belongs.statements {s : Stmt} {ss : List Stmt}
    (h : Belongs programs within ctx (.stmts (s :: ss))) :
    Belongs programs within ctx (.stmt s) ∧ Belongs programs within (ctx.after s) (.stmts ss) :=
  ⟨h.stmt (by simp [Part.children]), h.stmts (by simp [Part.children])⟩

/-- A return in an accepted program belongs to a function, and to an initializer only without a
value. -/
theorem Belongs.returns (recorded : Recorded programs table n) {keyword : Token}
    {value : Option Expr} (h : Belongs programs within ctx (.stmt (.returnWith keyword value))) :
    ∃ closure, within = some closure ∧ (closure.isInitializer = true → value = none) := by
  have clean : (Scope.returned ctx keyword value).faults = [] := recorded.faultless h.visited
  simp only [Scope.returned, Scope.Report.faults_append, List.append_eq_nil_iff] at clean
  obtain ⟨⟨outside, valued⟩, -⟩ := clean
  cases within with
  | none =>
    rw [if_pos h.outside] at outside
    cases outside
  | some closure =>
    obtain ⟨kind, function, initializes⟩ := h.inside
    refine ⟨closure, rfl, fun initializer => ?_⟩
    rw [function, initializes.mpr initializer] at valued
    cases value with
    | none => rfl
    | some e => simp at valued

end

/-! ## What waits -/

/-- Waits for the value of an operand, and gives a value in turn. -/
def Pending.operates : Pending → Bool
  | .assignment .. => true
  | .rightOperand .. => true
  | .operation .. => true
  | .callee .. => true
  | .argument .. => true
  | .property _ => true
  | .decision .. => true
  | .target .. => true
  | .field .. => true
  | .negation _ => true
  | .construction _ => true
  | _ => false

/-- Waits for a value with which a statement is done. -/
def Pending.concludes : Pending → Bool
  | .discard => true
  | .printing => true
  | .definition _ => true
  | _ => false

/-- Is passed over by a return: the rest of a list of statements, a block or a loop. -/
def Pending.passedOver : Pending → Bool
  | .sequence _ => true
  | .restoration _ => true
  | .loopBody .. => true
  | _ => false

inductive Awaited where
  | value
  | completion

section
variable (programs : List (List Stmt))

/-- What waits for a result of this kind, with the innermost call in progress. Statements that wait
belong to the function that is called. A return that waits for its value is in no initializer. The
end of a program waits outside all calls. -/
inductive Awaits : Awaited → Option Closure → List Pending → Prop where
  | nothing : Awaits .completion none []
  | program {ctx : Context} {rest : List Stmt} (belongs : Belongs programs none ctx (.stmts rest)) :
      Awaits .completion none [.program rest]
  | operand {within : Option Closure} {first : Pending} {rest : List Pending}
      (operates : first.operates = true) (next : Awaits .value within rest) :
      Awaits .value within (first :: rest)
  | conclusion {within : Option Closure} {first : Pending} {rest : List Pending}
      (concludes : first.concludes = true) (next : Awaits .completion within rest) :
      Awaits .value within (first :: rest)
  | branch {within : Option Closure} {ctx : Context} {condition : Expr} {thenBranch : Stmt}
      {elseBranch : Option Stmt} {rest : List Pending}
      (belongs : Belongs programs within ctx (.stmt (.ifElse condition thenBranch elseBranch)))
      (next : Awaits .completion within rest) :
      Awaits .value within (.branch thenBranch elseBranch :: rest)
  | returning {closure : Closure} {rest : List Pending} (other : closure.isInitializer = false)
      (next : Awaits .completion (some closure) rest) :
      Awaits .value (some closure) (.returning :: rest)
  | superclass {within : Option Closure} {ctx : Context} {name : Token} {parent : Expr}
      {methods : List FunctionDecl} {rest : List Pending}
      (belongs : Belongs programs within ctx (.stmt (.classDecl name (some parent) methods)))
      (next : Awaits .completion within rest) :
      Awaits .value within (.superclass name parent methods :: rest)
  | loopTest {within : Option Closure} {ctx : Context} {condition : Expr} {body : Stmt}
      {rest : List Pending}
      (belongs : Belongs programs within ctx (.stmt (.whileLoop condition body)))
      (next : Awaits .completion within rest) :
      Awaits .value within (.loopTest condition body :: rest)
  | loopBody {within : Option Closure} {ctx : Context} {condition : Expr} {body : Stmt}
      {rest : List Pending}
      (belongs : Belongs programs within ctx (.stmt (.whileLoop condition body)))
      (next : Awaits .completion within rest) :
      Awaits .completion within (.loopBody condition body :: rest)
  | sequence {within : Option Closure} {ctx : Context} {body : List Stmt} {rest : List Pending}
      (belongs : Belongs programs within ctx (.stmts body))
      (next : Awaits .completion within rest) :
      Awaits .completion within (.sequence body :: rest)
  | restoration {within : Option Closure} {environment : EnvironmentId} {rest : List Pending}
      (next : Awaits .completion within rest) :
      Awaits .completion within (.restoration environment :: rest)
  | body {around : Option Closure} {caller : EnvironmentId} {closure : Closure}
      {rest : List Pending} (next : Awaits .value around rest) :
      Awaits .completion (some closure) (.body caller closure :: rest)

/-- Every function and method in the store was met by the walk. -/
structure Store.Sourced (σ : Store) : Prop where
  functions : ∀ (i : FunctionId) c, σ.functions[i]? = some c → Lox.Sourced programs c
  methods : ∀ (k : ClassId) name c, σ.ownMethod? k name = some c → Lox.Sourced programs c

/-- What is done now belongs to the innermost call in progress, and what waits waits for its
result. -/
inductive Config.Placed : Config → Prop where
  | evaluate {within : Option Closure} {e : Expr} {rest : List Pending} {σ : State}
      (store : σ.store.Sourced programs) (waits : Awaits programs .value within rest) :
      Placed ⟨.evaluate e, rest, σ⟩
  | execute {within : Option Closure} {ctx : Context} {s : Stmt} {rest : List Pending} {σ : State}
      (belongs : Belongs programs within ctx (.stmt s)) (store : σ.store.Sourced programs)
      (waits : Awaits programs .completion within rest) : Placed ⟨.execute s, rest, σ⟩
  | value {within : Option Closure} {v : Value} {rest : List Pending} {σ : State}
      (store : σ.store.Sourced programs) (waits : Awaits programs .value within rest) :
      Placed ⟨.value v, rest, σ⟩
  | normal {within : Option Closure} {rest : List Pending} {σ : State}
      (store : σ.store.Sourced programs) (waits : Awaits programs .completion within rest) :
      Placed ⟨.completed .normal, rest, σ⟩
  | returned {closure : Closure} {v : Value} {rest : List Pending} {σ : State}
      (bare : closure.isInitializer = true → v = .nil) (store : σ.store.Sourced programs)
      (waits : Awaits programs .completion (some closure) rest) :
      Placed ⟨.completed (.returned v), rest, σ⟩
  | failed {awaited : Awaited} {within : Option Closure} {f : Fault} {rest : List Pending}
      {σ : State} (store : σ.store.Sourced programs) (waits : Awaits programs awaited within rest) :
      Placed ⟨.failed f, rest, σ⟩

end

/-! ## The store -/

namespace Store.Sourced

variable {programs : List (List Stmt)} {σ σ' : Store}

theorem same (h : σ.Sourced programs) (functions : σ'.functions = σ.functions)
    (classes : σ'.classes = σ.classes) : σ'.Sourced programs where
  functions i c hi := h.functions i c (functions ▸ hi)
  methods k name c hm := h.methods k name c (by rwa [ownMethod?, classes] at hm)

theorem define (h : σ.Sourced programs) (e : EnvironmentId) (name : String) (v : Value) :
    (σ.define e name v).Sourced programs :=
  h.same (functions_define σ e name v) (classes_define σ e name v)

theorem addFunction (h : σ.Sourced programs) {c : Closure} (sourced : Lox.Sourced programs c) :
    (σ.addFunction c).Sourced programs := by
  refine ⟨fun i other hi => ?_, h.methods⟩
  rw [Store.addFunction, Array.getElem?_push] at hi
  split at hi
  · cases hi
    exact sourced
  · exact h.functions i other hi

theorem addClass (h : σ.Sourced programs) {made : ClassObject}
    (sourced : ∀ name c, made.methods.get? name = some c → Lox.Sourced programs c) :
    (σ.addClass made).Sourced programs := by
  refine ⟨h.functions, fun k name c hm => ?_⟩
  obtain ⟨other, hk, own⟩ := Option.bind_eq_some_iff.mp hm
  rw [Store.addClass, Array.getElem?_push] at hk
  split at hk
  · cases hk
    exact sourced name c own
  · exact h.methods k name c (by rw [ownMethod?, hk]; exact own)

theorem findMethod (h : σ.Sourced programs) {k : ClassId} {name : String} {found : Closure}
    (hf : σ.findMethod k name = some found) : Lox.Sourced programs found := by
  obtain ⟨owner, own⟩ := Store.ownMethod_of_findMethod hf
  exact h.methods owner name found own

/-- A method on its receiver is the same function. -/
theorem boundMethod (h : σ.Sourced programs) {method : Closure}
    (sourced : Lox.Sourced programs method) (receiver : InstanceId) :
    (σ.boundMethod method receiver).2.Sourced programs :=
  (h.same rfl rfl : (σ.bind method receiver).2.Sourced programs).addFunction sourced

theorem assign (h : σ.Sourced programs) {e : EnvironmentId} {name : Token} {v : Value}
    (done : σ.assign e name v = .ok σ') : σ'.Sourced programs := by
  unfold Store.assign at done
  split at done
  · cases done
    exact h.define _ _ _
  · cases done

theorem assignAt (h : σ.Sourced programs) {e : EnvironmentId} {distance : Nat} {name : Token}
    {v : Value} (done : σ.assignAt e distance name v = .ok σ') : σ'.Sourced programs := by
  unfold Store.assignAt at done
  split at done
  · cases done
    exact h.define _ _ _
  · cases done

end Store.Sourced

/-! ## Steps -/

section
variable {programs : List (List Stmt)} {table : Distances} {n : Nat} {σ : State}
  {within : Option Closure} {ctx : Context} {pending : List Pending}

theorem placed_ofExcept (store : σ.store.Sourced programs)
    (waits : Awaits programs .value within pending) (r : Except Fault Value) :
    Config.Placed programs ⟨.ofExcept r, pending, σ⟩ := by
  cases r with
  | ok v => exact .value store waits
  | error f => exact .failed store waits

theorem placed_binary (store : σ.store.Sourced programs)
    (waits : Awaits programs .value within pending) (operator : Token) (left right : Value) :
    Config.Placed programs ⟨binary operator left right, pending, σ⟩ := by
  unfold binary
  (repeat' split) <;> first | exact .value store waits | exact .failed store waits

theorem placed_unary (store : σ.store.Sourced programs)
    (waits : Awaits programs .value within pending) (operator : Token) (right : Value) :
    Config.Placed programs ⟨unary operator right, pending, σ⟩ := by
  unfold unary
  (repeat' split) <;> first | exact .value store waits | exact .failed store waits

/-- A body belongs to the function that is called. -/
theorem placed_enterBody (store : σ.store.Sourced programs)
    (waits : Awaits programs .value within pending) {closure : Closure}
    (sourced : Sourced programs closure) (arguments : List Value) :
    (enterBody closure arguments pending σ).Placed programs := by
  obtain ⟨ctx, kind, visited, initializes⟩ := sourced
  exact .normal (store.same rfl rfl) (.sequence (.body visited initializes) (.body waits))

theorem placed_property (store : σ.store.Sourced programs)
    (waits : Awaits programs .value within pending) (object : Value) (name : Token) :
    (property object name pending σ).Placed programs := by
  unfold property
  split
  · split
    · exact .value store waits
    · split
      · next method hm =>
        obtain ⟨_, _, hf⟩ := Option.bind_eq_some_iff.mp hm
        exact .value (store.boundMethod (store.findMethod hf) _) waits
      · exact .failed store waits
  · exact .failed store waits

theorem placed_superMethod (store : σ.store.Sourced programs)
    (waits : Awaits programs .value within pending) (id : Nat) (keyword method : Token) :
    (superMethod id keyword method pending σ).Placed programs := by
  unfold superMethod
  split
  · exact .failed store waits
  · split
    · next hf => exact .value (store.boundMethod (store.findMethod hf) _) waits
    · exact .failed store waits

theorem placed_construct (store : σ.store.Sourced programs)
    (waits : Awaits programs .value within pending) (k : ClassId) (arguments : List Value) :
    (construct k arguments pending σ).Placed programs := by
  unfold construct
  split
  · exact .value (store.same rfl rfl) waits
  · next initializer hf =>
    have bound : ((σ.store.addInstance k).bind initializer σ.store.nextInstance).2.Sourced programs :=
      store.same rfl rfl
    have found : Sourced programs initializer := store.findMethod hf
    have sourced : Sourced programs
        ((σ.store.addInstance k).bind initializer σ.store.nextInstance).1 := found
    exact placed_enterBody (σ := { σ with store := _ }) bound (.operand rfl waits) sourced arguments

theorem placed_call (store : σ.store.Sourced programs)
    (waits : Awaits programs .value within pending) (callee : Value) (paren : Token)
    (arguments : List Value) : (call callee paren arguments pending σ).Placed programs := by
  have apply : (apply callee paren arguments pending σ).Placed programs := by
    unfold apply
    split
    · exact .value store waits
    · split
      · next closure hc => exact placed_enterBody store waits (store.functions _ closure hc) arguments
      · exact .failed store waits
    · exact placed_construct store waits _ arguments
    · exact .failed store waits
  unfold call
  (repeat' split) <;> first | exact .failed store waits | exact apply

theorem placed_nextArgument (store : σ.store.Sourced programs)
    (waits : Awaits programs .value within pending) (callee : Value) (paren : Token)
    (before : List Value) (after : List Expr) :
    (nextArgument callee paren before after pending σ).Placed programs := by
  cases after with
  | nil => exact placed_call store waits callee paren before.reverse
  | cons e rest => exact .evaluate store (.operand rfl waits)

theorem placed_assign (store : σ.store.Sourced programs)
    (waits : Awaits programs .value within pending) (id : Nat) (name : Token) (v : Value) :
    (assign id name v pending σ).Placed programs := by
  unfold assign
  split
  · split
    · next done => exact .value (store.assignAt done) waits
    · exact .failed store waits
  · split
    · next done => exact .value (store.assign done) waits
    · exact .failed store waits

/-- A method is an initializer by its name, for the walk and in its class. -/
theorem placed_finishClass (store : σ.store.Sourced programs)
    (waits : Awaits programs .completion within pending) (name : Token) (parent : Option ClassId)
    {methods : List FunctionDecl} (visited : Visited programs ctx (.functions methods))
    (environment : EnvironmentId) :
    (finishClass name parent methods environment pending σ).Placed programs := by
  have made : (σ.store.addClass ⟨name.lexeme, parent, methodTable environment methods⟩).Sourced
      programs := by
    refine store.addClass fun other c hc => ?_
    obtain ⟨decl, hd, rfl⟩ := methodTable_mem hc
    refine ⟨ctx, _, visited.functions hd, ?_⟩
    unfold Scope.methodKind
    split <;> simp_all
  unfold finishClass
  simp only
  split
  · next done => exact .normal (made.assign done) waits
  · exact .failed made waits

theorem placed_declareClass (store : σ.store.Sourced programs)
    (waits : Awaits programs .completion within pending) {name : Token} {superclass : Option Expr}
    {methods : List FunctionDecl}
    (belongs : Belongs programs within ctx (.stmt (.classDecl name superclass methods)))
    (parent : Option ClassId) : (declareClass name parent methods pending σ).Placed programs := by
  have inside : Visited programs (Scope.classBody (ctx.introducing name) superclass.isSome)
      (.functions methods) :=
    belongs.visited.enter (by simp [Part.children])
  cases parent with
  | none => exact placed_finishClass store waits name none inside σ.current
  | some k =>
    let opened : State := { σ with
      store := σ.store.addEnvironment (some σ.current)
        (Bindings.empty.insert Scope.superName (.classRef k)) }
    have kept : opened.store.Sourced programs := store.same rfl rfl
    exact placed_finishClass kept waits name (some k) inside _

theorem placed_print (store : σ.store.Sourced programs)
    (waits : Awaits programs .completion within pending) (v : Value) :
    (print v pending σ).Placed programs := by
  unfold print
  simp only
  split
  · exact .normal store waits
  · exact .failed store waits

theorem placed_evaluate (store : σ.store.Sourced programs)
    (waits : Awaits programs .value within pending) (e : Expr) :
    (evaluate e pending σ).Placed programs := by
  cases e with
  | grouping inner => exact .evaluate store waits
  | literal value => exact .value store waits
  | superRef id keyword method => exact placed_superMethod store waits id keyword method
  | thisRef id keyword => exact placed_ofExcept store waits _
  | var id name => exact placed_ofExcept store waits _
  | assign | binary | call | get | logical | set | unary =>
    exact .evaluate store (.operand rfl waits)

theorem placed_execute (recorded : Recorded programs table n) (store : σ.store.Sourced programs)
    (waits : Awaits programs .completion within pending) {s : Stmt}
    (belongs : Belongs programs within ctx (.stmt s)) : (execute s pending σ).Placed programs := by
  cases s with
  | block body =>
    have inside : Belongs programs within { ctx with scopes := .empty :: ctx.scopes } (.stmts body) :=
      belongs.stmts (by simp [Part.children])
    exact .normal (store.same rfl rfl) (.sequence inside (.restoration waits))
  | classDecl name parent methods =>
    have defined : (σ.define name.lexeme .nil).store.Sourced programs := store.define _ _ _
    cases parent with
    | none => exact placed_declareClass defined waits belongs none
    | some e => exact .evaluate defined (.superclass belongs waits)
  | expression value => exact .evaluate store (.conclusion rfl waits)
  | functionDecl decl =>
    have visited : Visited programs (ctx.introducing decl.name) (.function .function decl) :=
      belongs.visited.enter (by simp [Part.children])
    have made : (σ.store.addFunction ⟨decl, σ.current, false⟩).Sourced programs :=
      store.addFunction ⟨_, _, visited, by simp⟩
    exact .normal (made.define _ _ _) waits
  | ifElse condition thenBranch elseBranch => exact .evaluate store (.branch belongs waits)
  | print value => exact .evaluate store (.conclusion rfl waits)
  | returnWith keyword value =>
    obtain ⟨closure, rfl, bare⟩ := belongs.returns recorded
    cases value with
    | none => exact .returned (fun _ => rfl) store waits
    | some e =>
      have other : closure.isInitializer = false :=
        Bool.eq_false_iff.mpr fun initializer => by cases bare initializer
      exact .evaluate store (.returning other waits)
  | varDecl name value =>
    cases value with
    | none => exact .normal (store.define _ _ _) waits
    | some e => exact .evaluate store (.conclusion rfl waits)
  | whileLoop condition body => exact .evaluate store (.loopTest belongs waits)

/-- A value goes to what waits for one. -/
theorem placed_resume (store : σ.store.Sourced programs) (v : Value) {first : Pending}
    (waits : Awaits programs .value within (first :: pending)) :
    (resume v first pending σ).Placed programs := by
  cases waits with
  | operand operates next =>
    cases first with
    | assignment id name => exact placed_assign store next id name v
    | rightOperand operator right => exact .evaluate store (.operand rfl next)
    | operation left operator => exact placed_binary store next operator left v
    | callee paren arguments => exact placed_nextArgument store next v paren [] arguments
    | argument callee paren before after =>
      exact placed_nextArgument store next callee paren (v :: before) after
    | property name => exact placed_property store next v name
    | decision operator right =>
      simp only [resume]
      split
      · exact .value store next
      · exact .evaluate store next
    | target name value =>
      cases v with
      | instanceRef i => exact .evaluate store (.operand rfl next)
      | _ => exact .failed store next
    | field i name =>
      obtain ⟨_, functions, classes⟩ := Store.setField_rest σ.store i name.lexeme v
      exact .value (store.same functions classes) next
    | negation operator => exact placed_unary store next operator v
    | construction i => exact .value store next
    | _ => cases operates
  | conclusion concludes next =>
    cases first with
    | discard => exact .normal store next
    | printing => exact placed_print store next v
    | definition name => exact .normal (store.define _ _ _) next
    | _ => cases concludes
  | @branch _ ctx _ thenBranch elseBranch _ belongs next =>
    simp only [resume]
    split
    · have chosen : Belongs programs within ctx (.stmt thenBranch) :=
        belongs.stmt (by simp [Part.children])
      exact .execute chosen store next
    · cases elseBranch with
      | some other =>
        have chosen : Belongs programs within (ctx.after thenBranch) (.stmt other) :=
          belongs.stmt (by simp [Part.children])
        exact .execute chosen store next
      | none => exact .normal store next
  | returning other next =>
    exact .returned (fun initializer => by rw [other] at initializer; cases initializer) store next
  | superclass belongs next =>
    cases v with
    | classRef k => exact placed_declareClass store next belongs (some k)
    | _ => exact .failed store next
  | @loopTest _ ctx _ body _ belongs next =>
    have repeated : Belongs programs within ctx (.stmt body) :=
      belongs.stmt (by simp [Part.children])
    simp only [resume]
    split
    · exact .execute repeated store (.loopBody belongs next)
    · exact .normal store next

/-- What is done normally goes on with what waits. -/
theorem placed_proceed (store : σ.store.Sourced programs) {first : Pending}
    (waits : Awaits programs .completion within (first :: pending)) :
    (proceed .normal first pending σ).Placed programs := by
  cases waits with
  | @program _ rest belongs =>
    cases rest with
    | nil => exact .normal store .nothing
    | cons s rest =>
      obtain ⟨now, later⟩ := belongs.statements
      exact .execute now store (.program later)
  | loopBody belongs next => exact .evaluate store (.loopTest belongs next)
  | @sequence _ _ rest _ belongs next =>
    cases rest with
    | nil => exact .normal store next
    | cons s rest =>
      obtain ⟨now, later⟩ := belongs.statements
      exact .execute now store (.sequence later next)
  | restoration next => exact .normal store next
  | body next => exact .value store next

/-- A return is passed on, and taken at the end of the body. -/
theorem placed_return (store : σ.store.Sourced programs) {closure : Closure} {v : Value}
    (bare : closure.isInitializer = true → v = .nil) {first : Pending}
    (waits : Awaits programs .completion (some closure) (first :: pending)) :
    (proceed (.returned v) first pending σ).Placed programs := by
  cases waits with
  | loopBody belongs next => exact .returned bare store next
  | sequence belongs next => exact .returned bare store next
  | restoration next => exact .returned bare store next
  | body next => exact .value store next

theorem placed_unwind (store : σ.store.Sourced programs) (f : Fault) {awaited : Awaited}
    {first : Pending} (waits : Awaits programs awaited within (first :: pending)) :
    (unwind f first pending σ).Placed programs := by
  have failed {awaited' : Awaited} {within' : Option Closure}
      (next : Awaits programs awaited' within' pending) :
      (unwind f first pending σ).Placed programs := by
    unfold unwind
    split <;> exact .failed store next
  cases waits with
  | program belongs => exact failed .nothing
  | operand _ next | conclusion _ next | branch _ next | returning _ next | superclass _ next
  | loopTest _ next | loopBody _ next | sequence _ next | restoration next | body next =>
    exact failed next

end

section
variable {programs : List (List Stmt)} {table : Distances} {n : Nat} {c : Config}

/-- A step keeps what is done in its place. -/
theorem Config.Placed.step (h : c.Placed programs) (recorded : Recorded programs table n) :
    c.step.Placed programs := by
  cases h with
  | evaluate store waits => exact placed_evaluate store waits _
  | execute belongs store waits => exact placed_execute recorded store waits belongs
  | @value _ _ pending _ store waits =>
    cases pending with
    | nil => exact .value store waits
    | cons first pending => exact placed_resume store _ waits
  | @normal _ pending _ store waits =>
    cases pending with
    | nil => exact .normal store waits
    | cons first pending => exact placed_proceed store waits
  | @returned _ _ pending _ bare store waits =>
    cases pending with
    | nil => exact .returned bare store waits
    | cons first pending => exact placed_return store bare waits
  | @failed _ _ _ pending _ store waits =>
    cases pending with
    | nil => exact .failed store waits
    | cons first pending => exact placed_unwind store _ waits

theorem Config.Placed.run (h : c.Placed programs) (recorded : Recorded programs table n)
    (fuel : Nat) : (c.run fuel).Placed programs := by
  induction fuel with
  | zero => exact h
  | succ fuel ih =>
    rw [Config.run_succ]
    exact ih.step recorded

theorem Config.Placed.store (h : c.Placed programs) : c.state.store.Sourced programs := by
  cases h <;> assumption

end

/-! ## The way of a return -/

/-- The innermost call in progress, with what a return passes over on its way there. -/
structure Innermost (pending passed : List Pending) (caller : EnvironmentId) (closure : Closure)
    (rest : List Pending) : Prop where
  waiting : pending = passed ++ .body caller closure :: rest
  inner : ∀ p ∈ passed, p.passedOver = true

theorem Awaits.innermost {programs : List (List Stmt)} {closure : Closure} {pending : List Pending}
    (h : Awaits programs .completion (some closure) pending) :
    ∃ passed caller rest, Innermost pending passed caller closure rest := by
  induction pending with
  | nil => cases h
  | cons first pending ih =>
    have further (passes : first.passedOver = true)
        (next : Awaits programs .completion (some closure) pending) :
        ∃ passed caller rest, Innermost (first :: pending) passed caller closure rest := by
      obtain ⟨passed, caller, rest, rfl, inner⟩ := ih next
      exact ⟨first :: passed, caller, rest, rfl, List.forall_mem_cons.mpr ⟨passes, inner⟩⟩
    cases h with
    | loopBody _ next | sequence _ next | restoration next => exact further rfl next
    | body => exact ⟨[], _, _, rfl, List.forall_mem_nil _⟩

/-- Which call is the innermost one is read off what waits. -/
theorem Innermost.beyond {pending passed : List Pending} {caller : EnvironmentId}
    {closure : Closure} {rest : List Pending}
    (h : Innermost pending passed caller closure rest) :
    pending.dropWhile (·.passedOver) = .body caller closure :: rest := by
  obtain ⟨rfl, inner⟩ := h
  rw [List.dropWhile_append_of_pos inner]
  rfl

/-- What a return passes over changes the environment in use at most. -/
theorem proceed_passedOver {first : Pending} (passes : first.passedOver = true) (v : Value)
    (pending : List Pending) (σ : State) : ∃ e, proceed (.returned v) first pending σ =
      ⟨.completed (.returned v), pending, { σ with current := e }⟩ := by
  cases first with
  | sequence rest => exact ⟨σ.current, rfl⟩
  | loopBody condition body => exact ⟨σ.current, rfl⟩
  | restoration environment => exact ⟨environment, rfl⟩
  | _ => cases passes

/-- The way of a return out of the innermost call: each of the next steps passes over one thing that
waits, and the one after them gives the result of the call to its caller. -/
structure Config.Leaving (c : Config) (v : Value) (passed : List Pending) (caller : EnvironmentId)
    (closure : Closure) (rest : List Pending) : Prop where
  innermost : Innermost c.pending passed caller closure rest
  passing : ∀ k ≤ passed.length, ∃ e, c.run k =
    ⟨.completed (.returned v), passed.drop k ++ .body caller closure :: rest,
      { c.state with current := e }⟩
  result : c.run (passed.length + 1) = ⟨.value (bodyResult c.state.store closure (.returned v)), rest,
    { c.state with current := caller, depth := c.state.depth - 1 }⟩

theorem Innermost.leaving {σ : State} {v : Value} {pending passed : List Pending}
    {caller : EnvironmentId} {closure : Closure} {rest : List Pending}
    (h : Innermost pending passed caller closure rest) :
    Config.Leaving ⟨.completed (.returned v), pending, σ⟩ v passed caller closure rest := by
  have passing : ∀ k ≤ passed.length, ∃ e, Config.run k ⟨.completed (.returned v), pending, σ⟩ =
      ⟨.completed (.returned v), passed.drop k ++ .body caller closure :: rest,
        { σ with current := e }⟩ := by
    intro k hk
    induction k with
    | zero => exact ⟨σ.current, by rw [h.waiting]; rfl⟩
    | succ k ih =>
      obtain ⟨e, before⟩ := ih (Nat.le_of_succ_le hk)
      have passes := h.inner _ (List.getElem_mem hk)
      obtain ⟨e', step⟩ := proceed_passedOver passes v
        (passed.drop (k + 1) ++ .body caller closure :: rest) { σ with current := e }
      refine ⟨e', ?_⟩
      rw [Config.run_succ, before, List.drop_eq_getElem_cons hk]
      exact step
  obtain ⟨e, last⟩ := passing _ (Nat.le_refl _)
  refine ⟨h, passing, ?_⟩
  rw [Config.run_succ, last, List.drop_length]
  rfl

/-- What a function returns is the result of the call, but for an initializer. -/
theorem bodyResult_returned {closure : Closure} (other : closure.isInitializer = false)
    (store : Store) (v : Value) : bodyResult store closure (.returned v) = v := by
  rw [bodyResult, other]
  rfl

end Lox
