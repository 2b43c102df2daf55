import Lox.Proofs.Machine.Agreement

/-!
# What a task gives back

Evaluating an expression, executing a statement or a block and interpreting a program are tasks.
However a task ends, the environment in use and the depth of calls are what they were when it
started, and while it goes on the depth has grown by the number of its calls in progress. This
holds in every state, for trees that no source denotes and distances that no program has, and
whatever the sink does between two steps.
-/
namespace Lox

/-! ## Tasks -/

inductive Task where
  | evaluate (e : Expr)
  | execute (s : Stmt)
  | block (body : List Stmt) (environment : EnvironmentId)
  | interpret (program : List Stmt)

def Task.start (σ : State) : Task → Config
  | evaluate e => σ.evaluating e
  | execute s => σ.executing s
  | block body environment =>
    ⟨.completed .normal, [.sequence body, .restoration σ.current],
      { σ with current := environment }⟩
  | interpret program => σ.interpreting program

namespace Config

/-- The same with more that waits after all else. -/
def atop (c : Config) (below : List Pending) : Config := { c with pending := c.pending ++ below }

/-- The sink is replaced, for instance by one that will fail. -/
def disturb (c : Config) (behaviour : Sink → Sink) : Config :=
  { c with state := { c.state with sink := behaviour c.state.sink } }

/-- One step for each behaviour of the sink, which comes before the step. -/
def runThrough : List (Sink → Sink) → Config → Config
  | [], c => c
  | behaviour :: behaviours, c =>
    if c.finished then c else runThrough behaviours (c.disturb behaviour).step

/-- The next step calls a value with these arguments. -/
inductive Calls : Config → Value → Token → List Value → Prop where
  | bare {callee : Value} {paren : Token} {pending : List Pending} {σ : State} :
      Calls ⟨.value callee, .callee paren [] :: pending, σ⟩ callee paren []
  | applied {callee v : Value} {paren : Token} {before : List Value} {pending : List Pending}
      {σ : State} :
      Calls ⟨.value v, .argument callee paren before [] :: pending, σ⟩ callee paren
        (before.reverse ++ [v])

end Config

/-- A block is executed as a task in a new environment within the one in use. -/
theorem execute_block (body : List Stmt) (pending : List Pending) (σ : State) :
    execute (.block body) pending σ =
      ((Task.block body σ.store.nextEnvironment).start
        { σ with store := σ.store.addEnvironment (some σ.current) .empty }).atop pending :=
  rfl

/-! ## What is still to be given back -/

/-- How many calls are in progress. -/
def calls : List Pending → Nat
  | [] => 0
  | .body _ _ :: pending => calls pending + 1
  | _ :: pending => calls pending

/-- The environment in use once all that waits is over. -/
def lastEnvironment (e : EnvironmentId) : List Pending → EnvironmentId
  | [] => e
  | .restoration outer :: pending => lastEnvironment outer pending
  | .body caller _ :: pending => lastEnvironment caller pending
  | _ :: pending => lastEnvironment e pending

/-- The environment at the end stays, and the depth changes with the calls in progress. -/
structure Balanced (pending : List Pending) (σ : State) (c : Config) : Prop where
  environment : lastEnvironment c.state.current c.pending = lastEnvironment σ.current pending
  depth : c.state.depth + calls pending = σ.depth + calls c.pending
  limit : σ.depth ≤ maxDepth → c.state.depth ≤ maxDepth

section
variable {pending : List Pending} {σ : State}

/-- What came before with the same calls, the same depth and the same environment at the end. -/
theorem Balanced.since {pending' : List Pending} {σ' : State} {c : Config}
    (h : Balanced pending' σ' c)
    (environment : lastEnvironment σ'.current pending' = lastEnvironment σ.current pending)
    (same : calls pending' = calls pending) (depth : σ'.depth = σ.depth) : Balanced pending σ c where
  environment := h.environment.trans environment
  depth := by
    have := h.depth
    omega
  limit le := h.limit (depth ▸ le)

theorem balanced_property (object : Value) (name : Token) :
    Balanced pending σ (property object name pending σ) := by
  unfold property
  (repeat' split) <;> exact ⟨rfl, rfl, id⟩

theorem balanced_superMethod (id : Nat) (keyword method : Token) :
    Balanced pending σ (superMethod id keyword method pending σ) := by
  unfold superMethod
  (repeat' split) <;> exact ⟨rfl, rfl, fun h => h⟩

theorem balanced_enterBody (closure : Closure) (arguments : List Value)
    (shallow : σ.depth < maxDepth) : Balanced pending σ (enterBody closure arguments pending σ) :=
  ⟨rfl, show σ.depth + 1 + calls pending = σ.depth + (calls pending + 1) by omega,
    fun _ => shallow⟩

/-- A class call counts as one with its initializer. -/
theorem balanced_construct (c : ClassId) (arguments : List Value)
    (shallow : σ.depth < maxDepth) : Balanced pending σ (construct c arguments pending σ) := by
  unfold construct
  split
  · exact ⟨rfl, rfl, id⟩
  · next initializer _ =>
    let bound := (σ.store.addInstance c).bind initializer σ.store.nextInstance
    let σ₁ : State := { σ with store := bound.2 }
    have entered : Balanced (.construction σ.store.nextInstance :: pending) σ₁
        (enterBody bound.1 arguments (.construction σ.store.nextInstance :: pending) σ₁) :=
      balanced_enterBody bound.1 arguments shallow
    exact entered.since rfl rfl rfl

theorem balanced_call (callee : Value) (paren : Token) (arguments : List Value) :
    Balanced pending σ (call callee paren arguments pending σ) := by
  unfold call
  split
  · exact ⟨rfl, rfl, id⟩
  split
  · exact ⟨rfl, rfl, id⟩
  split
  · exact ⟨rfl, rfl, id⟩
  next shallow =>
  have shallow := Nat.lt_of_not_le shallow
  unfold apply
  split
  · exact ⟨rfl, rfl, id⟩
  · split
    · exact balanced_enterBody _ _ shallow
    · exact ⟨rfl, rfl, id⟩
  · exact balanced_construct _ _ shallow
  · exact ⟨rfl, rfl, id⟩

theorem balanced_nextArgument (callee : Value) (paren : Token) (before : List Value)
    (after : List Expr) : Balanced pending σ (nextArgument callee paren before after pending σ) := by
  cases after with
  | nil => exact balanced_call _ _ _
  | cons e rest => exact ⟨rfl, rfl, id⟩

theorem balanced_assign (id : Nat) (name : Token) (v : Value) :
    Balanced pending σ (assign id name v pending σ) := by
  unfold assign
  (repeat' split) <;> exact ⟨rfl, rfl, fun h => h⟩

theorem balanced_finishClass (name : Token) (parent : Option ClassId)
    (methods : List FunctionDecl) (environment : EnvironmentId) :
    Balanced pending σ (finishClass name parent methods environment pending σ) := by
  unfold finishClass
  simp only
  split <;> exact ⟨rfl, rfl, id⟩

theorem balanced_declareClass (name : Token) (parent : Option ClassId)
    (methods : List FunctionDecl) :
    Balanced pending σ (declareClass name parent methods pending σ) := by
  cases parent with
  | none => exact balanced_finishClass _ _ _ _
  | some c =>
    exact (balanced_finishClass (σ := { σ with store := _ }) _ _ _ _).since rfl rfl rfl

theorem balanced_evaluate (e : Expr) : Balanced pending σ (evaluate e pending σ) := by
  cases e with
  | superRef id keyword method => exact balanced_superMethod _ _ _
  | _ => exact ⟨rfl, rfl, id⟩

theorem balanced_execute (s : Stmt) : Balanced pending σ (execute s pending σ) := by
  cases s with
  | classDecl name parent methods =>
    cases parent with
    | none =>
      show Balanced pending σ (declareClass name none methods pending (σ.define name.lexeme .nil))
      exact (balanced_declareClass _ _ _).since rfl rfl rfl
    | some e => exact ⟨rfl, rfl, id⟩
  | returnWith keyword value => cases value <;> exact ⟨rfl, rfl, id⟩
  | varDecl name value => cases value <;> exact ⟨rfl, rfl, id⟩
  | _ => exact ⟨rfl, rfl, id⟩

theorem balanced_resume (v : Value) (first : Pending) :
    Balanced (first :: pending) σ (resume v first pending σ) := by
  cases first with
  | assignment id name => exact (balanced_assign _ _ _).since rfl rfl rfl
  | callee paren arguments => exact (balanced_nextArgument _ _ _ _).since rfl rfl rfl
  | argument callee paren before after => exact (balanced_nextArgument _ _ _ _).since rfl rfl rfl
  | property name => exact (balanced_property _ _).since rfl rfl rfl
  | superclass name expression methods =>
    cases v with
    | classRef c =>
      show Balanced _ σ (declareClass name (some c) methods pending σ)
      exact (balanced_declareClass _ _ _).since rfl rfl rfl
    | _ => exact ⟨rfl, rfl, id⟩
  | target name value => cases v <;> exact ⟨rfl, rfl, id⟩
  | decision | branch | loopTest =>
    simp only [resume]
    (repeat' split) <;> exact ⟨rfl, rfl, id⟩
  | _ => exact ⟨rfl, rfl, id⟩

/-- The end of a body gives the depth back, which is not zero while the call is in progress. -/
theorem balanced_leave {caller : EnvironmentId} {closure : Closure}
    (inside : calls (.body caller closure :: pending) ≤ σ.depth) (control : Control) :
    Balanced (.body caller closure :: pending) σ
      ⟨control, pending, { σ with current := caller, depth := σ.depth - 1 }⟩ where
  environment := rfl
  depth := by
    have inside : calls pending + 1 ≤ σ.depth := inside
    show σ.depth - 1 + (calls pending + 1) = σ.depth + calls pending
    omega
  limit le := Nat.le_trans (Nat.sub_le _ _) le

theorem balanced_proceed (c : Completion) {first : Pending}
    (inside : calls (first :: pending) ≤ σ.depth) :
    Balanced (first :: pending) σ (proceed c first pending σ) := by
  cases first with
  | body caller closure => exact balanced_leave inside _
  | loopBody condition body => cases c <;> exact ⟨rfl, rfl, id⟩
  | sequence rest => cases c <;> cases rest <;> exact ⟨rfl, rfl, id⟩
  | program rest => cases rest <;> exact ⟨rfl, rfl, id⟩
  | _ => exact ⟨rfl, rfl, id⟩

theorem balanced_unwind (f : Fault) {first : Pending}
    (inside : calls (first :: pending) ≤ σ.depth) :
    Balanced (first :: pending) σ (unwind f first pending σ) := by
  cases first with
  | body caller closure => exact balanced_leave inside _
  | _ => exact ⟨rfl, rfl, id⟩

end

namespace Config

/-- A step is balanced, whatever the configuration. -/
theorem balanced_step (c : Config) (inside : calls c.pending ≤ c.state.depth) :
    Balanced c.pending c.state c.step := by
  obtain ⟨control, pending, σ⟩ := c
  cases control with
  | evaluate e => exact balanced_evaluate e
  | execute s => exact balanced_execute s
  | value v =>
    cases pending with
    | nil => exact ⟨rfl, rfl, id⟩
    | cons first pending => exact balanced_resume v first
  | completed completion =>
    cases pending with
    | nil => exact ⟨rfl, rfl, id⟩
    | cons first pending => exact balanced_proceed completion inside
  | failed f =>
    cases pending with
    | nil => exact ⟨rfl, rfl, id⟩
    | cons first pending => exact balanced_unwind f inside

/-- What one step keeps a run keeps, whatever the sink does. -/
theorem balanced_runThrough (behaviours : List (Sink → Sink)) (c : Config)
    (inside : calls c.pending ≤ c.state.depth) :
    Balanced c.pending c.state (c.runThrough behaviours) := by
  induction behaviours generalizing c with
  | nil => exact ⟨rfl, rfl, id⟩
  | cons behaviour behaviours ih =>
    rw [runThrough]
    split
    · exact ⟨rfl, rfl, id⟩
    · have step := (c.disturb behaviour).balanced_step inside
      have deep : c.state.depth + calls (c.disturb behaviour).step.pending =
          (c.disturb behaviour).step.state.depth + calls c.pending := step.depth.symm
      have rest := ih (c.disturb behaviour).step (by omega)
      exact ⟨rest.environment.trans step.environment, by have := rest.depth; omega,
        fun le => rest.limit (step.limit le)⟩

/-! ## Tasks within others -/

section
variable {pending below : List Pending} {σ : State}

theorem call_atop (callee : Value) (paren : Token) (arguments : List Value) :
    call callee paren arguments (pending ++ below) σ =
      (call callee paren arguments pending σ).atop below := by
  unfold call apply construct
  (repeat' split) <;> rfl

theorem finishClass_atop (name : Token) (parent : Option ClassId) (methods : List FunctionDecl)
    (environment : EnvironmentId) :
    finishClass name parent methods environment (pending ++ below) σ =
      (finishClass name parent methods environment pending σ).atop below := by
  unfold finishClass
  simp only
  split <;> rfl

theorem declareClass_atop (name : Token) (parent : Option ClassId) (methods : List FunctionDecl) :
    declareClass name parent methods (pending ++ below) σ =
      (declareClass name parent methods pending σ).atop below := by
  cases parent <;> exact finishClass_atop _ _ _ _

theorem nextArgument_atop (callee : Value) (paren : Token) (before : List Value)
    (after : List Expr) : nextArgument callee paren before after (pending ++ below) σ =
      (nextArgument callee paren before after pending σ).atop below := by
  cases after with
  | nil => exact call_atop _ _ _
  | cons e rest => rfl

theorem evaluate_atop (e : Expr) :
    Lox.evaluate e (pending ++ below) σ = (Lox.evaluate e pending σ).atop below := by
  cases e with
  | superRef id keyword method =>
    simp only [Lox.evaluate, superMethod]
    (repeat' split) <;> rfl
  | _ => rfl

theorem execute_atop (s : Stmt) :
    Lox.execute s (pending ++ below) σ = (Lox.execute s pending σ).atop below := by
  cases s with
  | classDecl name parent methods =>
    cases parent with
    | none => exact declareClass_atop (σ := σ.define name.lexeme .nil) name none methods
    | some e => rfl
  | returnWith keyword value => cases value <;> rfl
  | varDecl name value => cases value <;> rfl
  | _ => rfl

theorem resume_atop (v : Value) (first : Pending) :
    resume v first (pending ++ below) σ = (resume v first pending σ).atop below := by
  cases first with
  | callee paren arguments => exact nextArgument_atop _ _ _ _
  | argument callee paren before after => exact nextArgument_atop _ _ _ _
  | superclass name expression methods =>
    cases v with
    | classRef c => exact declareClass_atop name (some c) methods
    | _ => rfl
  | assignment | property | decision | branch | loopTest | target =>
    simp only [resume, assign, property]
    (repeat' split) <;> rfl
  | _ => rfl

theorem proceed_atop (c : Completion) (first : Pending) :
    proceed c first (pending ++ below) σ = (proceed c first pending σ).atop below := by
  unfold proceed
  (repeat' split) <;> rfl

theorem unwind_atop (f : Fault) (first : Pending) :
    unwind f first (pending ++ below) σ = (unwind f first pending σ).atop below := by
  unfold unwind
  split <;> rfl

end

/-- A configuration that has no result yet makes the same step whatever waits after it. -/
theorem step_atop {c : Config} (unfinished : c.finished = false) (below : List Pending) :
    (c.atop below).step = c.step.atop below := by
  obtain ⟨control, pending, σ⟩ := c
  cases control with
  | evaluate e => exact evaluate_atop e
  | execute s => exact execute_atop s
  | value v =>
    cases pending with
    | nil => cases unfinished
    | cons first pending => exact resume_atop v first
  | completed completion =>
    cases pending with
    | nil => cases unfinished
    | cons first pending => exact proceed_atop completion first
  | failed f =>
    cases pending with
    | nil => cases unfinished
    | cons first pending => exact unwind_atop f first

theorem finished_disturb (c : Config) (behaviour : Sink → Sink) :
    (c.disturb behaviour).finished = c.finished := by
  obtain ⟨control, pending, σ⟩ := c
  cases control <;> rfl

theorem finished_atop {c : Config} (unfinished : c.finished = false) (below : List Pending) :
    (c.atop below).finished = false := by
  obtain ⟨control, pending, σ⟩ := c
  cases control <;> cases pending <;> first
    | rfl
    | cases unfinished

/-- A run over what waits passes through the configurations of the run without it, up to the one
that has the result. -/
theorem runThrough_atop (behaviours : List (Sink → Sink)) (c : Config) (below : List Pending) :
    ∃ m ≤ behaviours.length, (c.atop below).runThrough (behaviours.take m) =
      (c.runThrough behaviours).atop below := by
  induction behaviours generalizing c with
  | nil => exact ⟨0, Nat.le_refl 0, rfl⟩
  | cons behaviour behaviours ih =>
    cases hc : c.finished with
    | true =>
      refine ⟨0, Nat.zero_le _, ?_⟩
      rw [runThrough, if_pos hc]
      rfl
    | false =>
      obtain ⟨m, hm, passed⟩ := ih (c.disturb behaviour).step
      have same := step_atop ((c.finished_disturb behaviour).trans hc) below
      refine ⟨m + 1, Nat.succ_le_succ hm, ?_⟩
      have going := finished_atop hc below
      rw [List.take_succ_cons, runThrough, runThrough, hc, going]
      show runThrough _ ((c.disturb behaviour).atop below).step = _
      rw [same]
      exact passed

end Config

/-! ## When the stack overflows -/

section
variable {line : Nat} {σ : State} {pending : List Pending}

theorem lookup_fault {id : Nat} {name : Token} {f : Fault} (h : σ.lookup id name = .error f) :
    f = Store.undefined name ∨ f = Store.unresolved name := by
  unfold State.lookup Store.getAt Store.get at h
  (repeat' split at h) <;> cases h
  · exact .inr rfl
  · exact .inl rfl

theorem getAt_fault {store : Store} {e : EnvironmentId} {distance : Nat} {name : Token} {f : Fault}
    (h : store.getAt e distance name = .error f) : f = Store.unresolved name := by
  unfold Store.getAt at h
  split at h <;> cases h
  rfl

theorem superParts_fault {id : Nat} {keyword : Token} {f : Fault}
    (h : superParts σ id keyword = .error f) :
    ∃ name, f = .runtime (.unresolvedVariable name) keyword.line := by
  unfold superParts at h
  simp only at h
  split at h
  · cases h
    exact ⟨_, rfl⟩
  split at h
  · next hg =>
    cases h
    exact ⟨_, getAt_fault hg⟩
  · (repeat' split at h) <;> cases h <;> exact ⟨_, rfl⟩
  · cases h
    exact ⟨_, rfl⟩

theorem evaluate_shallow (e : Expr) :
    (evaluate e pending σ).control ≠ .failed (.runtime .stackOverflow line) := by
  have looked {id : Nat} {name : Token} :
      Control.ofExcept (σ.lookup id name) ≠ .failed (.runtime .stackOverflow line) := by
    cases hr : σ.lookup id name with
    | ok v => rintro ⟨⟩
    | error f => rcases lookup_fault hr with rfl | rfl <;> rintro ⟨⟩
  cases e with
  | var id name => exact looked
  | thisRef id keyword => exact looked
  | superRef id keyword method =>
    simp only [evaluate, superMethod]
    split
    · next f hf =>
      obtain ⟨name, rfl⟩ := superParts_fault hf
      rintro ⟨⟩
    · split <;> rintro ⟨⟩
  | _ => rintro ⟨⟩

theorem finishClass_shallow (name : Token) (parent : Option ClassId)
    (methods : List FunctionDecl) (environment : EnvironmentId) :
    (finishClass name parent methods environment pending σ).control ≠
      .failed (.runtime .stackOverflow line) := by
  unfold finishClass Store.assign
  simp only
  split
  · nofun
  · next f hf =>
    split at hf <;> cases hf
    nofun

theorem declareClass_shallow (name : Token) (parent : Option ClassId)
    (methods : List FunctionDecl) :
    (declareClass name parent methods pending σ).control ≠
      .failed (.runtime .stackOverflow line) := by
  cases parent <;> exact finishClass_shallow _ _ _ _

theorem execute_shallow (s : Stmt) :
    (execute s pending σ).control ≠ .failed (.runtime .stackOverflow line) := by
  cases s with
  | classDecl name parent methods =>
    cases parent with
    | none => exact declareClass_shallow (σ := σ.define name.lexeme .nil) name none methods
    | some e => nofun
  | returnWith keyword value => cases value <;> nofun
  | varDecl name value => cases value <;> nofun
  | _ => nofun

theorem assign_shallow (id : Nat) (name : Token) (v : Value) :
    (assign id name v pending σ).control ≠ .failed (.runtime .stackOverflow line) := by
  unfold assign Store.assignAt Store.assign
  split
  · split
    · nofun
    · next hf =>
      split at hf <;> cases hf
      nofun
  · split
    · nofun
    · next hf =>
      split at hf <;> cases hf
      nofun

theorem binary_shallow (operator : Token) (left right : Value) :
    binary operator left right ≠ .failed (.runtime .stackOverflow line) := by
  unfold binary Control.fault
  (repeat' split) <;> nofun

theorem unary_shallow (operator : Token) (right : Value) :
    unary operator right ≠ .failed (.runtime .stackOverflow line) := by
  unfold unary Control.fault
  (repeat' split) <;> nofun

theorem property_shallow (object : Value) (name : Token) :
    (property object name pending σ).control ≠ .failed (.runtime .stackOverflow line) := by
  unfold property Control.fault
  (repeat' split) <;> rintro ⟨⟩

theorem apply_shallow (callee : Value) (paren : Token) (arguments : List Value) :
    (apply callee paren arguments pending σ).control ≠ .failed (.runtime .stackOverflow line) := by
  unfold apply construct enterBody Control.fault
  (repeat' split) <;> rintro ⟨⟩

/-- A call overflows if it is deep enough and the count of arguments is right. -/
theorem call_overflows (callee : Value) (paren : Token) (arguments : List Value) :
    (call callee paren arguments pending σ).control = .failed (.runtime .stackOverflow line) ↔
      σ.store.arity? callee = some arguments.length ∧ maxDepth ≤ σ.depth ∧ paren.line = line := by
  unfold call
  split
  · next arity =>
    rw [arity]
    exact ⟨nofun, nofun⟩
  next arity hn =>
  rw [hn]
  split
  · next wrong => exact ⟨nofun, fun h => absurd (Option.some.inj h.1).symm wrong⟩
  next right =>
  split
  · next deep =>
    refine ⟨fun h => ⟨congrArg some (not_not.mp right).symm, deep, ?_⟩, fun h => ?_⟩
    · cases h
      rfl
    · rw [← h.2.2]
      rfl
  · next shallow =>
    exact ⟨fun h => absurd h (apply_shallow _ _ _), fun h => absurd h.2.1 shallow⟩

/-- A value that is given to what waits overflows nothing unless it completes a call. -/
theorem resume_overflows {v : Value} {first : Pending}
    (h : (resume v first pending σ).control = .failed (.runtime .stackOverflow line)) :
    ∃ callee paren arguments,
      Config.Calls ⟨.value v, first :: pending, σ⟩ callee paren arguments := by
  cases first with
  | callee paren arguments =>
    cases arguments with
    | nil => exact ⟨_, _, _, .bare⟩
    | cons e rest => cases h
  | argument callee paren before after =>
    cases after with
    | nil => exact ⟨_, _, _, .applied⟩
    | cons e rest => cases h
  | assignment id name => exact absurd h (assign_shallow _ _ _)
  | property name => exact absurd h (property_shallow _ _)
  | operation left operator => exact absurd h (binary_shallow _ _ _)
  | negation operator => exact absurd h (unary_shallow _ _)
  | superclass name expression methods =>
    cases v with
    | classRef c => exact absurd h (declareClass_shallow name (some c) methods)
    | _ => cases h
  | target name value => cases v <;> cases h
  | printing =>
    simp only [resume, print] at h
    split at h <;> cases h
  | decision | branch | loopTest =>
    simp only [resume] at h
    (repeat' split at h) <;> cases h
  | _ => cases h

end

/-- What is called is applied in the next step. -/
theorem Config.Calls.step {c : Config} {callee : Value} {paren : Token} {arguments : List Value}
    (h : c.Calls callee paren arguments) :
    ∃ pending, c.step = call callee paren arguments pending c.state ∧
      ∀ f, c.control ≠ .failed f := by
  cases h with
  | @bare callee paren pending σ => exact ⟨pending, rfl, fun f hf => by cases hf⟩
  | @applied callee v paren before pending σ =>
    have step : Config.step ⟨.value v, .argument callee paren before [] :: pending, σ⟩ =
        call callee paren (v :: before).reverse pending σ := rfl
    rw [step, List.reverse_cons]
    exact ⟨pending, rfl, fun f hf => by cases hf⟩

/-- The stack overflows in a call and nowhere else: one that has the right count of arguments at
the greatest depth. -/
theorem Config.raises_stackOverflow (c : Config) (line : Nat) :
    c.Raises (.runtime .stackOverflow line) ↔ ∃ callee paren arguments,
      c.Calls callee paren arguments ∧ c.state.store.arity? callee = some arguments.length ∧
        maxDepth ≤ c.state.depth ∧ paren.line = line := by
  constructor
  · rintro ⟨raised, new⟩
    have called : ∃ callee paren arguments, c.Calls callee paren arguments := by
      obtain ⟨control, pending, σ⟩ := c
      cases control with
      | evaluate e => exact absurd raised (evaluate_shallow _)
      | execute s => exact absurd raised (execute_shallow _)
      | value v =>
        cases pending with
        | nil => cases raised
        | cons first pending => exact resume_overflows raised
      | completed completion =>
        cases pending with
        | nil => cases raised
        | cons first pending => exact absurd raised (proceed_resolved _ _ _)
      | failed f => exact absurd rfl (new f)
    obtain ⟨callee, paren, arguments, called⟩ := called
    obtain ⟨pending, step, _⟩ := called.step
    rw [step] at raised
    exact ⟨callee, paren, arguments, called, (call_overflows _ _ _).mp raised⟩
  · rintro ⟨callee, paren, arguments, called, overflows⟩
    obtain ⟨pending, step, new⟩ := called.step
    refine ⟨?_, new⟩
    rw [step]
    exact (call_overflows _ _ _).mpr overflows

/-! ## Tasks that end -/

/-- An undisturbed run. -/
theorem Config.run_eq_runThrough (fuel : Nat) (c : Config) :
    c.run fuel = c.runThrough (List.replicate fuel id) := by
  induction fuel generalizing c with
  | zero => rfl
  | succ fuel ih =>
    rw [run, List.replicate_succ, runThrough, ih]
    rfl

section
variable (σ : State) (task : Task) (behaviours : List (Sink → Sink))

/-- A task starts with no call in progress, and its end gives back the environment in use. -/
theorem Task.start_balanced : Balanced [] σ (task.start σ) := by
  cases task <;> exact ⟨rfl, rfl, id⟩

theorem Task.balanced : Balanced [] σ ((task.start σ).runThrough behaviours) := by
  have start := task.start_balanced σ
  have none : calls [] = 0 := rfl
  have depth := start.depth
  have run := Config.balanced_runThrough behaviours (task.start σ) (by omega)
  have later := run.depth
  exact ⟨run.environment.trans start.environment, by omega, fun le => run.limit (start.limit le)⟩

/-- A task that has its result has given everything back. -/
theorem Task.restored (done : ((task.start σ).runThrough behaviours).finished = true) :
    ((task.start σ).runThrough behaviours).state.current = σ.current ∧
      ((task.start σ).runThrough behaviours).state.depth = σ.depth := by
  obtain ⟨environment, depth, _⟩ := task.balanced σ behaviours
  have emptied : ((task.start σ).runThrough behaviours).pending = [] := by
    generalize (task.start σ).runThrough behaviours = c at done
    obtain ⟨control, pending, σ⟩ := c
    cases pending with
    | nil => rfl
    | cons first pending => cases control <;> cases done
  rw [emptied] at environment depth
  exact ⟨environment, depth⟩

end

/-- So has a run of a program that came to an end. -/
theorem State.interpreting_restored {σ τ : State} {program : List Stmt} {fuel : Nat}
    {own : Option Fault} (h : ((σ.interpreting program).run fuel).ending? = some (own, τ)) :
    τ.current = σ.current ∧ τ.depth = σ.depth := by
  obtain ⟨done, rfl⟩ := Config.finished_of_ending? h
  rw [Config.run_eq_runThrough] at done ⊢
  exact (Task.interpret program).restored σ _ done

/-- What a session that is reached has in use. -/
theorem Session.Reached.restored {programs : List (List Stmt)} {s : Session}
    (h : Session.Reached programs s) :
    s.state.current = State.globals ∧ s.state.depth = 0 := by
  induction h with
  | initial => exact ⟨rfl, rfl⟩
  | rejected _ load ih =>
    obtain ⟨_, same | ⟨program, _, same⟩⟩ := load_error load <;> exact same ▸ ih
  | between _ _ _ ih => exact ih
  | @ended _ _ s' s'' _ program fuel _ _ load finish ih =>
    obtain ⟨_, _, _, _, rfl⟩ := load_ok load
    obtain ⟨ending, he, hs⟩ := Option.map_eq_some_iff.mp finish
    cases hs
    obtain ⟨current, depth⟩ := State.interpreting_restored he
    exact ⟨current.trans ih.1, depth.trans ih.2⟩

/-- However a task ends it gives back the environment and the depth of calls, in every state and
for every behaviour of the sink. Until then the depth counts the calls in progress and is never
driven above the greatest one; what waits for the task makes no difference to it. The stack
overflows just where something that can be called, with the right count of arguments, is called at
the greatest depth. Between two sources of a session the global environment is in use and the
depth is zero. -/
theorem exits_restore :
    (∀ (σ : State) (task : Task) (behaviours : List (Sink → Sink)),
      let c := (task.start σ).runThrough behaviours
      c.state.depth = σ.depth + calls c.pending ∧
        (σ.depth ≤ maxDepth → c.state.depth ≤ maxDepth) ∧
        (c.finished = true → c.state.current = σ.current ∧ c.state.depth = σ.depth) ∧
        (∀ own after, c.ending? = some (own, after) →
          after.current = σ.current ∧ after.depth = σ.depth) ∧
        ∀ below, ∃ m ≤ behaviours.length,
          ((task.start σ).atop below).runThrough (behaviours.take m) = c.atop below) ∧
      (∀ (c : Config) (line : Nat), c.Raises (.runtime .stackOverflow line) ↔
        ∃ callee paren arguments, c.Calls callee paren arguments ∧
          c.state.store.arity? callee = some arguments.length ∧ maxDepth ≤ c.state.depth ∧
            paren.line = line) ∧
      ∀ programs s, Session.Reached programs s →
        s.state.current = State.globals ∧ s.state.depth = 0 := by
  refine ⟨fun σ task behaviours => ?_, Config.raises_stackOverflow, fun _ _ h => h.restored⟩
  have balanced := task.balanced σ behaviours
  refine ⟨balanced.depth, balanced.limit, task.restored σ behaviours, fun own after he => ?_,
    (task.start σ).runThrough_atop behaviours⟩
  obtain ⟨done, rfl⟩ := Config.finished_of_ending? he
  exact task.restored σ behaviours done

end Lox
