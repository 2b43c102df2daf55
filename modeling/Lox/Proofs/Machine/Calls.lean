import Lox.Proofs.Machine.Objects
import Lox.Proofs.Machine.Origins
import Lox.Proofs.Machine.Restoration
import Lox.Proofs.Machine.Returns

/-!
# Calls

A body is started by a call and by nothing else, and a call starts it only with as many arguments as
there are parameters, each of which is bound to its argument. What waits for the result of a call
stays below all that waits in it, so the call goes as it would go with nothing below.
-/
namespace Lox

/-! ## Starting a body -/

/-- The functions whose bodies are in progress, the innermost first. -/
def activeBodies : List Pending → List Closure
  | [] => []
  | .body _ closure :: pending => closure :: activeBodies pending
  | _ :: pending => activeBodies pending

theorem mem_activeBodies {caller : EnvironmentId} {closure : Closure} {pending : List Pending}
    (h : .body caller closure ∈ pending) : closure ∈ activeBodies pending := by
  induction pending with
  | nil => cases h
  | cons first pending ih =>
    rcases List.mem_cons.mp h with rfl | waits
    · exact List.mem_cons_self
    · cases first with
      | body => exact List.mem_cons_of_mem _ (ih waits)
      | _ => exact ih waits

/-- The initializer of a class on an instance that is made for a call of the class. -/
def Store.initializing (σ : Store) (k : ClassId) (initializer : Closure) : Closure × Store :=
  (σ.addInstance k).bind initializer σ.nextInstance

/-- The next step calls a function with as many arguments as it has parameters, or a class with as
many as its initializer has, and starts the body. What waits then is told last. -/
inductive Config.Invokes (c : Config) : Closure → List Value → List Pending → Prop where
  | function {id : FunctionId} {closure : Closure} {paren : Token} {arguments : List Value}
      (calls : c.Calls (.functionRef id) paren arguments)
      (stored : c.state.store.functions[id]? = some closure)
      (counted : arguments.length = closure.decl.params.length)
      (step : c.step = enterBody closure arguments c.pending.tail c.state) :
      Invokes c closure arguments c.pending.tail
  | construction {k : ClassId} {initializer : Closure} {paren : Token} {arguments : List Value}
      (calls : c.Calls (.classRef k) paren arguments)
      (found : c.state.store.findMethod k initializerName = some initializer)
      (counted : arguments.length = initializer.decl.params.length)
      (step : c.step = enterBody (c.state.store.initializing k initializer).1 arguments
        (.construction c.state.store.nextInstance :: c.pending.tail)
        { c.state with store := (c.state.store.initializing k initializer).2 }) :
      Invokes c (c.state.store.initializing k initializer).1 arguments
        (.construction c.state.store.nextInstance :: c.pending.tail)

section
variable {c : Config} {callee : Value} {paren : Token} {arguments : List Value}

theorem Config.Calls.step_call (h : c.Calls callee paren arguments) :
    c.step = call callee paren arguments c.pending.tail c.state := by
  cases h with
  | bare => rfl
  | @applied callee v paren before pending σ =>
    show call callee paren (v :: before).reverse pending σ = _
    rw [List.reverse_cons]
    rfl

/-- A call that does not pass the checks is a fault, and any other is applied, whatever waits. -/
theorem call_checked (callee : Value) (paren : Token) (arguments : List Value) (σ : State) :
    (∃ f, ∀ pending, call callee paren arguments pending σ = ⟨.failed f, pending, σ⟩) ∨
      σ.store.arity? callee = some arguments.length ∧
        ∀ pending, call callee paren arguments pending σ =
          apply callee paren arguments pending σ := by
  unfold call
  cases σ.store.arity? callee with
  | none => exact .inl ⟨_, fun _ => rfl⟩
  | some arity =>
    simp only
    split
    · exact .inl ⟨_, fun _ => rfl⟩
    · next same =>
      split
      · exact .inl ⟨_, fun _ => rfl⟩
      · exact .inr ⟨congrArg some (not_not.mp same).symm, fun _ => rfl⟩

/-- A class without an initializer takes no arguments and is applied at once. -/
theorem Config.class_applied {k : ClassId}
    (counted : c.state.store.arity? (.classRef k) = some arguments.length)
    (step : c.step = apply (.classRef k) paren arguments c.pending.tail c.state) :
    (c.state.store.findMethod k initializerName = none ∧ arguments = [] ∧
      c.step = ⟨.value (.instanceRef c.state.store.nextInstance), c.pending.tail,
        { c.state with store := c.state.store.addInstance k }⟩) ∨
    ∃ initializer, c.state.store.findMethod k initializerName = some initializer ∧
      arguments.length = initializer.decl.params.length ∧
      c.step = enterBody (c.state.store.initializing k initializer).1 arguments
        (.construction c.state.store.nextInstance :: c.pending.tail)
        { c.state with store := (c.state.store.initializing k initializer).2 } := by
  simp only [apply, construct] at step
  cases found : c.state.store.findMethod k initializerName with
  | none =>
    simp only [Store.arity?, found, Option.map_none, Option.getD_none, Option.some.injEq] at counted
    simp only [found] at step
    exact .inl ⟨rfl, List.length_eq_zero_iff.mp counted.symm, step⟩
  | some initializer =>
    simp only [Store.arity?, found, Option.map_some, Option.getD_some, Option.some.injEq] at counted
    simp only [found] at step
    exact .inr ⟨initializer, rfl, counted.symm, step⟩

/-- What a call comes to at once: a result, or the body of a function. -/
theorem Config.Calls.outcome (h : c.Calls callee paren arguments) :
    c.step.pending = c.pending.tail ∨ ∃ closure rest, c.Invokes closure arguments rest := by
  have step := h.step_call
  rcases call_checked callee paren arguments c.state with ⟨f, failed⟩ | ⟨counted, applied⟩
  · exact .inl (by rw [step, failed])
  rw [applied] at step
  cases callee with
  | native function =>
    cases function
    exact .inl (by rw [step]; rfl)
  | functionRef id =>
    cases stored : c.state.store.functions[id]? with
    | none => exact .inl (by rw [step, apply, stored])
    | some closure =>
      simp only [Store.arity?, stored, Option.map_some, Option.some.injEq] at counted
      simp only [apply, stored] at step
      exact .inr ⟨_, _, .function h stored counted.symm step⟩
  | classRef k =>
    rcases Config.class_applied counted step with ⟨_, _, created⟩ | ⟨_, found, counted, started⟩
    · exact .inl (by rw [created])
    · exact .inr ⟨_, _, .construction h found counted started⟩
  | nil | bool | number | string | instanceRef => cases counted

theorem Config.Calls.activeBodies_tail (h : c.Calls callee paren arguments) :
    activeBodies c.pending.tail = activeBodies c.pending := by
  cases h <;> rfl

end

section
variable {c : Config} {closure : Closure} {arguments : List Value} {rest pending : List Pending}
  {σ : State}

theorem Config.Invokes.activeBodies (h : c.Invokes closure arguments rest) :
    Lox.activeBodies c.step.pending = closure :: Lox.activeBodies c.pending := by
  cases h with
  | function calls _ _ step =>
    rw [step, ← calls.activeBodies_tail]
    rfl
  | construction calls _ _ step =>
    rw [step, ← calls.activeBodies_tail]
    rfl

theorem activeBodies_declareClass (name : Token) (parent : Option ClassId)
    (methods : List FunctionDecl) :
    activeBodies (declareClass name parent methods pending σ).pending = activeBodies pending := by
  cases parent <;>
  · simp only [declareClass, finishClass]
    split <;> rfl

theorem activeBodies_evaluate (e : Expr) :
    activeBodies (evaluate e pending σ).pending = activeBodies pending := by
  cases e with
  | superRef id keyword method =>
    simp only [evaluate, superMethod]
    (repeat' split) <;> rfl
  | _ => rfl

theorem activeBodies_execute (s : Stmt) :
    activeBodies (execute s pending σ).pending = activeBodies pending := by
  cases s with
  | classDecl name parent methods =>
    cases parent with
    | none => exact activeBodies_declareClass (σ := σ.define name.lexeme .nil) name none methods
    | some e => rfl
  | returnWith keyword value | varDecl name value => cases value <;> rfl
  | _ => rfl

theorem activeBodies_resume (v : Value) (first : Pending) :
    activeBodies (resume v first pending σ).pending = activeBodies (first :: pending) ∨
      ∃ callee paren arguments,
        Config.Calls ⟨.value v, first :: pending, σ⟩ callee paren arguments := by
  cases first with
  | callee paren arguments =>
    cases arguments with
    | nil => exact .inr ⟨_, _, _, .bare⟩
    | cons e rest => exact .inl rfl
  | argument callee paren before after =>
    cases after with
    | nil => exact .inr ⟨_, _, _, .applied⟩
    | cons e rest => exact .inl rfl
  | superclass name expression methods =>
    cases v with
    | classRef k => exact .inl (activeBodies_declareClass name (some k) methods)
    | _ => exact .inl rfl
  | target name value => cases v <;> exact .inl rfl
  | assignment | property | decision | branch | loopTest =>
    refine .inl ?_
    simp only [resume, assign, property]
    (repeat' split) <;> rfl
  | _ => exact .inl rfl

/-- A body is in progress from the step that starts it to the one that ends it. -/
theorem Config.activeBodies_step (c : Config) :
    Lox.activeBodies c.step.pending = Lox.activeBodies c.pending ∨
      (∃ closure, Lox.activeBodies c.pending = closure :: Lox.activeBodies c.step.pending) ∨
      ∃ closure arguments rest, c.Invokes closure arguments rest := by
  obtain ⟨control, pending, σ⟩ := c
  cases control with
  | evaluate e => exact .inl (activeBodies_evaluate e)
  | execute s => exact .inl (activeBodies_execute s)
  | value v =>
    cases pending with
    | nil => exact .inl rfl
    | cons first pending =>
      rcases activeBodies_resume v first with same | ⟨callee, paren, arguments, calls⟩
      · exact .inl same
      · rcases calls.outcome with done | ⟨closure, rest, invokes⟩
        · exact .inl ((congrArg _ done).trans calls.activeBodies_tail)
        · exact .inr (.inr ⟨closure, arguments, rest, invokes⟩)
  | completed completion =>
    cases pending with
    | nil => exact .inl rfl
    | cons first pending =>
      cases first with
      | body caller closure => exact .inr (.inl ⟨closure, rfl⟩)
      | loopBody condition body => cases completion <;> exact .inl rfl
      | sequence rest => cases completion <;> cases rest <;> exact .inl rfl
      | program rest => cases rest <;> exact .inl rfl
      | _ => exact .inl rfl
  | failed f =>
    cases pending with
    | nil => exact .inl rfl
    | cons first pending =>
      cases first with
      | body caller closure => exact .inr (.inl ⟨closure, rfl⟩)
      | _ => exact .inl rfl

/-- A body that comes to those in progress is started by a call. -/
theorem Config.invokes_of_activeBodies
    (started : Lox.activeBodies c.step.pending = closure :: Lox.activeBodies c.pending) :
    ∃ arguments rest, c.Invokes closure arguments rest := by
  rcases c.activeBodies_step with same | ⟨ended, same⟩ | ⟨other, arguments, rest, invokes⟩
  · exact absurd (started.symm.trans same) (List.cons_ne_self _ _)
  · have more := congrArg List.length started
    have fewer := congrArg List.length same
    simp only [List.length_cons] at more fewer
    omega
  · obtain rfl : other = closure := (List.cons.inj (invokes.activeBodies.symm.trans started)).1
    exact ⟨arguments, rest, invokes⟩

theorem Config.Invokes.calls (h : c.Invokes closure arguments rest) :
    ∃ callee paren, c.Calls callee paren arguments := by
  cases h with
  | function calls => exact ⟨_, _, calls⟩
  | construction calls => exact ⟨_, _, calls⟩

/-- A function that is called was met by the walk. -/
theorem Config.Invokes.sourced {programs : List (List Stmt)} (h : c.Invokes closure arguments rest)
    (store : c.state.store.Sourced programs) : Sourced programs closure := by
  cases h with
  | function _ stored => exact store.functions _ _ stored
  | @construction k initializer _ _ _ found =>
    have met : Sourced programs initializer := store.findMethod found
    exact met

end

/-! ## Parameters -/

/-- A name that is declared twice in one scope is a fault, so parameters have different names. -/
theorem Scope.params_distinct {scope : Bindings Bool} {scopes : Scopes} {params : List Token}
    (clean : (introduceAll (scope :: scopes) params).2.faults = []) :
    (params.map Token.lexeme).Nodup ∧ ∀ p ∈ params, scope.contains p.lexeme = false := by
  induction params generalizing scope with
  | nil => exact ⟨List.nodup_nil, nofun⟩
  | cons param params ih =>
    simp only [introduceAll, introduce, declare, Scope.define, Report.faults_append,
      List.append_eq_nil_iff] at clean
    obtain ⟨first, others⟩ := clean
    obtain ⟨distinct, fresh⟩ := ih others
    have new : scope.contains param.lexeme = false := by
      cases h : scope.contains param.lexeme with
      | false => rfl
      | true =>
        rw [h] at first
        cases first
    have absent (p : Token) (hp : p ∈ params) :
        p.lexeme ≠ param.lexeme ∧ scope.contains p.lexeme = false := by
      have after := fresh p hp
      rw [Bindings.contains, get?_introduced] at after
      split at after
      · cases after
      · next other => exact ⟨other, after⟩
    refine ⟨List.nodup_cons.mpr ⟨fun again => ?_, distinct⟩,
      List.forall_mem_cons.mpr ⟨new, fun p hp => (absent p hp).2⟩⟩
    obtain ⟨p, hp, same⟩ := List.mem_map.mp again
    exact (absent p hp).1 same

theorem get?_foldl_absent {pairs : List (Token × Value)} {name : String}
    (absent : ∀ pair ∈ pairs, pair.1.lexeme ≠ name) (b : Bindings Value) :
    (pairs.foldl (fun b pair => b.insert pair.1.lexeme pair.2) b).get? name = b.get? name := by
  induction pairs generalizing b with
  | nil => rfl
  | cons pair pairs ih =>
    obtain ⟨first, others⟩ := List.forall_mem_cons.mp absent
    rw [List.foldl_cons, ih others, Bindings.get?_insert, if_neg first.symm]

/-- Parameters with different names are bound to the arguments in order. -/
theorem parameterBindings_bound {params : List Token} {arguments : List Value}
    (distinct : (params.map Token.lexeme).Nodup) (counted : arguments.length = params.length) :
    List.Forall₂ (fun param v => (parameterBindings params arguments).get? param.lexeme = some v)
      params arguments := by
  have along (params : List Token) (arguments : List Value) (b : Bindings Value)
      (distinct : (params.map Token.lexeme).Nodup) (counted : arguments.length = params.length) :
      List.Forall₂ (fun param v => ((params.zip arguments).foldl
        (fun b pair => b.insert pair.1.lexeme pair.2) b).get? param.lexeme = some v)
        params arguments := by
    induction params generalizing arguments b with
    | nil =>
      obtain rfl := List.length_eq_zero_iff.mp counted
      exact .nil
    | cons param params ih =>
      cases arguments with
      | nil => cases counted
      | cons v arguments =>
        obtain ⟨first, others⟩ := List.nodup_cons.mp distinct
        refine .cons ?_ (ih arguments _ others (Nat.succ.inj counted))
        have absent : ∀ pair ∈ params.zip arguments, pair.1.lexeme ≠ param.lexeme := by
          intro pair hp same
          exact first (same ▸ List.mem_map_of_mem (List.of_mem_zip hp).1)
        rw [List.zip_cons_cons, List.foldl_cons, get?_foldl_absent absent, Bindings.get?_insert,
          if_pos rfl]
  exact along params arguments .empty distinct counted

/-- The next step starts the body of a closure, in a new environment within that of the closure,
with each parameter bound to its argument. -/
structure Config.Starts (c : Config) (closure : Closure) (arguments : List Value)
    (rest : List Pending) : Prop where
  now : c.step.control = .completed .normal
  waiting : c.step.pending =
    .sequence closure.decl.body :: .body c.state.current closure :: rest
  inside : c.step.state.store.enclosing? c.step.state.current = some closure.environment
  bound : List.Forall₂ (fun param v =>
    c.step.state.store.local? c.step.state.current param.lexeme = some v)
    closure.decl.params arguments

section
variable {c : Config} {closure : Closure} {arguments : List Value} {rest : List Pending}

theorem Config.starts_of_step {σ : State} (step : c.step = enterBody closure arguments rest σ)
    (current : σ.current = c.state.current)
    (distinct : (closure.decl.params.map Token.lexeme).Nodup)
    (counted : arguments.length = closure.decl.params.length) :
    c.Starts closure arguments rest := by
  constructor
  · rw [step]
    rfl
  · rw [step, ← current]
    rfl
  · rw [step]
    exact (Store.enclosing?_addEnvironment _ _ _ _).trans (if_pos rfl)
  · rw [step]
    refine (parameterBindings_bound distinct counted).imp fun param v bound => ?_
    exact (Store.local?_addEnvironment _ _ _ _ _).trans ((if_pos rfl).trans bound)

theorem Config.Invokes.starts (h : c.Invokes closure arguments rest)
    (distinct : (closure.decl.params.map Token.lexeme).Nodup) : c.Starts closure arguments rest := by
  cases h with
  | function _ _ counted step => exact starts_of_step step rfl distinct counted
  | construction _ _ counted step => exact starts_of_step step rfl distinct counted

end

/-- A function that the walk came to without a fault has parameters with different names. -/
theorem Sourced.params_distinct {programs : List (List Stmt)} {table : Distances} {n : Nat}
    (recorded : Recorded programs table n) {closure : Closure} (h : Sourced programs closure) :
    (closure.decl.params.map Token.lexeme).Nodup := by
  obtain ⟨ctx, kind, visited, _⟩ := h
  have clean := recorded.faultless visited
  obtain ⟨⟨name, params, body⟩, environment, initializes⟩ := closure
  simp only [Scope.Part.report, Scope.function, Scope.Report.faults_append,
    List.append_eq_nil_iff] at clean
  exact (Scope.params_distinct clean.1).1

/-! ## Calls that are over -/

/-- The next step makes a call, and so many steps after it the call gives a value. Until then more
waits than what waits for the call. -/
structure Config.Completes (c : Config) (callee : Value) (paren : Token) (arguments : List Value)
    (n : Nat) (v : Value) : Prop where
  calls : c.Calls callee paren arguments
  going : ∀ m < n, c.pending.tail.length < (c.run (m + 1)).pending.length
  result : (c.run (n + 1)).control = .value v ∧ (c.run (n + 1)).pending = c.pending.tail

namespace Config

/-- A run over what waits passes through the configurations of the run without it, up to the first
one that is finished. -/
theorem run_atop (c : Config) (below : List Pending) (n : Nat) :
    ∃ m ≤ n, (∀ l ≤ m, (c.atop below).run l = (c.run l).atop below) ∧
      (m < n → (c.run m).finished = true) := by
  induction n with
  | zero =>
    refine ⟨0, Nat.le_refl 0, fun l hl => ?_, fun h => absurd h (Nat.not_lt_zero 0)⟩
    obtain rfl := Nat.le_zero.mp hl
    rfl
  | succ n ih =>
    obtain ⟨m, hm, same, done⟩ := ih
    rcases Nat.lt_or_eq_of_le hm with earlier | rfl
    · exact ⟨m, Nat.le_succ_of_le hm, same, fun _ => done earlier⟩
    · cases finished : (c.run m).finished with
      | true => exact ⟨m, Nat.le_succ m, same, fun _ => finished⟩
      | false =>
        refine ⟨m + 1, Nat.le_refl _, fun l hl => ?_, fun h => absurd h (Nat.lt_irrefl _)⟩
        rcases Nat.lt_or_eq_of_le hl with earlier | rfl
        · exact same l (Nat.le_of_lt_succ earlier)
        · rw [run_succ, run_succ, same m (Nat.le_refl m), step_atop finished]

theorem pending_of_finished {c : Config} (h : c.finished = true) : c.pending = [] := by
  obtain ⟨control, pending, σ⟩ := c
  cases pending with
  | nil => rfl
  | cons first pending => cases control <;> cases h

theorem run_of_step_eq {c : Config} (h : c.step = c) (n : Nat) : c.run n = c := by
  induction n with
  | zero => rfl
  | succ n ih => rw [run_succ, ih, h]

variable {c d : Config} {first : Pending} {n : Nat} {v : Value} {callee : Value} {paren : Token}
  {arguments : List Value}

/-- What waits last is done with only after a run that is finished without it. -/
theorem run_last (emptied : ((c.atop [first]).run n).pending = []) :
    ∃ m < n, (c.run m).finished = true ∧
      (∀ l ≤ m, (c.atop [first]).run l = (c.run l).atop [first]) ∧
      ∃ k, (c.atop [first]).run n = ((c.run m).atop [first]).step.run k := by
  obtain ⟨m, hm, same, done⟩ := c.run_atop [first] n
  rcases Nat.lt_or_eq_of_le hm with earlier | rfl
  · refine ⟨m, earlier, done earlier, same, n - (m + 1), ?_⟩
    rw [← same m (Nat.le_refl m), ← run_succ, ← run_add, Nat.add_sub_of_le earlier]
  · rw [same m (Nat.le_refl m)] at emptied
    exact absurd emptied (by simp [atop])

/-- A body that is done with gives its result. -/
theorem step_body {caller : EnvironmentId} {closure : Closure} {k : Nat}
    (done : d.finished = true)
    (result : ((d.atop [.body caller closure]).step.run k).control = .value v)
    (emptied : ((d.atop [.body caller closure]).step.run k).pending = []) :
    ∃ completion, v = bodyResult d.state.store closure completion := by
  have none := pending_of_finished done
  obtain ⟨control, pending, σ⟩ := d
  cases none
  cases control with
  | evaluate e => cases done
  | execute s => cases done
  | value w =>
    have waits := run_of_step_eq (c := ⟨.value w, [.body caller closure], σ⟩) rfl k
    cases (congrArg Config.pending waits).symm.trans emptied
  | completed completion =>
    have given := run_of_finished (c := ⟨.value (bodyResult σ.store closure completion), [],
      { σ with current := caller, depth := σ.depth - 1 }⟩) rfl k
    cases (congrArg Config.control given).symm.trans result
    exact ⟨completion, rfl⟩
  | failed f =>
    have failed := run_of_finished (c := ⟨.failed f, [],
      { σ with current := caller, depth := σ.depth - 1 }⟩) rfl k
    cases (congrArg Config.control failed).symm.trans result

/-- A construction that is done with gives its instance. -/
theorem step_construction {i : InstanceId} {k : Nat} (done : d.finished = true)
    (result : ((d.atop [.construction i]).step.run k).control = .value v)
    (emptied : ((d.atop [.construction i]).step.run k).pending = []) :
    v = .instanceRef i ∧ ∃ w, d.control = .value w := by
  have none := pending_of_finished done
  obtain ⟨control, pending, σ⟩ := d
  cases none
  cases control with
  | evaluate e => cases done
  | execute s => cases done
  | value w =>
    have given := run_of_finished (c := ⟨.value (.instanceRef i), [], σ⟩) rfl k
    cases (congrArg Config.control given).symm.trans result
    exact ⟨rfl, w, rfl⟩
  | completed completion =>
    have waits := run_of_step_eq (c := ⟨.completed completion, [.construction i], σ⟩) rfl k
    cases (congrArg Config.pending waits).symm.trans emptied
  | failed f =>
    have failed := run_of_finished (c := ⟨.failed f, [], σ⟩) rfl k
    cases (congrArg Config.control failed).symm.trans result

/-! ## Calls on their own -/

/-- A call goes as it goes with nothing below. -/
theorem Completes.alone (h : c.Completes callee paren arguments n v) {m : Nat} (le : m ≤ n) :
    c.run (m + 1) =
      ((call callee paren arguments [] c.state).run m).atop c.pending.tail := by
  induction m with
  | zero =>
    rw [run_succ]
    have alone : call callee paren arguments ([] ++ c.pending.tail) c.state = _ :=
      call_atop callee paren arguments
    exact h.calls.step_call.trans alone
  | succ m ih =>
    have same := ih (Nat.le_of_succ_le le)
    have more := h.going m le
    rw [same] at more
    have unfinished :
        ((call callee paren arguments [] c.state).run m).finished = false := by
      cases finished : ((call callee paren arguments [] c.state).run m).finished with
      | false => rfl
      | true =>
        rw [atop, pending_of_finished finished] at more
        exact absurd more (Nat.lt_irrefl _)
    rw [run_succ, same, step_atop unfinished, ← run_succ]

theorem Completes.result_alone (h : c.Completes callee paren arguments n v) :
    ((call callee paren arguments [] c.state).run n).control = .value v ∧
      ((call callee paren arguments [] c.state).run n).pending = [] := by
  obtain ⟨control, pending⟩ := h.result
  rw [h.alone (Nat.le_refl n)] at control pending
  have none : _ ++ c.pending.tail = c.pending.tail := pending
  exact ⟨control, List.append_left_eq_self.mp none⟩

/-- A call that gives a value has passed the checks. -/
theorem Completes.applied (h : c.Completes callee paren arguments n v) :
    c.state.store.arity? callee = some arguments.length ∧
      (∀ pending, call callee paren arguments pending c.state =
        apply callee paren arguments pending c.state) ∧
      c.step = apply callee paren arguments c.pending.tail c.state := by
  rcases call_checked callee paren arguments c.state with ⟨f, failed⟩ | ⟨counted, applied⟩
  · have result := h.result_alone.1
    rw [failed, run_of_finished rfl] at result
    cases result
  · exact ⟨counted, applied, h.calls.step_call.trans (applied _)⟩

/-- A function that gives a value gives the result of its body. -/
theorem Completes.function {id : FunctionId} {closure : Closure}
    (h : c.Completes (.functionRef id) paren arguments n v)
    (stored : c.state.store.functions[id]? = some closure) :
    c.Invokes closure arguments c.pending.tail ∧ ∃ m < n, ∃ completion,
      v = bodyResult (c.run (m + 1)).state.store closure completion := by
  obtain ⟨counted, applied, step⟩ := h.applied
  obtain ⟨result, emptied⟩ := h.result_alone
  simp only [Store.arity?, stored, Option.map_some, Option.some.injEq] at counted
  simp only [apply, stored] at step
  have started : call (.functionRef id) paren arguments [] c.state =
      (enterBody closure arguments [] c.state) := by
    simp only [applied, apply, stored]
  refine ⟨.function h.calls stored counted.symm step, ?_⟩
  let body : Config := ⟨.completed .normal, [.sequence closure.decl.body],
    (enterBody closure arguments [] c.state).state⟩
  have within : enterBody closure arguments [] c.state =
      body.atop [.body c.state.current closure] := rfl
  rw [started, within] at result emptied
  obtain ⟨m, hm, done, same, k, last⟩ := run_last emptied
  rw [last] at result emptied
  obtain ⟨completion, rfl⟩ := step_body done result emptied
  refine ⟨m, hm, completion, ?_⟩
  rw [h.alone (Nat.le_of_lt hm), started, within, same m (Nat.le_refl m)]
  rfl

/-- A class that gives a value gives a new instance, at once if it has no initializer, and otherwise
after the initializer has given the result of its body. -/
theorem Completes.construction {k : ClassId} (h : c.Completes (.classRef k) paren arguments n v) :
    v = .instanceRef c.state.store.nextInstance ∧
    ((c.state.store.findMethod k initializerName = none ∧ arguments = [] ∧ n = 0 ∧
        c.step.state.store = c.state.store.addInstance k) ∨
      ∃ initializer, c.state.store.findMethod k initializerName = some initializer ∧
        arguments.length = initializer.decl.params.length ∧
        c.step = enterBody (c.state.store.initializing k initializer).1 arguments
          (.construction c.state.store.nextInstance :: c.pending.tail)
          { c.state with store := (c.state.store.initializing k initializer).2 } ∧
        ∃ m < n, (c.run (m + 1)).pending =
            .construction c.state.store.nextInstance :: c.pending.tail ∧
          ∃ l < m, ∃ completion, (c.run (m + 1)).control = .value
            (bodyResult (c.run (l + 1)).state.store (c.state.store.initializing k initializer).1
              completion)) := by
  obtain ⟨counted, applied, step⟩ := h.applied
  obtain ⟨result, emptied⟩ := h.result_alone
  rcases class_applied counted step with
    ⟨missing, none, created⟩ | ⟨initializer, found, counted, step⟩
  · have first : c.run 1 = c.step := run_succ 0 c
    obtain rfl : n = 0 := by
      refine Nat.eq_zero_of_not_pos fun positive => ?_
      have more := h.going 0 positive
      rw [Nat.zero_add, first, created] at more
      exact Nat.lt_irrefl _ more
    have given := h.result.1
    rw [Nat.zero_add, first, created] at given
    cases given
    exact ⟨rfl, .inl ⟨missing, none, rfl, by rw [created]⟩⟩
  · let made := c.state.store.nextInstance
    let bound := c.state.store.initializing k initializer
    let body : Config := ⟨.completed .normal, [.sequence initializer.decl.body],
      (enterBody bound.1 arguments [] { c.state with store := bound.2 }).state⟩
    let within : Config := body.atop [.body c.state.current bound.1]
    have started : call (.classRef k) paren arguments [] c.state =
        within.atop [.construction made] := by
      simp only [applied, apply, construct, found]
      rfl
    rw [started] at result emptied
    obtain ⟨m, hm, done, same, _, last⟩ := run_last emptied
    rw [last] at result emptied
    obtain ⟨rfl, w, given⟩ := step_construction done result emptied
    have idle : (within.run m).pending = [] := pending_of_finished done
    obtain ⟨l, hl, ended, inner, k', last'⟩ := run_last idle
    have value := given
    rw [last'] at value idle
    obtain ⟨completion, rfl⟩ := step_body ended value idle
    have alone {j : Nat} (le : j ≤ m) :
        c.run (j + 1) = ((within.run j).atop [.construction made]).atop c.pending.tail := by
      rw [h.alone (Nat.le_of_lt (Nat.lt_of_le_of_lt le hm)), started, same j le]
    refine ⟨rfl, .inr ⟨initializer, found, counted, step, m, hm, ?_, l, hl, completion, ?_⟩⟩
    · rw [alone (Nat.le_refl m)]
      simp only [atop, pending_of_finished done]
      rfl
    · rw [alone (Nat.le_refl m), alone (Nat.le_of_lt hl), inner l (Nat.le_refl l)]
      exact given

end Config

end Lox
