import Lox.Proofs.Machine.Validity

/-!
# Frames of calls

A call makes an environment for the parameters of what it calls, its frame. A closure made by the
statements of the call, blocks in it included, has the frame outwards of its own environment. The
frame of another call of the same function is not there: it is younger than all that the function
itself was made in, and what lies between the closure and the frame of its own call was made for
blocks.

Histories of configurations are spoken of, one step after the other and one program after the
other in the same store, so that calls and closures of different moments can be compared.
-/
namespace Lox

/-! ## Environments in use in a call -/

/-- The environments in use from now until all that waits is over, those of calls in progress left
aside. -/
def owned (e : EnvironmentId) : List Pending → List EnvironmentId
  | [] => [e]
  | .restoration outer :: rest => if calls rest = 0 then e :: owned outer rest else owned outer rest
  | .body caller _ :: rest => owned caller rest
  | _ :: rest => owned e rest

theorem mem_owned {pending : List Pending} (innermost : calls pending = 0) (e : EnvironmentId) :
    e ∈ owned e pending := by
  induction pending with
  | nil => exact List.mem_singleton_self e
  | cons first rest ih =>
    cases first with
    | body caller closure => cases innermost
    | restoration outer =>
      have rest : calls rest = 0 := innermost
      rw [owned, if_pos rest]
      exact List.mem_cons_self
    | _ => exact ih innermost

theorem owned_restoration (e outer : EnvironmentId) (rest : List Pending) :
    ∀ x ∈ owned outer rest, x ∈ owned e (.restoration outer :: rest) := by
  intro x hx
  rw [owned]
  split
  · exact List.mem_cons_of_mem _ hx
  · exact hx

def Config.owned (c : Config) : List EnvironmentId := Lox.owned c.state.current c.pending

section
variable {pending : List Pending} {σ : State}

theorem owned_property (object : Value) (name : Token) :
    (property object name pending σ).owned = owned σ.current pending := by
  unfold property
  (repeat' split) <;> rfl

theorem owned_superMethod (id : Nat) (keyword method : Token) :
    (superMethod id keyword method pending σ).owned = owned σ.current pending := by
  unfold superMethod
  (repeat' split) <;> rfl

theorem owned_call (callee : Value) (paren : Token) (arguments : List Value) :
    (call callee paren arguments pending σ).owned = owned σ.current pending := by
  unfold call apply construct
  (repeat' split) <;> rfl

theorem owned_nextArgument (callee : Value) (paren : Token) (before : List Value)
    (after : List Expr) :
    (nextArgument callee paren before after pending σ).owned = owned σ.current pending := by
  cases after with
  | nil => exact owned_call _ _ _
  | cons e rest => rfl

theorem owned_assign (id : Nat) (name : Token) (v : Value) :
    (assign id name v pending σ).owned = owned σ.current pending := by
  unfold assign
  (repeat' split) <;> rfl

theorem owned_declareClass (name : Token) (parent : Option ClassId) (methods : List FunctionDecl) :
    (declareClass name parent methods pending σ).owned = owned σ.current pending := by
  cases parent <;> unfold declareClass finishClass <;> simp only <;> split <;> rfl

theorem owned_evaluate (e : Expr) : (evaluate e pending σ).owned = owned σ.current pending := by
  cases e with
  | superRef id keyword method => exact owned_superMethod id keyword method
  | _ => rfl

/-- A block has an environment of its own, the first in a call to be added to those in use. -/
theorem owned_execute (s : Stmt) (pending : List Pending) (σ : State) :
    (execute s pending σ).owned = owned σ.current pending ∨
      (∃ body, s = .block body) ∧ (execute s pending σ).owned =
        owned σ.store.nextEnvironment (.restoration σ.current :: pending) := by
  cases s with
  | block body => exact .inr ⟨⟨body, rfl⟩, rfl⟩
  | classDecl name parent methods =>
    cases parent with
    | none => exact .inl (owned_declareClass (σ := σ.define name.lexeme .nil) name none methods)
    | some e => exact .inl rfl
  | returnWith keyword value => cases value <;> exact .inl rfl
  | varDecl name value => cases value <;> exact .inl rfl
  | _ => exact .inl rfl

theorem owned_resume (v : Value) (first : Pending) :
    (resume v first pending σ).owned = owned σ.current (first :: pending) := by
  cases first with
  | assignment id name => exact owned_assign _ _ _
  | callee paren arguments => exact owned_nextArgument _ _ _ _
  | argument callee paren before after => exact owned_nextArgument _ _ _ _
  | property name => exact owned_property _ _
  | superclass name expression methods =>
    cases v with
    | classRef c => exact owned_declareClass name (some c) methods
    | _ => rfl
  | target name value => cases v <;> rfl
  | decision | branch | loopTest =>
    simp only [resume]
    (repeat' split) <;> rfl
  | _ => rfl

theorem owned_proceed (c : Completion) (first : Pending) :
    ∀ x ∈ (proceed c first pending σ).owned, x ∈ owned σ.current (first :: pending) := by
  cases first with
  | restoration outer => exact owned_restoration _ _ _
  | loopBody condition body => cases c <;> exact fun _ h => h
  | sequence rest => cases c <;> cases rest <;> exact fun _ h => h
  | program rest => cases rest <;> exact fun _ h => h
  | _ => exact fun _ h => h

theorem owned_unwind (f : Fault) (first : Pending) :
    ∀ x ∈ (unwind f first pending σ).owned, x ∈ owned σ.current (first :: pending) := by
  cases first with
  | restoration outer => exact owned_restoration _ _ _
  | _ => exact fun _ h => h

end

/-- A step adds an environment to those in use only for a block of the innermost call. -/
theorem Config.owned_step (c : Config) : ∀ x ∈ c.step.owned, x ∈ c.owned ∨
    (∃ body, c.control = .execute (.block body)) ∧ c.state.current ∈ c.owned ∧
      x = c.state.store.nextEnvironment := by
  obtain ⟨control, pending, σ⟩ := c
  intro x hx
  cases control with
  | evaluate e =>
    have kept : x ∈ Lox.owned σ.current pending := owned_evaluate e ▸ hx
    exact .inl kept
  | execute s =>
    rcases owned_execute s pending σ with same | ⟨⟨body, rfl⟩, opened⟩
    · have kept : x ∈ Lox.owned σ.current pending := same ▸ hx
      exact .inl kept
    · have hx : x ∈ (execute (.block body) pending σ).owned := hx
      rw [opened, Lox.owned] at hx
      split at hx
      · next innermost =>
        rcases List.mem_cons.mp hx with rfl | hx
        · exact .inr ⟨⟨body, rfl⟩, mem_owned innermost _, rfl⟩
        · exact .inl hx
      · exact .inl hx
  | value v =>
    cases pending with
    | nil => exact .inl hx
    | cons first pending =>
      have kept : x ∈ Lox.owned σ.current (first :: pending) := owned_resume v first ▸ hx
      exact .inl kept
  | completed completion =>
    cases pending with
    | nil => exact .inl hx
    | cons first pending => exact .inl (owned_proceed completion first x hx)
  | failed f =>
    cases pending with
    | nil => exact .inl hx
    | cons first pending => exact .inl (owned_unwind f first x hx)

theorem Config.unfinished_of_waiting {c : Config} {inner below : List Pending} {first : Pending}
    (waits : c.pending = inner ++ first :: below) : c.finished = false := by
  obtain ⟨control, pending, σ⟩ := c
  obtain rfl : pending = inner ++ first :: below := waits
  cases control <;> cases inner <;> rfl

/-- While a call is in progress, a step adds an environment to those in use there for a block of
the call itself. -/
theorem Config.owned_above {c : Config} {inner inner' below : List Pending} {caller : EnvironmentId}
    {closure : Closure} (waits : c.pending = inner ++ .body caller closure :: below)
    (waits' : c.step.pending = inner' ++ .body caller closure :: below) :
    ∀ x ∈ Lox.owned c.step.state.current inner', x ∈ Lox.owned c.state.current inner ∨
      (∃ body, c.control = .execute (.block body)) ∧
        c.state.current ∈ Lox.owned c.state.current inner ∧ x = c.state.store.nextEnvironment := by
  obtain ⟨control, pending, σ⟩ := c
  obtain rfl : pending = inner ++ .body caller closure :: below := waits
  cases going : (Config.mk control inner σ).finished with
  | false =>
    have same : Config.step ⟨control, inner ++ .body caller closure :: below, σ⟩ =
        ((Config.mk control inner σ).step).atop (.body caller closure :: below) :=
      step_atop going _
    rw [same] at waits' ⊢
    obtain rfl : (Config.mk control inner σ).step.pending = inner' :=
      List.append_cancel_right waits'
    exact (Config.mk control inner σ).owned_step
  | true =>
    -- the body has its result, and either is stuck with it or gives it to what waits below
    have ended : inner = [] := by
      cases inner with
      | nil => rfl
      | cons first rest => cases control <;> cases going
    subst ended
    have long : below.length ≠ (inner' ++ .body caller closure :: below).length := by
      simp
      omega
    cases control with
    | evaluate | execute => cases going
    | value v =>
      have stuck : [] ++ .body caller closure :: below = inner' ++ .body caller closure :: below :=
        waits'
      obtain rfl : [] = inner' := List.append_cancel_right stuck
      exact fun x hx => .inl hx
    | completed => exact absurd (congrArg List.length waits') long
    | failed => exact absurd (congrArg List.length waits') long

/-! ## Calls and closures -/

/-- The next step calls `callee`, and the body of `closure` starts; the rest waits below. -/
structure Config.Opens (c : Config) (callee : Value) (closure : Closure) (below : List Pending) :
    Prop where
  calls : ∃ paren arguments, c.Calls callee paren arguments
  control : c.step.control = .completed .normal
  pending : c.step.pending =
    .sequence closure.decl.body :: .body c.state.current closure :: below

/-- The next step makes a closure: that of a declared function, or a method of a declared class. -/
inductive Config.Makes (c : Config) (closure : Closure) : Prop where
  | function {decl : FunctionDecl} (declared : c.control = .execute (.functionDecl decl))
      (made : c.step.state.store.functions[c.state.store.nextFunction]? = some closure)
  | method {name : String}
      (made : c.step.state.store.ownMethod? c.state.store.nextClass name = some closure)

namespace Store

/-- One environment is another or outwards of it. -/
def Outwards (σ : Store) : EnvironmentId → EnvironmentId → Prop :=
  Relation.ReflTransGen fun e outer => σ.enclosing? e = some outer

/-- Closures of one function: the same one, or one method bound to two receivers. -/
inductive OneFunction (σ : Store) : Closure → Closure → Prop where
  | same (c : Closure) : OneFunction σ c c
  | received {method : Closure} {e e' : EnvironmentId}
      (bound : σ.enclosing? e = some method.environment)
      (bound' : σ.enclosing? e' = some method.environment) :
      OneFunction σ { method with environment := e } { method with environment := e' }

variable {σ : Store} {e x outer frame : EnvironmentId}

theorem Layered.outwards_le (layered : σ.Layered) (h : σ.Outwards e x) : x ≤ e := by
  induction h with
  | refl => exact Nat.le_refl _
  | tail _ inside ih => exact Nat.le_trans (Nat.le_of_lt (layered _ _ inside)) ih

/-- What is outwards of an environment is the environment or outwards of the enclosing one. -/
theorem Outwards.of_enclosing (inside : σ.enclosing? e = some outer) (h : σ.Outwards e x) :
    x = e ∨ σ.Outwards outer x := by
  rcases h.cases_head with rfl | ⟨other, first, rest⟩
  · exact .inl rfl
  · rw [inside] at first
    cases first
    exact .inr rest

theorem Outwards.lasts {σ' : Store} (h : σ.Outwards e x) (lasts : σ.Lasts σ') :
    σ'.Outwards e x :=
  h.lift id fun _ _ inside => lasts.enclosed inside

/-- A frame is not outwards of that of another call of the same function. -/
theorem OneFunction.apart {c c' : Closure} (one : σ.OneFunction c c') (layered : σ.Layered)
    {frame' : EnvironmentId} (inside : σ.enclosing? frame = some c.environment)
    (inside' : σ.enclosing? frame' = some c'.environment) (different : frame' ≠ frame) :
    ¬ σ.Outwards frame frame' := by
  intro h
  have younger := layered frame' c'.environment inside'
  rcases h.of_enclosing inside with same | h
  · exact different same
  cases one with
  | same c => exact absurd (layered.outwards_le h) (Nat.not_le_of_lt younger)
  | @received method e e' bound bound' =>
    have older := layered e' method.environment bound'
    rcases h.of_enclosing bound with rfl | h
    · -- then the environment of the receiver would be the frame, whose own is within the method's
      have same : e' = method.environment := Option.some.inj (inside'.symm.trans bound)
      exact absurd same (Nat.ne_of_gt older)
    · exact absurd (layered.outwards_le h) (Nat.not_le_of_lt (Nat.lt_trans older younger))

end Store

namespace Config

variable {c : Config} {callee : Value} {closure : Closure} {below : List Pending}

/-- A call that completes has passed the checks. -/
theorem call_of_completed {paren : Token} {arguments : List Value} {pending : List Pending}
    {σ : State} {completion : Completion}
    (h : (call callee paren arguments pending σ).control = .completed completion) :
    call callee paren arguments pending σ = apply callee paren arguments pending σ := by
  revert h
  unfold call
  split
  · exact nofun
  split
  · exact nofun
  split
  · exact nofun
  · exact fun _ => rfl

/-- What is called is the function itself, or a class whose initializer is bound to a new
instance. -/
theorem Opens.cases (h : c.Opens callee closure below) :
    (∃ id arguments, callee = .functionRef id ∧ c.state.store.functions[id]? = some closure ∧
      c.step = enterBody closure arguments below c.state) ∨
    ∃ k method arguments pending, callee = .classRef k ∧
      c.state.store.findMethod k initializerName = some method ∧
      closure = { method with environment := c.state.store.nextEnvironment } ∧
      c.step = enterBody closure arguments pending { c.state with
        store := ((c.state.store.addInstance k).bind method c.state.store.nextInstance).2 } := by
  obtain ⟨⟨paren, arguments, calls⟩, control, waits⟩ := h
  obtain ⟨pending, step, _⟩ := calls.step
  rw [step] at control
  rw [step, call_of_completed control] at waits ⊢
  rw [call_of_completed control] at control
  cases callee with
  | native function =>
    cases function
    cases control
  | functionRef id =>
    unfold apply at control waits ⊢
    simp only at control waits ⊢
    cases hc : c.state.store.functions[id]? with
    | none =>
      rw [hc] at control
      cases control
    | some called =>
      rw [hc] at waits
      simp only [enterBody, List.cons.injEq, Pending.body.injEq] at waits
      obtain ⟨_, ⟨_, rfl⟩, rfl⟩ := waits
      exact .inl ⟨id, arguments, rfl, hc, rfl⟩
  | classRef k =>
    unfold apply construct at control waits ⊢
    simp only at control waits ⊢
    cases hf : c.state.store.findMethod k initializerName with
    | none =>
      rw [hf] at control
      cases control
    | some method =>
      rw [hf] at waits
      simp only [enterBody, List.cons.injEq, Pending.body.injEq] at waits
      obtain ⟨_, ⟨_, rfl⟩, rfl⟩ := waits
      exact .inr ⟨k, method, arguments, _, rfl, hf, rfl, rfl⟩
  | nil | bool | number | string | instanceRef => cases control

/-- The receiver of an initializer is bound in an environment within that of the method. -/
theorem enclosing_receiver {k : ClassId} {method : Closure} {arguments : List Value}
    {pending : List Pending} {i : InstanceId} (step : c.step = enterBody closure arguments pending
      { c.state with store := ((c.state.store.addInstance k).bind method i).2 }) :
    c.step.state.store.enclosing? c.state.store.nextEnvironment = some method.environment := by
  have inside : ((c.state.store.addInstance k).bind method i).2.enclosing?
      c.state.store.nextEnvironment = some method.environment := by
    rw [Store.bind, Store.enclosing?_addEnvironment]
    exact if_pos rfl
  rw [step]
  exact (Store.Lasts.addEnvironment _ _ _).enclosed inside

/-- The frame is the newest environment, within that of the closure. -/
theorem Opens.frame (h : c.Opens callee closure below) :
    c.state.store.environments.size ≤ c.step.state.current ∧
      c.step.state.store.environments.size = c.step.state.current + 1 ∧
      c.step.state.store.enclosing? c.step.state.current = some closure.environment := by
  rcases h.cases with ⟨id, arguments, _, _, step⟩ | ⟨k, method, arguments, pending, _, _, rfl, step⟩
  · rw [step]
    refine ⟨Nat.le_refl _, by simp [enterBody, State.enter, Store.nextEnvironment], ?_⟩
    simp [enterBody, State.enter, Store.enclosing?_addEnvironment]
  · rw [step]
    refine ⟨?_, by simp [enterBody, State.enter, Store.nextEnvironment], ?_⟩
    · simp [enterBody, State.enter, Store.nextEnvironment, Store.bind, Store.addInstance]
    · simp [enterBody, State.enter, Store.enclosing?_addEnvironment]

/-- A class is made by a declaration. -/
theorem newest_class {made : ClassObject}
    (h : c.step.state.store.classes[c.state.store.nextClass]? = some made) :
    (∃ name methods, made = declaredClass name none methods c.state.current) ∨
    ∃ name parent methods k pending σ,
      c = ⟨.value (.classRef k), .superclass name parent methods :: pending, σ⟩ ∧
      made = declaredClass name (some k) methods σ.store.nextEnvironment ∧
      c.step.state.store.enclosing? σ.store.nextEnvironment = some σ.current := by
  have absent (same : c.step.state.store.classes = c.state.store.classes) : False := by
    rw [same, Store.nextClass, Array.getElem?_eq_none (Nat.le_refl _)] at h
    cases h
  have added {name : Token} {parent : Option ClassId} {methods : List FunctionDecl}
      {environment : EnvironmentId} {pending : List Pending} {σ : State}
      (step : c.step = finishClass name parent methods environment pending σ)
      (same : σ.store.classes = c.state.store.classes) :
      made = declaredClass name parent methods environment := by
    obtain ⟨control, store, finished, _, _, rfl | ⟨owner, rfl⟩⟩ :=
      finishClass_adds name parent methods environment pending σ <;>
      simpa [step, finished, Store.addClass, same, Store.nextClass, eq_comm] using h
  cases c.turns with
  | going follows store => exact (absent (by rw [store])).elim
  | binding follows named offered store => exact (absent (by rw [store]; simp)).elim
  | setting follows offered store =>
    exact (absent (by rw [store, (Store.setField_rest _ _ _ _).2.2])).elim
  | block part leaves step => exact (absent (by rw [step]; rfl)).elim
  | creation offered leaves step => exact (absent (by rw [step]; rfl)).elim
  | body stored offered leaves step => exact (absent (by rw [step]; rfl)).elim
  | construction made found offered leaves step => exact (absent (by rw [step]; rfl)).elim
  | method found offered leaves step => exact (absent (by rw [step]; rfl)).elim
  | function part named leaves step =>
    exact (absent (by rw [step, State.define, Store.classes_define]; rfl)).elim
  | @baseClass name methods pending part named leaves step =>
    exact .inl ⟨name, methods, added step (by simp [State.define])⟩
  | @derivedClass name parent methods k pending σ now step =>
    have made := added step (by rw [now]; rfl)
    subst now
    refine .inr ⟨name, parent, methods, k, pending, σ, rfl, made, ?_⟩
    rw [step, enclosing?_finishClass, Store.enclosing?_addEnvironment, if_pos rfl]

/-- A closure is made in the environment in use, or in a new one within it that no call makes. -/
theorem Makes.environment (h : c.Makes closure) : closure.environment = c.state.current ∨
    closure.environment = c.state.store.nextEnvironment ∧
      c.step.state.store.enclosing? closure.environment = some c.state.current ∧
      ∀ callee paren arguments, ¬ c.Calls callee paren arguments := by
  cases h with
  | @function decl declared made =>
    obtain ⟨control, pending, σ⟩ := c
    obtain rfl : control = .execute (.functionDecl decl) := declared
    have stored : ((σ.store.addFunction ⟨decl, σ.current, false⟩).define σ.current decl.name.lexeme
        (.functionRef σ.store.nextFunction)).functions[σ.store.functions.size]? = some closure :=
      made
    rw [Store.functions_define, Store.addFunction, Array.getElem?_push, if_pos rfl] at stored
    cases stored
    exact .inl rfl
  | @method name made =>
    obtain ⟨declared, hk, hm⟩ := Option.bind_eq_some_iff.mp made
    rcases newest_class hk with ⟨_, _, rfl⟩ | ⟨_, _, _, k, pending, σ, rfl, rfl, inside⟩
    · obtain ⟨decl, _, rfl⟩ := methodTable_mem hm
      exact .inl rfl
    · obtain ⟨decl, _, rfl⟩ := methodTable_mem hm
      exact .inr ⟨rfl, inside, fun callee paren arguments calls => by cases calls⟩

/-- What is finished makes nothing. -/
theorem Makes.unfinished (h : c.Makes closure) : c.finished = false := by
  cases done : c.finished with
  | false => rfl
  | true =>
    have same := step_of_finished done
    cases h with
    | function declared =>
      obtain ⟨control, pending, σ⟩ := c
      obtain rfl := declared
      cases done
    | method made =>
      rw [same] at made
      exact absurd (Store.lt_of_ownMethod? made) (Nat.lt_irrefl _)

end Config

/-! ## Histories -/

/-- The next moment: a step, or when all is done the start of a program in the same store. -/
inductive Config.Next (c : Config) : Config → Prop where
  | step : Next c c.step
  | program {σ : State} (program : List Stmt) (done : c.finished = true)
      (store : σ.store = c.state.store) (current : σ.current = c.state.current) :
      Next c (σ.interpreting program)

/-- Configurations from moment to moment, valid from the first. -/
structure History where
  moment : Nat → Config
  valid : (moment 0).Valid
  next : ∀ n, (moment n).Next (moment (n + 1))

/-- A run is a history. -/
def Config.history (c : Config) (valid : c.Valid) : History where
  moment n := c.run n
  valid := valid
  next n := run_succ n c ▸ .step

namespace History

variable (h : History)

def store (n : Nat) : Store := (h.moment n).state.store

/-- A call in a history: the moment it is made, what is called, and what waits below it. -/
structure Call where
  start : Nat
  callee : Value
  closure : Closure
  below : List Pending
  opens : (h.moment start).Opens callee closure below

variable {h}

theorem valid_at (h : History) (n : Nat) : (h.moment n).Valid := by
  induction n with
  | zero => exact h.valid
  | succ n ih =>
    have next := h.next n
    generalize h.moment (n + 1) = c at next
    cases next with
    | step => exact ih.step
    | program program done store current =>
      exact (ih.state.same store current).interpreting program

theorem lasts_next (h : History) (n : Nat) : (h.store n).Lasts (h.store (n + 1)) := by
  have next := h.next n
  show (h.moment n).state.store.Lasts (h.moment (n + 1)).state.store
  generalize h.moment (n + 1) = c at next
  cases next with
  | step => exact Config.step_lasts _
  | program program done store current =>
    show (h.moment n).state.store.Lasts _
    rw [State.interpreting, store]
    exact .refl _

theorem lasts (h : History) {m n : Nat} (le : m ≤ n) : (h.store m).Lasts (h.store n) := by
  induction le with
  | refl => exact .refl _
  | step _ ih => exact ih.trans (h.lasts_next _)

theorem step_of_unfinished {n : Nat} (going : (h.moment n).finished = false) :
    h.moment (n + 1) = (h.moment n).step := by
  have next := h.next n
  generalize h.moment (n + 1) = c at next ⊢
  cases next with
  | step => rfl
  | program program done store current =>
    rw [going] at done
    cases done

/-- An environment is made at one moment. -/
theorem moment_unique {m n : Nat} {e : EnvironmentId}
    (old : (h.store m).environments.size ≤ e) (new : e < (h.store (m + 1)).environments.size)
    (old' : (h.store n).environments.size ≤ e) (new' : e < (h.store (n + 1)).environments.size) :
    m = n := by
  have grown {m n : Nat} (before : m < n) :
      (h.store (m + 1)).environments.size ≤ (h.store n).environments.size :=
    (h.lasts before).environments
  rcases Nat.lt_trichotomy m n with before | rfl | after
  · exact absurd (Nat.lt_of_lt_of_le new (grown before)) (Nat.not_lt_of_le old')
  · rfl
  · exact absurd (Nat.lt_of_lt_of_le new' (grown after)) (Nat.not_lt_of_le old)

namespace Call

variable (a b : h.Call)

/-- The environment that the call makes for the parameters. -/
def frame : EnvironmentId := (h.moment (a.start + 1)).state.current

/-- The end of the call and what waits below it. -/
def bottom : List Pending := .body (h.moment a.start).state.current a.closure :: a.below

/-- The call is in progress at a moment, and no other call within it. -/
structure Innermost (n : Nat) : Prop where
  after : a.start < n
  progress : ∀ t, a.start < t → t ≤ n → ∃ inner, (h.moment t).pending = inner ++ a.bottom
  last : ∃ inner, (h.moment n).pending = inner ++ a.bottom ∧ calls inner = 0

theorem step : h.moment (a.start + 1) = (h.moment a.start).step := by
  refine step_of_unfinished ?_
  obtain ⟨_, _, calls⟩ := a.opens.calls
  generalize h.moment a.start = c at calls
  cases calls <;> rfl

theorem frame_new : (h.store a.start).environments.size ≤ a.frame ∧
    (h.store (a.start + 1)).environments.size = a.frame + 1 := by
  obtain ⟨old, new, _⟩ := a.opens.frame
  rw [frame, store, store, a.step]
  exact ⟨old, new⟩

theorem frame_inside {n : Nat} (after : a.start < n) :
    (h.store n).enclosing? a.frame = some a.closure.environment := by
  obtain ⟨_, _, inside⟩ := a.opens.frame
  rw [← a.step] at inside
  exact (h.lasts after).enclosed inside

/-- An environment that is made when nothing is called is no frame. -/
theorem ne_frame {n : Nat} {e : EnvironmentId} (old : (h.store n).environments.size ≤ e)
    (new : e < (h.store (n + 1)).environments.size)
    (quiet : ∀ callee paren arguments, ¬ (h.moment n).Calls callee paren arguments) :
    e ≠ b.frame := by
  rintro rfl
  obtain ⟨oldest, size⟩ := b.frame_new
  obtain rfl := moment_unique old new oldest (size ▸ Nat.lt_succ_self _)
  obtain ⟨paren, arguments, calls⟩ := b.opens.calls
  exact quiet _ paren arguments calls

theorem frame_ne (different : b.start ≠ a.start) : b.frame ≠ a.frame := by
  intro same
  obtain ⟨old, size⟩ := a.frame_new
  obtain ⟨old', size'⟩ := b.frame_new
  rw [same] at old' size'
  exact different (moment_unique old' (size' ▸ Nat.lt_succ_self _) old (size ▸ Nat.lt_succ_self _))

/-! ### Blocks of a call -/

variable {a}

/-- A call starts with its frame in use. -/
theorem owned_start {inner : List Pending}
    (waits : (h.moment (a.start + 1)).pending = inner ++ a.bottom) :
    owned (h.moment (a.start + 1)).state.current inner = [a.frame] := by
  have pending : inner ++ a.bottom = [.sequence a.closure.decl.body] ++ a.bottom := by
    rw [← waits, a.step]
    exact a.opens.pending
  obtain rfl := List.append_cancel_right pending
  rfl

/-- What holds of the frame, and passes from an environment to that of a block in it, holds of the
environment in use in the call. -/
theorem Innermost.current {n : Nat} (innermost : a.Innermost n) {P : EnvironmentId → Prop}
    (frame : P a.frame)
    (block : ∀ t < n, (∃ body, (h.moment t).control = .execute (.block body)) →
      P (h.moment t).state.current → P (h.store t).nextEnvironment) :
    P (h.moment n).state.current := by
  have all (t : Nat) (after : a.start < t) (le : t ≤ n) (inner : List Pending)
      (waits : (h.moment t).pending = inner ++ a.bottom) :
      ∀ x ∈ owned (h.moment t).state.current inner, P x := by
    induction after generalizing inner with
    | refl =>
      rw [owned_start waits]
      exact List.forall_mem_singleton.mpr frame
    | @step t after ih =>
      obtain ⟨before, was⟩ := innermost.progress t after (Nat.le_of_succ_le le)
      have earlier := ih (Nat.le_of_succ_le le) before was
      intro x hx
      rw [step_of_unfinished (Config.unfinished_of_waiting was)] at waits hx
      rcases Config.owned_above was waits x hx with hx | ⟨opened, here, rfl⟩
      · exact earlier x hx
      · exact block t le opened (earlier _ here)
  obtain ⟨inner, waits, quiet⟩ := innermost.last
  exact all n innermost.after (Nat.le_refl _) inner waits _ (mem_owned quiet _)

/-- A block has its environment within the one in use. -/
theorem enclosed_block {t n : Nat} (before : t < n) {body : List Stmt}
    (control : (h.moment t).control = .execute (.block body)) :
    (h.store n).enclosing? (h.store t).nextEnvironment = some (h.moment t).state.current ∧
      (h.store t).nextEnvironment < (h.store (t + 1)).environments.size := by
  have going : (h.moment t).finished = false := by
    generalize h.moment t = c at control
    obtain ⟨_, pending, σ⟩ := c
    obtain rfl := control
    rfl
  have opened : (h.moment t).step.state.store =
      (h.store t).addEnvironment (some (h.moment t).state.current) .empty := by
    rw [store]
    generalize h.moment t = c at control
    obtain ⟨_, pending, σ⟩ := c
    obtain rfl := control
    rfl
  have next : h.store (t + 1) =
      (h.store t).addEnvironment (some (h.moment t).state.current) .empty := by
    rw [store, step_of_unfinished going, opened]
  constructor
  · refine (h.lasts before).enclosed ?_
    rw [next, Store.enclosing?_addEnvironment, if_pos rfl]
  · rw [next, Store.size_addEnvironment]
    exact Nat.lt_succ_self _

/-- The frame is outwards of all that is made in the call. -/
theorem Innermost.outwards {n : Nat} (innermost : a.Innermost n) {T : Nat} (le : n ≤ T) :
    (h.store T).Outwards (h.moment n).state.current a.frame := by
  refine innermost.current (P := fun e => (h.store T).Outwards e a.frame) .refl
    fun t before ⟨body, control⟩ outwards => ?_
  exact outwards.head (enclosed_block (Nat.lt_of_lt_of_le before le) control).1

/-- The frame of another call of the same function is not. -/
theorem Innermost.apart {n : Nat} (innermost : a.Innermost n) {T : Nat} (le : n ≤ T)
    {b : h.Call} (different : b.start ≠ a.start) (before : b.start < T)
    (one : (h.store T).OneFunction a.closure b.closure) :
    ¬ (h.store T).Outwards (h.moment n).state.current b.frame := by
  refine innermost.current (P := fun e => ¬ (h.store T).Outwards e b.frame) ?_
    fun t inside ⟨body, control⟩ apart outwards => ?_
  · have after : a.start < T := Nat.lt_of_lt_of_le innermost.after le
    exact one.apart (h.valid_at T).layered (a.frame_inside after) (b.frame_inside before)
      (frame_ne a b different)
  · obtain ⟨enclosed, new⟩ := enclosed_block (Nat.lt_of_lt_of_le inside le) control
    rcases outwards.of_enclosing enclosed with same | outwards
    · refine ne_frame b (Nat.le_refl _) new (fun callee paren arguments calls => ?_) same.symm
      generalize h.moment t = c at control calls
      cases calls <;> cases control
    · exact apart outwards

/-- Calls of one value are calls of one function. -/
theorem oneFunction (a b : h.Call) (same : a.callee = b.callee) {T : Nat} (after : a.start < T)
    (after' : b.start < T) : (h.store T).OneFunction a.closure b.closure := by
  have lasts : (h.moment a.start).state.store.Lasts (h.store T) := h.lasts (Nat.le_of_lt after)
  have lasts' : (h.moment b.start).state.store.Lasts (h.store T) := h.lasts (Nat.le_of_lt after')
  have next : (h.moment a.start).step.state.store.Lasts (h.store T) := a.step ▸ h.lasts after
  have next' : (h.moment b.start).step.state.store.Lasts (h.store T) := b.step ▸ h.lasts after'
  rcases a.opens.cases with
      ⟨id, _, called, stored, _⟩ | ⟨k, method, _, _, called, found, made, step⟩ <;>
    rcases b.opens.cases with
      ⟨id', _, called', stored', _⟩ | ⟨k', method', _, _, called', found', made', step'⟩
  · obtain rfl : id = id' := Value.functionRef.inj (called.symm.trans (same.trans called'))
    have one := (lasts.functions _ _ stored).symm.trans (lasts'.functions _ _ stored')
    rw [Option.some.inj one]
    exact .same _
  · cases called.symm.trans (same.trans called')
  · cases called.symm.trans (same.trans called')
  · obtain rfl : k = k' := Value.classRef.inj (called.symm.trans (same.trans called'))
    obtain rfl : method = method' :=
      Option.some.inj ((lasts.findMethod found).symm.trans (lasts'.findMethod found'))
    have bound := next.enclosed (Config.enclosing_receiver step)
    have bound' := next'.enclosed (Config.enclosing_receiver step')
    rw [made, made']
    exact .received bound bound'

/-- A closure made in the call is made in the environment in use there, or just within it. -/
theorem Innermost.made {n : Nat} (innermost : a.Innermost n) {c : Closure}
    (makes : (h.moment n).Makes c) {T : Nat} (before : n < T) :
    c.environment = (h.moment n).state.current ∨
      (h.store T).enclosing? c.environment = some (h.moment n).state.current ∧
        ∀ b : h.Call, b.frame ≠ c.environment := by
  obtain ⟨inner, waits, _⟩ := innermost.last
  have step := step_of_unfinished (Config.unfinished_of_waiting waits)
  rcases makes.environment with here | ⟨new, inside, quiet⟩
  · exact .inl here
  · rw [← step] at inside
    have stored := Store.lt_of_enclosing? inside
    refine .inr ⟨(h.lasts before).enclosed inside, fun b => (ne_frame b ?_ stored quiet).symm⟩
    exact Nat.le_of_eq new.symm

theorem Innermost.shares {n : Nat} (innermost : a.Innermost n) {c : Closure}
    (makes : (h.moment n).Makes c) {T : Nat} (before : n < T) :
    (h.store T).Outwards c.environment a.frame := by
  have outwards := innermost.outwards (Nat.le_of_lt before)
  rcases innermost.made makes before with here | ⟨inside, _⟩
  · rw [here]
    exact outwards
  · exact outwards.head inside

theorem Innermost.separate {n : Nat} (innermost : a.Innermost n) {c : Closure}
    (makes : (h.moment n).Makes c) {T : Nat} (before : n < T) {b : h.Call}
    (different : b.start ≠ a.start) (called : b.start < T)
    (one : (h.store T).OneFunction a.closure b.closure) :
    ¬ (h.store T).Outwards c.environment b.frame := by
  have apart := innermost.apart (Nat.le_of_lt before) different called one
  rcases innermost.made makes before with here | ⟨inside, other⟩
  · rw [here]
    exact apart
  · intro outwards
    rcases outwards.of_enclosing inside with same | outwards
    · exact other b same
    · exact apart outwards

end Call

end History

/-- However far an evaluation or execution gets, in every state, no environment and no instance is
changed that was there and could not be reached from the environment in use or the globals, and
what is returned could be reached from them or is new. In every history of valid configurations,
such as start from a session that is reached, the closures that a call makes have its frame
outwards of them ever after, and never the frame of another call of the same function; calls of one
value are calls of one function. Closures are made by declarations: a method that is bound to a
receiver keeps the environment in which its class was declared. -/
theorem evaluation_confined :
    (∀ (σ : State) (n : Nat), (∀ e, σ.Confines ((σ.evaluating e).run n)) ∧
      ∀ s, σ.Confines ((σ.executing s).run n)) ∧
    (∀ (h : History) (a : h.Call),
      (∀ n c T, a.Innermost n → (h.moment n).Makes c → n < T →
        (h.store T).Outwards c.environment a.frame ∧
          ∀ b : h.Call, b.start ≠ a.start → b.start < T →
            (h.store T).OneFunction a.closure b.closure →
              ¬ (h.store T).Outwards c.environment b.frame) ∧
      ∀ (b : h.Call) (T : Nat), a.callee = b.callee → a.start < T → b.start < T →
        (h.store T).OneFunction a.closure b.closure) ∧
    ∀ programs s, Session.Reached programs s → ∀ program, (s.state.interpreting program).Valid := by
  refine ⟨fun σ n => ⟨fun e => σ.confines_run rfl n, fun s => σ.confines_run rfl n⟩,
    fun h a => ⟨fun n c T innermost makes before => ?_, fun b T same => a.oneFunction b same⟩,
    fun programs s reached => reached.valid.interpreting⟩
  exact ⟨innermost.shares makes before, fun b different called one =>
    innermost.separate makes before different called one⟩

/-- A function that declares another, called twice. -/
def makingTwice : List Stmt :=
  let make : Token := ⟨.identifier, "make", 1⟩
  let call (id : Nat) : Stmt := .expression (.call (.var id make) ⟨.symbol .rightParen, ")", 1⟩ [])
  [.functionDecl ⟨make, [], [.functionDecl ⟨⟨.identifier, "made", 1⟩, [], []⟩]⟩, call 0, call 1]

/-- The closure that the first call makes has the frame of that call and not that of the second. -/
theorem makingTwice_apart :
    ∃ (h : History) (a b : h.Call) (c : Closure), a.callee = b.callee ∧ b.start ≠ a.start ∧
      a.Innermost 8 ∧ (h.moment 8).Makes c ∧ (h.store 17).Outwards c.environment a.frame ∧
        ¬ (h.store 17).Outwards c.environment b.frame := by
  let start := (State.initial .unlimited fun _ => 0).interpreting makingTwice
  let h : History := start.history ((State.valid_initial _ _).interpreting _)
  let make : FunctionDecl :=
    ⟨⟨.identifier, "make", 1⟩, [], [.functionDecl ⟨⟨.identifier, "made", 1⟩, [], []⟩]⟩
  have calling {c : Config} {callee : Value} {paren : Token} {rest : List Pending}
      (control : c.control = .value callee) (waits : c.pending = .callee paren [] :: rest) :
      ∃ paren arguments, c.Calls callee paren arguments := by
    obtain ⟨_, _, σ⟩ := c
    obtain rfl := control
    obtain rfl := waits
    exact ⟨_, _, .bare⟩
  have control : (start.run 6).control = .value (.functionRef 0) := by cbv
  have waits : (start.run 6).pending = [.callee ⟨.symbol .rightParen, ")", 1⟩ [], .discard,
      .program [.expression (.call (.var 1 make.name) ⟨.symbol .rightParen, ")", 1⟩ [])]] := by
    cbv
  have control' : (start.run 16).control = .value (.functionRef 0) := by cbv
  have waits' : (start.run 16).pending =
      [.callee ⟨.symbol .rightParen, ")", 1⟩ [], .discard, .program []] := by
    cbv
  let a : h.Call := ⟨6, .functionRef 0, ⟨make, 0, false⟩, [.discard,
    .program [.expression (.call (.var 1 make.name) ⟨.symbol .rightParen, ")", 1⟩ [])]],
    calling control waits, by cbv, by cbv⟩
  let b : h.Call := ⟨16, .functionRef 0, ⟨make, 0, false⟩, [.discard, .program []],
    calling control' waits', by cbv, by cbv⟩
  have first : (start.run 7).pending = [.sequence make.body] ++ a.bottom := by cbv
  have second : (start.run 8).pending = [.sequence []] ++ a.bottom := by cbv
  have innermost : a.Innermost 8 := by
    refine ⟨show 6 < 8 by decide, fun t after le => ?_, _, second, rfl⟩
    rcases Nat.lt_or_eq_of_le le with before | rfl
    · obtain rfl : t = 7 := Nat.le_antisymm (Nat.le_of_lt_succ before) after
      exact ⟨_, first⟩
    · exact ⟨_, second⟩
  have declares : (start.run 8).control =
      .execute (.functionDecl ⟨⟨.identifier, "made", 1⟩, [], []⟩) := by
    cbv
  have makes : (h.moment 8).Makes ⟨⟨⟨.identifier, "made", 1⟩, [], []⟩, 1, false⟩ :=
    .function declares (by cbv)
  obtain ⟨closures, functions⟩ := evaluation_confined.2.1 h a
  obtain ⟨shares, separate⟩ := closures 8 _ 17 innermost makes (by decide)
  have before : a.start < 17 := show 6 < 17 by decide
  have before' : b.start < 17 := show 16 < 17 by decide
  have different : b.start ≠ a.start := show 16 ≠ 6 by decide
  have apart := separate b different before' (functions b 17 rfl before before')
  exact ⟨h, a, b, _, rfl, different, innermost, makes, shares, apart⟩

end Lox
