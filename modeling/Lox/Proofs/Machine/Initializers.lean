import Lox.Proofs.Machine.Calls

/-!
# Initializers

An initializer is a method called `init`, and is kept as a function only on an instance: its
environment has the instance as `this`. So the result of its body is that instance, however the body
ended. A call of a class makes an instance and gives it after the nearest initializer was run on it.
-/
namespace Lox

open Scope (thisName)

/-! ## Receivers -/

namespace Store

/-- The closure has the instance as `this`. -/
def Receives (σ : Store) (closure : Closure) (i : InstanceId) : Prop :=
  σ.local? closure.environment thisName = some (.instanceRef i)

/-- A method is an initializer by its name, and a function that is one has an instance. -/
structure Initialized (σ : Store) : Prop where
  functions : ∀ (id : FunctionId) closure, σ.functions[id]? = some closure →
    closure.isInitializer = true → ∃ i, σ.Receives closure i
  methods : ∀ k name closure, σ.ownMethod? k name = some closure →
    (closure.isInitializer = true ↔ name = initializerName)

variable {σ σ' : Store} {closure : Closure} {i : InstanceId}

theorem Receives.kept (h : σ.Receives closure i) (grows : σ.Extends σ') : σ'.Receives closure i :=
  grows.keyword_kept (.inl rfl) h

theorem receives_bind (σ : Store) (method : Closure) (i : InstanceId) :
    (σ.bind method i).2.Receives (σ.bind method i).1 i := by
  rw [Receives, bind, local?_addEnvironment, if_pos rfl, Bindings.get?_insert, if_pos rfl]

theorem enclosing?_bind (σ : Store) (method : Closure) (i : InstanceId) :
    (σ.bind method i).2.enclosing? (σ.bind method i).1.environment = some method.environment := by
  rw [bind, enclosing?_addEnvironment, if_pos rfl]

/-- The body of an initializer gives the instance that it has, however it ends. -/
theorem Receives.bodyResult (h : σ.Receives closure i) (initializer : closure.isInitializer = true)
    (completion : Completion) : bodyResult σ closure completion = .instanceRef i := by
  have this : σ.local? closure.environment thisName = some (.instanceRef i) := h
  simp only [Lox.bodyResult, initializer, if_true, this, Option.getD_some]

namespace Initialized

theorem findMethod (h : σ.Initialized) {k : ClassId} {name : String}
    (found : σ.findMethod k name = some closure) :
    closure.isInitializer = true ↔ name = initializerName := by
  induction k using Nat.strongRecOn with
  | ind k ih =>
    rw [Store.findMethod] at found
    cases hk : σ.classes[k]? with
    | none => simp [hk] at found
    | some made =>
      simp only [hk] at found
      split at found
      · next own =>
        cases found
        exact h.methods k name closure (by rw [ownMethod?, hk]; exact own)
      · split at found
        · cases found
        · next parent _ =>
          split at found
          · next older => exact ih parent older found
          · cases found

/-- The store grows, and the functions and classes in it are the old ones or are in order. -/
theorem later (h : σ.Initialized) (grows : σ.Extends σ')
    (functions : ∀ (id : FunctionId) closure, σ'.functions[id]? = some closure →
      σ.functions[id]? = some closure ∨
        (closure.isInitializer = true → ∃ i, σ'.Receives closure i))
    (methods : ∀ (k : ClassId) made, σ'.classes[k]? = some made → σ.classes[k]? = some made ∨
      ∀ name closure, made.methods.get? name = some closure →
        (closure.isInitializer = true ↔ name = initializerName)) : σ'.Initialized := by
  refine ⟨fun id closure stored initializer => ?_, fun k name closure own => ?_⟩
  · rcases functions id closure stored with old | receives
    · obtain ⟨i, receives⟩ := h.functions id closure old initializer
      exact ⟨i, receives.kept grows⟩
    · exact receives initializer
  · obtain ⟨made, hk, hm⟩ := Option.bind_eq_some_iff.mp own
    rcases methods k made hk with old | named
    · exact h.methods k name closure (by rw [ownMethod?, old]; exact hm)
    · exact named name closure hm

theorem same (h : σ.Initialized) (grows : σ.Extends σ') (functions : σ'.functions = σ.functions)
    (classes : σ'.classes = σ.classes) : σ'.Initialized :=
  h.later grows (fun _ _ stored => .inl (functions ▸ stored)) fun _ _ hk => .inl (classes ▸ hk)

theorem push (h : σ.Initialized) (grows : σ.Extends σ')
    (functions : σ'.functions = σ.functions.push closure) (classes : σ'.classes = σ.classes)
    (receives : closure.isInitializer = true → ∃ i, σ'.Receives closure i) : σ'.Initialized := by
  refine h.later grows (fun id other stored => ?_) fun _ _ hk => .inl (classes ▸ hk)
  rw [functions, Array.getElem?_push] at stored
  split at stored
  · cases stored
    exact .inr receives
  · exact .inl stored

end Initialized

end Store

/-- A method is kept under its own name. -/
theorem methodTable_named {environment : EnvironmentId} {methods : List FunctionDecl}
    {name : String} {c : Closure} (h : (methodTable environment methods).get? name = some c) :
    c.isInitializer = true ↔ name = initializerName := by
  have along (methods : List FunctionDecl) (b : Bindings Closure)
      (named : ∀ name c, b.get? name = some c → (c.isInitializer = true ↔ name = initializerName)) :
      ∀ name c, (methods.foldl (fun b decl =>
        b.insert decl.name.lexeme ⟨decl, environment, decl.isInitializer⟩) b).get? name = some c →
        (c.isInitializer = true ↔ name = initializerName) := by
    induction methods generalizing b with
    | nil => exact named
    | cons decl methods ih =>
      refine ih _ fun name c hc => ?_
      rw [Bindings.get?_insert] at hc
      split at hc
      · next same =>
        cases hc
        rw [same]
        exact decide_eq_true_iff
      · exact named name c hc
  exact along methods .empty nofun name c h

/-! ## Steps -/

/-- Every initializer that is kept or whose body is in progress has an instance. -/
structure Config.Initialized (c : Config) : Prop where
  store : c.state.store.Initialized
  bodies : ∀ closure ∈ activeBodies c.pending, closure.isInitializer = true →
    ∃ i, c.state.store.Receives closure i

section
variable {c : Config} {closure : Closure} {arguments : List Value} {rest : List Pending}

theorem initialized_finishClass {σ : State} (h : σ.store.Initialized) (name : Token)
    (plain : name.Plain) (parent : Option ClassId) (methods : List FunctionDecl)
    (environment : EnvironmentId) (pending : List Pending) :
    (finishClass name parent methods environment pending σ).state.store.Initialized := by
  have grows := extends_finishClass plain parent methods environment pending σ
  obtain ⟨control, store, same, _, _, added⟩ :=
    finishClass_adds name parent methods environment pending σ
  rw [same] at grows ⊢
  have functions : store.functions = σ.store.functions := by
    rcases added with rfl | ⟨owner, rfl⟩ <;> simp [Store.addClass]
  have pushed : store.classes =
      σ.store.classes.push (declaredClass name parent methods environment) := by
    rcases added with rfl | ⟨owner, rfl⟩ <;> simp [Store.addClass]
  refine h.later grows (fun _ _ stored => .inl (functions ▸ stored)) fun k made hk => ?_
  have hk : store.classes[k]? = some made := hk
  rw [pushed, Array.getElem?_push] at hk
  split at hk
  · cases hk
    exact .inr fun _ _ => methodTable_named
  · exact .inl hk

/-- A step keeps initializers in order in the store. -/
theorem Store.Initialized.step (h : c.state.store.Initialized)
    (plain : ∀ name, c.binding? = some name → name.Plain) : c.step.state.store.Initialized := by
  have grows := Config.step_extends plain
  cases c.turns with
  | going follows store => exact h.same grows (by rw [store]) (by rw [store])
  | binding follows named offered store => exact h.same grows (by simp [store]) (by simp [store])
  | setting follows offered store =>
    obtain ⟨_, functions, classes⟩ := Store.setField_rest c.state.store _ _ _
    exact h.same grows (by rw [store, functions]) (by rw [store, classes])
  | block part leaves step => exact h.same grows (by rw [step]; rfl) (by rw [step]; rfl)
  | creation offered leaves step => exact h.same grows (by rw [step]; rfl) (by rw [step]; rfl)
  | body stored offered leaves step => exact h.same grows (by rw [step]; rfl) (by rw [step]; rfl)
  | construction made found offered leaves step =>
    exact h.same grows (by rw [step]; rfl) (by rw [step]; rfl)
  | @method k name method i pending found offered leaves step =>
    have functions : c.step.state.store.functions =
        c.state.store.functions.push (c.state.store.bind method i).1 := by
      rw [step]
      rfl
    refine h.push grows functions (by rw [step]; rfl) fun _ => ⟨i, ?_⟩
    rw [step]
    exact c.state.store.receives_bind method i
  | @function decl pending part named leaves step =>
    have functions : c.step.state.store.functions =
        c.state.store.functions.push ⟨decl, c.state.current, false⟩ := by
      simp [step, State.define, Store.addFunction]
    refine h.push grows functions (by simp [step, State.define, Store.addFunction]) fun plain => ?_
    cases plain
  | @baseClass name methods pending part named leaves step =>
    have defined := Store.extends_define (plain _ named) c.state.store c.state.current .nil
    rw [step]
    exact initialized_finishClass (σ := c.state.define name.lexeme .nil)
      (h.same defined (by simp [State.define]) (by simp [State.define])) name (plain _ named) none
      methods c.state.current pending
  | @derivedClass name parent methods k pending σ now step =>
    subst now
    have opened := Store.extends_addEnvironment σ.store (some σ.current)
      (Bindings.empty.insert Scope.superName (.classRef k))
    rw [step]
    exact initialized_finishClass (σ := { σ with store := _ }) (h.same opened rfl rfl) name
      (plain _ rfl) (some k) methods σ.store.nextEnvironment pending

theorem Config.Initialized.step (h : c.Initialized)
    (plain : ∀ name, c.binding? = some name → name.Plain) : c.step.Initialized := by
  have grows := Config.step_extends plain
  have kept : ∀ closure ∈ activeBodies c.pending, closure.isInitializer = true →
      ∃ i, c.step.state.store.Receives closure i := by
    intro closure active initializer
    obtain ⟨i, receives⟩ := h.bodies closure active initializer
    exact ⟨i, receives.kept grows⟩
  refine ⟨h.store.step plain, ?_⟩
  rcases c.activeBodies_step with same | ⟨ended, same⟩ | ⟨started, arguments, rest, invokes⟩
  · rw [same]
    exact kept
  · rw [same] at kept
    exact fun closure active => kept closure (List.mem_cons_of_mem _ active)
  · rw [invokes.activeBodies]
    refine List.forall_mem_cons.mpr ⟨fun initializer => ?_, kept⟩
    cases invokes with
    | function _ stored _ _ =>
      obtain ⟨i, receives⟩ := h.store.functions _ started stored initializer
      exact ⟨i, receives.kept grows⟩
    | @construction k method _ _ _ _ _ step =>
      have bound := (c.state.store.addInstance k).receives_bind method
        c.state.store.nextInstance
      refine ⟨c.state.store.nextInstance, ?_⟩
      rw [step]
      exact bound.kept (Store.extends_addEnvironment _ _ _)

end

/-! ## What calls give -/

/-- The function is an initializer on the instance. -/
def Store.Initializes (σ : Store) (id : FunctionId) (i : InstanceId) : Prop :=
  ∃ closure, σ.functions[id]? = some closure ∧ closure.isInitializer = true ∧ σ.Receives closure i

namespace Config

variable (c : Config)

/-- A call of a class that gives a value gives an instance of that class that nothing named before.
A class with an initializer starts the nearest one on the instance, and its body is over and has
given the instance before the call has. -/
def Constructs : Prop :=
  ∀ k paren arguments n v, c.Completes (.classRef k) paren arguments n v →
    let made := c.state.store.nextInstance
    v = .instanceRef made ∧
      c.state.store.instances[made]? = none ∧ ¬ c.Offers (.instanceRef made) ∧
      (c.run (n + 1)).state.store.instances[made]?.map InstanceObject.classId = some k ∧
      (c.state.store.LacksMethod k initializerName → arguments = [] ∧ n = 0) ∧
      ∀ initializer, c.state.store.NearestMethod k initializerName initializer →
        ∃ closure, closure.decl = initializer.decl ∧ closure.isInitializer = true ∧
          c.step.state.store.enclosing? closure.environment = some initializer.environment ∧
          c.step.state.store.Receives closure made ∧
          c.Starts closure arguments (.construction made :: c.pending.tail) ∧
          ∃ m < n, (c.run (m + 1)).control = .value (.instanceRef made) ∧
            (c.run (m + 1)).pending = .construction made :: c.pending.tail

/-- A call of an initializer that gives a value gives its instance. -/
def GivesReceiver : Prop :=
  ∀ id i paren arguments n v, c.state.store.Initializes id i →
    c.Completes (.functionRef id) paren arguments n v →
      v = .instanceRef i ∧ ∃ closure, c.state.store.functions[id]? = some closure ∧
        c.Starts closure arguments c.pending.tail

/-- The method `init`, as a property of an instance that has no such field or through `super`, is an
initializer on that instance, or on the one that is `this` there. -/
def AccessBinds : Prop :=
  (∀ i name pending σ, c = ⟨.value (.instanceRef i), .property name :: pending, σ⟩ →
    name.lexeme = initializerName → σ.store.field? i initializerName = none →
      ∀ v, c.step.control = .value v →
        ∃ id, v = .functionRef id ∧ c.step.state.store.Initializes id i) ∧
  ∀ occurrence keyword method pending σ k i,
    c = ⟨.evaluate (.superRef occurrence keyword method), pending, σ⟩ →
    method.lexeme = initializerName → superParts σ occurrence keyword = .ok (k, i) →
      ∀ v, c.step.control = .value v →
        ∃ id, v = .functionRef id ∧ c.step.state.store.Initializes id i

/-- Every initializer in the store has an instance, and so has every one whose body is in progress:
the result of the body is that instance, never the nil in its place. -/
def ReceiversPresent : Prop :=
  (∀ (id : FunctionId) closure, c.state.store.functions[id]? = some closure →
    closure.isInitializer = true → ∃ i, c.state.store.Initializes id i) ∧
  ∀ caller closure, .body caller closure ∈ c.pending → closure.isInitializer = true →
    ∃ i, c.state.store.Receives closure i ∧
      ∀ completion, bodyResult c.state.store closure completion = .instanceRef i

/-- A call that is no fault has the right count of arguments, and every body that is started is
started by a call, with each parameter bound to its argument. -/
def CallsCounted : Prop :=
  (∀ callee paren arguments, c.Calls callee paren arguments →
    (∀ f, c.step.control ≠ .failed f) →
      c.state.store.arity? callee = some arguments.length) ∧
  ∀ closure, activeBodies c.step.pending = closure :: activeBodies c.pending →
    ∃ callee paren arguments rest, c.Calls callee paren arguments ∧
      c.Starts closure arguments rest ∧ arguments.length = closure.decl.params.length

end Config

section
variable {programs : List (List Stmt)} {table : Distances} {size : Nat} {c : Config}

theorem Store.Initializes.kept {σ σ' : Store} {id : FunctionId} {i : InstanceId}
    (h : σ.Initializes id i) (grows : σ.Extends σ') (lasts : σ.Lasts σ') :
    σ'.Initializes id i := by
  obtain ⟨closure, stored, initializer, receives⟩ := h
  exact ⟨closure, lasts.functions _ _ stored, initializer, receives.kept grows⟩

/-- A method that is bound is a function of its own on the receiver. -/
theorem Store.Initialized.boundMethod {σ : Store} (h : σ.Initialized) {k : ClassId}
    {method : Closure} (found : σ.findMethod k initializerName = some method) (i : InstanceId) :
    ∃ id, (σ.boundMethod method i).1 = .functionRef id ∧
      (σ.boundMethod method i).2.Initializes id i := by
  have initializer : method.isInitializer = true := (h.findMethod found).mpr rfl
  refine ⟨σ.functions.size, rfl, (σ.bind method i).1, ?_, initializer, σ.receives_bind method i⟩
  show (σ.functions.push (σ.bind method i).1)[σ.functions.size]? = _
  rw [Array.getElem?_push, if_pos rfl]

theorem Config.Initialized.accessBinds (h : c.Initialized) : c.AccessBinds := by
  constructor
  · rintro i ⟨kind, lexeme, line⟩ pending σ rfl rfl absent v given
    have step : Config.step ⟨.value (.instanceRef i),
        .property ⟨kind, initializerName, line⟩ :: pending, σ⟩ =
      property (.instanceRef i) ⟨kind, initializerName, line⟩ pending σ := rfl
    rw [step] at given ⊢
    simp only [property, absent] at given ⊢
    cases hm : σ.store.instances[i]?.bind (σ.store.findMethod ·.classId initializerName) with
    | none =>
      rw [hm] at given
      cases given
    | some method =>
      rw [hm] at given
      obtain ⟨object, _, found⟩ := Option.bind_eq_some_iff.mp hm
      obtain ⟨id, hid, initializes⟩ := h.store.boundMethod found i
      cases given
      exact ⟨id, hid, initializes⟩
  · rintro occurrence keyword ⟨kind, lexeme, line⟩ pending σ k i rfl rfl parts v given
    have step : Config.step
        ⟨.evaluate (.superRef occurrence keyword ⟨kind, initializerName, line⟩), pending, σ⟩ =
      superMethod occurrence keyword ⟨kind, initializerName, line⟩ pending σ := rfl
    rw [step] at given ⊢
    simp only [superMethod, parts] at given ⊢
    cases found : σ.store.findMethod k initializerName with
    | none =>
      rw [found] at given
      cases given
    | some method =>
      rw [found] at given
      obtain ⟨id, hid, initializes⟩ := h.store.boundMethod found i
      cases given
      exact ⟨id, hid, initializes⟩

theorem Config.Initialized.receiversPresent (h : c.Initialized) : c.ReceiversPresent := by
  refine ⟨fun id closure stored initializer => ?_, fun caller closure waits initializer => ?_⟩
  · obtain ⟨i, receives⟩ := h.store.functions id closure stored initializer
    exact ⟨i, closure, stored, initializer, receives⟩
  · obtain ⟨i, receives⟩ := h.bodies closure (mem_activeBodies waits) initializer
    exact ⟨i, receives, receives.bodyResult initializer⟩

theorem Config.callsCounted (recorded : Recorded programs table size)
    (sourced : c.state.store.Sourced programs) : c.CallsCounted := by
  refine ⟨fun callee paren arguments calls fine => ?_, fun closure started => ?_⟩
  · rcases call_checked callee paren arguments c.state with ⟨f, failed⟩ | ⟨counted, _⟩
    · exact absurd (by rw [calls.step_call, failed]) (fine f)
    · exact counted
  · obtain ⟨arguments, rest, invokes⟩ := invokes_of_activeBodies started
    obtain ⟨callee, paren, calls⟩ := invokes.calls
    have starts := invokes.starts ((invokes.sourced sourced).params_distinct recorded)
    exact ⟨callee, paren, arguments, rest, calls, starts, starts.bound.length_eq.symm⟩

theorem Config.givesReceiver
    (grows : ∀ n, c.state.store.Extends (c.run n).state.store)
    (recorded : Recorded programs table size) (sourced : c.state.store.Sourced programs) :
    c.GivesReceiver := by
  rintro id i paren arguments n v ⟨closure, stored, initializer, receives⟩ completes
  obtain ⟨invokes, m, _, completion, rfl⟩ := completes.function stored
  exact ⟨(receives.kept (grows (m + 1))).bodyResult initializer completion, closure, stored,
    invokes.starts ((invokes.sourced sourced).params_distinct recorded)⟩

/-- An instance stays of its class. -/
theorem Store.Steady.classes : Store.Steady fun σ σ' => ∀ (i : InstanceId) k,
    σ.instances[i]?.map InstanceObject.classId = some k →
      σ'.instances[i]?.map InstanceObject.classId = some k where
  refl _ _ _ h := h
  trans h h' i k hk := h' i k (h i k hk)
  define _ _ _ _ _ _ h := by rwa [Store.instances_define]
  setField _ _ _ _ _ _ h := by rwa [Store.classId_setField]
  addEnvironment _ _ _ _ _ h := h
  addFunction _ _ _ _ h := h
  addClass _ _ _ _ h := h
  addInstance σ _ i k h := by
    obtain ⟨object, stored, _⟩ := Option.map_eq_some_iff.mp h
    have old : i ≠ σ.instances.size := Nat.ne_of_lt (Array.getElem?_eq_some_iff.mp stored).1
    rw [Store.addInstance, Array.getElem?_push, if_neg old]
    exact h

theorem Config.Initialized.constructs (h : c.Initialized) (sound : c.Sound)
    (grows : ∀ n, c.step.state.store.Extends (c.run (n + 1)).state.store)
    (recorded : Recorded programs table size) (sourced : c.state.store.Sourced programs) :
    c.Constructs := by
  intro k paren arguments n v completes made
  obtain ⟨rfl, way⟩ := completes.construction
  have new : c.state.store.instances[made]? = none := Array.getElem?_eq_none (Nat.le_refl _)
  have unknown : ¬ c.Offers (.instanceRef made) := fun offered =>
    Nat.lt_irrefl _ (sound.offered offered)
  have pushed : c.step.state.store.instances = c.state.store.instances.push ⟨k, .empty⟩ := by
    rcases way with ⟨_, _, _, step⟩ | ⟨_, _, _, step, _⟩
    · rw [step]
      rfl
    · rw [step]
      rfl
  have added : c.step.state.store.instances[made]?.map InstanceObject.classId = some k := by
    have last : made = c.state.store.instances.size := rfl
    rw [pushed, Array.getElem?_push, if_pos last]
    rfl
  have stays : (c.run (n + 1)).state.store.instances[made]?.map InstanceObject.classId = some k := by
    have run := run_steady .classes c (Nat.le_add_left 1 n) made k
    rw [run_succ 0] at run
    exact run added
  refine ⟨rfl, new, unknown, stays, fun lacks => ?_, fun initializer nearest => ?_⟩
  · rcases way with ⟨_, none, immediate, _⟩ | ⟨initializer, found, _⟩
    · exact ⟨none, immediate⟩
    · exact absurd ((Store.findMethod_eq_some_iff sound.store.ordered).mp found) lacks.not_nearest
  · have found := (Store.findMethod_eq_some_iff sound.store.ordered).mpr nearest
    rcases way with ⟨missing, _⟩ | ⟨other, found', counted, step, m, hm, waits, l, _, completion, given⟩
    · rw [found] at missing
      cases missing
    · obtain rfl : other = initializer := Option.some.inj (found'.symm.trans found)
      have initializes : other.isInitializer = true := (h.store.findMethod found).mpr rfl
      have grown : (c.state.store.initializing k other).2.Extends c.step.state.store := by
        rw [step]
        exact Store.extends_addEnvironment _ _ _
      have receives : c.step.state.store.Receives (c.state.store.initializing k other).1 made :=
        ((c.state.store.addInstance k).receives_bind other made).kept grown
      have around := grown.enclosing_kept ((c.state.store.addInstance k).enclosing?_bind other made)
      have distinct : (other.decl.params.map Token.lexeme).Nodup :=
        (sourced.findMethod found).params_distinct recorded
      have starts := starts_of_step step rfl distinct counted
      refine ⟨(c.state.store.initializing k other).1, rfl, initializes, around, receives, starts, m,
        hm, ?_, waits⟩
      rw [given, (receives.kept (grows l)).bodyResult initializes]

end

end Lox
