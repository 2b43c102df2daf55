import Mathlib.Logic.Relation
import Lox.Proofs.Machine.References

/-!
# Objects and the references between them

A store holds environments, functions, classes and instances, each with references to others. What
is reachable from the environment in use and from the globals is what these references lead to. A
set of objects is closed if no reference leads out of it. A change of the store is confined to a
closed set if the set stays closed and nothing outside is changed; here are the changes that are.
-/
namespace Lox

/-- What a store holds, by its place there. -/
inductive Object where
  | environment (id : EnvironmentId)
  | function (id : FunctionId)
  | classObject (id : ClassId)
  | instanceObject (id : InstanceId)

/-- The object that a value refers to. -/
def Value.object? : Value → Option Object
  | .functionRef id => some (.function id)
  | .classRef id => some (.classObject id)
  | .instanceRef id => some (.instanceObject id)
  | _ => none

/-- The value is no object, or one of these. -/
def Value.Inside (R : Object → Prop) (v : Value) : Prop := ∀ o, v.object? = some o → R o

namespace Store

/-- The object is in the store. -/
def Has (σ : Store) : Object → Prop
  | .environment e => e < σ.environments.size
  | .function f => f < σ.functions.size
  | .classObject k => k < σ.classes.size
  | .instanceObject i => i < σ.instances.size

/-- One object refers to another: an environment to the enclosing one and to what it binds, a
function to its environment, a class to its superclass and to the environments of its methods, an
instance to its class and to what its fields hold. -/
inductive Links (σ : Store) : Object → Object → Prop where
  | enclosing {e outer : EnvironmentId} (h : σ.enclosing? e = some outer) :
      Links σ (.environment e) (.environment outer)
  | bound {e : EnvironmentId} {name : String} {v : Value} {o : Object}
      (h : σ.local? e name = some v) (named : v.object? = some o) : Links σ (.environment e) o
  | closure {f : FunctionId} {c : Closure} (h : σ.functions[f]? = some c) :
      Links σ (.function f) (.environment c.environment)
  | method {k : ClassId} {name : String} {c : Closure} (h : σ.ownMethod? k name = some c) :
      Links σ (.classObject k) (.environment c.environment)
  | superclass {k parent : ClassId} (h : σ.superclass? k = some parent) :
      Links σ (.classObject k) (.classObject parent)
  | instanceClass {i : InstanceId} {object : InstanceObject} (h : σ.instances[i]? = some object) :
      Links σ (.instanceObject i) (.classObject object.classId)
  | field {i : InstanceId} {name : String} {v : Value} {o : Object}
      (h : σ.field? i name = some v) (named : v.object? = some o) : Links σ (.instanceObject i) o

end Store

/-- The object is reachable from the environment in use or from the globals. -/
def State.Reaches (σ : State) (o : Object) : Prop :=
  Relation.ReflTransGen σ.store.Links (.environment σ.current) o ∨
    Relation.ReflTransGen σ.store.Links (.environment State.globals) o

/-! ## Closed sets -/

/-- What a class refers to is in the set. -/
structure ClassObject.Inside (R : Object → Prop) (made : ClassObject) : Prop where
  superclass : ∀ parent, made.superclass = some parent → R (.classObject parent)
  methods : ∀ name c, made.methods.get? name = some c → R (.environment c.environment)

namespace Store

/-- No reference leads out of the set. -/
structure Closed (R : Object → Prop) (σ : Store) : Prop where
  enclosing : ∀ e outer, σ.enclosing? e = some outer → R (.environment e) → R (.environment outer)
  locals : ∀ e name v, σ.local? e name = some v → R (.environment e) → v.Inside R
  functions : ∀ (f : FunctionId) c, σ.functions[f]? = some c → R (.function f) →
    R (.environment c.environment)
  classes : ∀ (k : ClassId) made, σ.classes[k]? = some made → R (.classObject k) → made.Inside R
  instances : ∀ (i : InstanceId) object, σ.instances[i]? = some object → R (.instanceObject i) →
    R (.classObject object.classId)
  fields : ∀ i name v, σ.field? i name = some v → R (.instanceObject i) → v.Inside R

/-- The set stays closed, and what is outside it stays as it was. -/
structure Confined (R : Object → Prop) (σ σ' : Store) : Prop where
  closed : Closed R σ'
  environments : ∀ e : EnvironmentId, ¬ R (.environment e) →
    σ'.environments[e]? = σ.environments[e]?
  instances : ∀ i : InstanceId, ¬ R (.instanceObject i) → σ'.instances[i]? = σ.instances[i]?

variable {R : Object → Prop} {σ σ' σ'' : Store}

theorem Links.has {o o' : Object} (h : σ.Links o o') : σ.Has o := by
  cases h with
  | enclosing h => exact lt_of_enclosing? h
  | bound h => exact lt_of_local? h
  | closure h => exact (Array.getElem?_eq_some_iff.mp h).1
  | method h => exact lt_of_ownMethod? h
  | superclass h => exact lt_of_superclass? h
  | instanceClass h => exact (Array.getElem?_eq_some_iff.mp h).1
  | field h =>
    obtain ⟨_, h, _⟩ := Option.bind_eq_some_iff.mp h
    exact (Array.getElem?_eq_some_iff.mp h).1

@[simp] theorem has_define (σ : Store) (e : EnvironmentId) (name : String) (v : Value)
    (o : Object) : (σ.define e name v).Has o ↔ σ.Has o := by
  cases o <;> simp [Has]

theorem closed_iff : Closed R σ ↔ ∀ o o', σ.Links o o' → R o → R o' := by
  constructor
  · intro closed o o' link ho
    cases link with
    | enclosing h => exact closed.enclosing _ _ h ho
    | bound h named => exact closed.locals _ _ _ h ho _ named
    | closure h => exact closed.functions _ _ h ho
    | method h =>
      obtain ⟨made, hk, hm⟩ := Option.bind_eq_some_iff.mp h
      exact (closed.classes _ _ hk ho).methods _ _ hm
    | superclass h =>
      obtain ⟨made, hk, hp⟩ := Option.bind_eq_some_iff.mp h
      exact (closed.classes _ _ hk ho).superclass _ hp
    | instanceClass h => exact closed.instances _ _ h ho
    | field h named => exact closed.fields _ _ _ h ho _ named
  · intro links
    refine ⟨fun _ _ h => links _ _ (.enclosing h),
      fun _ _ _ h he o ho => links _ _ (.bound h ho) he, fun _ _ h => links _ _ (.closure h),
      fun k made hk hr => ⟨fun parent hp => ?_, fun name c hc => ?_⟩,
      fun _ _ h => links _ _ (.instanceClass h), fun _ _ _ h hi o ho => links _ _ (.field h ho) hi⟩
    · exact links _ _ (.superclass (by rw [superclass?, hk]; exact hp)) hr
    · exact links _ _ (.method (by rw [ownMethod?, hk]; exact hc)) hr

/-- A method that is found from a class of the set on belongs to a class of the set. -/
theorem Closed.owned_of_findMethod (closed : Closed R σ) {k : ClassId} (hk : R (.classObject k))
    {name : String} {method : Closure} (h : σ.findMethod k name = some method) :
    ∃ owner, R (.classObject owner) ∧ σ.ownMethod? owner name = some method := by
  induction k using Nat.strongRecOn with
  | ind k ih =>
    rw [Store.findMethod] at h
    split at h
    · cases h
    · next made hm =>
      split at h
      · next c hc =>
        cases h
        exact ⟨k, hk, by rw [ownMethod?, hm]; exact hc⟩
      · split at h
        · cases h
        · next parent hp =>
          split at h
          · next older => exact ih parent older ((closed.classes k made hm hk).superclass parent hp) h
          · cases h

theorem Closed.findMethod (closed : Closed R σ) {k : ClassId} (hk : R (.classObject k))
    {name : String} {method : Closure} (h : σ.findMethod k name = some method) :
    R (.environment method.environment) := by
  obtain ⟨owner, inside, own⟩ := closed.owned_of_findMethod hk h
  exact closed_iff.mp closed _ _ (.method own) inside

theorem Closed.ancestor (closed : Closed R σ) {e a : EnvironmentId} (he : R (.environment e))
    {distance : Nat} (h : σ.ancestor? e distance = some a) : R (.environment a) := by
  induction distance generalizing e with
  | zero =>
    rw [ancestor?] at h
    split at h
    · cases h
      exact he
    · cases h
  | succ distance ih =>
    obtain ⟨outer, ho, h⟩ := Option.bind_eq_some_iff.mp h
    exact ih (closed.enclosing e outer ho he) h

theorem Closed.owner (closed : Closed R σ) {e a : EnvironmentId} (he : R (.environment e))
    {name : String} (h : σ.owner? e name = some a) : R (.environment a) := by
  induction e using Nat.strongRecOn with
  | ind e ih =>
    rw [owner?] at h
    split at h
    · cases h
    · next environment found =>
      split at h
      · cases h
        exact he
      · split at h
        · cases h
        · next outer ho =>
          split at h
          · next older =>
            have inside : σ.enclosing? e = some outer := by
              rw [enclosing?, found]
              exact ho
            exact ih outer older (closed.enclosing e outer inside he) h
          · cases h

/-! ## Changes that are confined -/

theorem Confined.refl (closed : Closed R σ) : Confined R σ σ :=
  ⟨closed, fun _ _ => rfl, fun _ _ => rfl⟩

theorem Confined.trans (h : Confined R σ σ') (h' : Confined R σ' σ'') : Confined R σ σ'' :=
  ⟨h'.closed, fun e he => (h'.environments e he).trans (h.environments e he),
    fun i hi => (h'.instances i hi).trans (h.instances i hi)⟩

theorem confined_define (closed : Closed R σ) {e : EnvironmentId} (owner : R (.environment e))
    (name : String) {v : Value} (known : v.Inside R) : Confined R σ (σ.define e name v) where
  closed :=
    { enclosing := fun a outer h => closed.enclosing a outer (by rwa [enclosing?_define] at h)
      locals := fun a other w h ha => by
        rw [local?_define] at h
        split at h
        · cases h
          exact known
        · exact closed.locals a other w h ha
      functions := by
        rw [functions_define]
        exact closed.functions
      classes := by
        rw [classes_define]
        exact closed.classes
      instances := by
        rw [instances_define]
        exact closed.instances
      fields := fun i other w h => by
        rw [field?_eq, instances_define] at h
        exact closed.fields i other w h }
  environments a ha := by
    have other : e ≠ a := fun same => ha (same ▸ owner)
    unfold define
    split
    · exact Array.getElem?_setIfInBounds_ne other
    · rfl
  instances i _ := by rw [instances_define]

theorem field?_setField (σ : Store) (i j : InstanceId) (name other : String) (v : Value) :
    (σ.setField i name v).field? j other =
      if j = i ∧ i < σ.instances.size ∧ other = name then some v else σ.field? j other := by
  unfold setField
  by_cases hi : i < σ.instances.size
  · simp only [Array.getElem?_eq_getElem hi, field?, Array.getElem?_setIfInBounds]
    by_cases hj : i = j
    · subst hj
      by_cases hn : other = name <;> simp [hi, hn]
    · simp [hj, Ne.symm hj]
  · simp [hi]

/-- A field is set in one instance, and its class stays. -/
theorem classId_setField (σ : Store) (i j : InstanceId) (name : String) (v : Value) :
    (σ.setField i name v).instances[j]?.map InstanceObject.classId =
      σ.instances[j]?.map InstanceObject.classId := by
  unfold setField
  split
  · next object hi =>
    by_cases hj : i = j
    · subst hj
      obtain ⟨hlt, rfl⟩ := Array.getElem?_eq_some_iff.mp hi
      simp [hlt]
    · simp [Array.getElem?_setIfInBounds_ne hj]
  · rfl

theorem confined_setField (closed : Closed R σ) {i : InstanceId} (owner : R (.instanceObject i))
    (name : String) {v : Value} (known : v.Inside R) : Confined R σ (σ.setField i name v) := by
  obtain ⟨environments, functions, classes⟩ := setField_rest σ i name v
  refine ⟨⟨?_, ?_, ?_, ?_, fun j object hj => ?_, fun j other w h hj => ?_⟩, fun e _ => by
    rw [environments], fun j hj => ?_⟩
  · simpa only [enclosing?, environments] using closed.enclosing
  · simpa only [local?, environments] using closed.locals
  · rw [functions]
    exact closed.functions
  · rw [classes]
    exact closed.classes
  · have same := classId_setField σ i j name v
    rw [hj] at same
    obtain ⟨old, ho, hc⟩ := Option.map_eq_some_iff.mp same.symm
    exact hc ▸ closed.instances j old ho
  · rw [field?_setField] at h
    split at h
    · cases h
      exact known
    · exact closed.fields j other w h hj
  · have other : i ≠ j := fun same => hj (same ▸ owner)
    unfold setField
    split
    · exact Array.getElem?_setIfInBounds_ne other
    · rfl

theorem confined_addEnvironment (closed : Closed R σ) (new : R (.environment σ.nextEnvironment))
    {outer : EnvironmentId} (inside : R (.environment outer)) {bindings : Bindings Value}
    (known : ∀ name v, bindings.get? name = some v → v.Inside R) :
    Confined R σ (σ.addEnvironment (some outer) bindings) where
  closed :=
    { closed with
      enclosing := fun a around h ha => by
        rw [enclosing?_addEnvironment] at h
        split at h
        · cases h
          exact inside
        · exact closed.enclosing a around h ha
      locals := fun a name v h ha => by
        rw [local?_addEnvironment] at h
        split at h
        · exact known name v h
        · exact closed.locals a name v h ha }
  environments e he := by
    have other : e ≠ σ.environments.size := fun same => he (same ▸ new)
    simp [addEnvironment, Array.getElem?_push, other]
  instances _ _ := rfl

theorem confined_addFunction (closed : Closed R σ) {c : Closure}
    (inside : R (.environment c.environment)) : Confined R σ (σ.addFunction c) where
  closed :=
    { closed with
      functions := fun f other h hf => by
        rw [addFunction, Array.getElem?_push] at h
        split at h
        · cases h
          exact inside
        · exact closed.functions f other h hf }
  environments _ _ := rfl
  instances _ _ := rfl

theorem confined_addClass (closed : Closed R σ) {made : ClassObject} (inside : made.Inside R) :
    Confined R σ (σ.addClass made) where
  closed :=
    { closed with
      classes := fun k other h hk => by
        rw [addClass, Array.getElem?_push] at h
        split at h
        · cases h
          exact inside
        · exact closed.classes k other h hk }
  environments _ _ := rfl
  instances _ _ := rfl

theorem confined_addInstance (closed : Closed R σ) (new : R (.instanceObject σ.nextInstance))
    {k : ClassId} (made : R (.classObject k)) : Confined R σ (σ.addInstance k) where
  closed :=
    { closed with
      instances := fun i object h hi => by
        rw [addInstance, Array.getElem?_push] at h
        split at h
        · cases h
          exact made
        · exact closed.instances i object h hi
      fields := fun i name v h hi => by
        rw [field?_eq, addInstance, Array.getElem?_push] at h
        split at h
        · cases h
        · exact closed.fields i name v h hi }
  environments _ _ := rfl
  instances i hi := by
    have other : i ≠ σ.instances.size := fun same => hi (same ▸ new)
    simp [addInstance, Array.getElem?_push, other]

/-! ## What lasts -/

/-- All that is there stays: environments within the same ones, functions and classes as they were
made. -/
structure Lasts (σ σ' : Store) : Prop where
  environments : σ.environments.size ≤ σ'.environments.size
  enclosing : ∀ e < σ.environments.size, σ'.enclosing? e = σ.enclosing? e
  functions : ∀ (f : FunctionId) c, σ.functions[f]? = some c → σ'.functions[f]? = some c
  classes : ∀ (k : ClassId) made, σ.classes[k]? = some made → σ'.classes[k]? = some made
  instances : σ.instances.size ≤ σ'.instances.size

namespace Lasts

theorem refl (σ : Store) : Lasts σ σ :=
  ⟨Nat.le_refl _, fun _ _ => rfl, fun _ _ h => h, fun _ _ h => h, Nat.le_refl _⟩

theorem trans (h : Lasts σ σ') (h' : Lasts σ' σ'') : Lasts σ σ'' where
  environments := Nat.le_trans h.environments h'.environments
  enclosing e he :=
    (h'.enclosing e (Nat.lt_of_lt_of_le he h.environments)).trans (h.enclosing e he)
  functions f c hf := h'.functions f c (h.functions f c hf)
  classes k made hk := h'.classes k made (h.classes k made hk)
  instances := Nat.le_trans h.instances h'.instances

theorem has (h : Lasts σ σ') {o : Object} (old : σ.Has o) : σ'.Has o := by
  cases o with
  | environment e => exact Nat.lt_of_lt_of_le old h.environments
  | function f =>
    have stored := h.functions f σ.functions[f] (Array.getElem?_eq_getElem old)
    exact (Array.getElem?_eq_some_iff.mp stored).1
  | classObject k =>
    have stored := h.classes k σ.classes[k] (Array.getElem?_eq_getElem old)
    exact (Array.getElem?_eq_some_iff.mp stored).1
  | instanceObject i => exact Nat.lt_of_lt_of_le old h.instances

theorem enclosed (h : Lasts σ σ') {e outer : EnvironmentId} (inside : σ.enclosing? e = some outer) :
    σ'.enclosing? e = some outer :=
  (h.enclosing e (lt_of_enclosing? inside)).trans inside

/-- A method that is found is found ever after. -/
theorem findMethod (h : Lasts σ σ') {k : ClassId} {name : String} {method : Closure}
    (found : σ.findMethod k name = some method) : σ'.findMethod k name = some method := by
  induction k using Nat.strongRecOn with
  | ind k ih =>
    rw [Store.findMethod] at found ⊢
    cases hk : σ.classes[k]? with
    | none =>
      rw [hk] at found
      cases found
    | some made =>
      rw [hk] at found
      rw [h.classes k made hk]
      simp only at found ⊢
      cases hm : made.methods.get? name with
      | some own =>
        rw [hm] at found
        exact found
      | none =>
        rw [hm] at found
        simp only at found ⊢
        cases hp : made.superclass with
        | none =>
          rw [hp] at found
          cases found
        | some parent =>
          rw [hp] at found
          simp only at found ⊢
          split at found
          · next older =>
            rw [if_pos older]
            exact ih parent older found
          · cases found

theorem define (σ : Store) (e : EnvironmentId) (name : String) (v : Value) :
    Lasts σ (σ.define e name v) :=
  ⟨by simp, fun _ _ => by simp, fun _ _ h => by simpa using h, fun _ _ h => by simpa using h,
    by simp⟩

theorem setField (σ : Store) (i : InstanceId) (name : String) (v : Value) :
    Lasts σ (σ.setField i name v) := by
  obtain ⟨environments, functions, classes⟩ := setField_rest σ i name v
  exact ⟨Nat.le_of_eq (by rw [environments]),
    fun e _ => by rw [enclosing?, enclosing?, environments],
    fun f c h => by rwa [functions], fun k made h => by rwa [classes],
    (keeps_setField σ i name v).instances⟩

theorem addEnvironment (σ : Store) (outer : Option EnvironmentId) (bindings : Bindings Value) :
    Lasts σ (σ.addEnvironment outer bindings) :=
  ⟨by simp, fun e he => by rw [enclosing?_addEnvironment, if_neg (ne_nextEnvironment he)],
    fun _ _ h => h, fun _ _ h => h, Nat.le_refl _⟩

theorem addFunction (σ : Store) (c : Closure) : Lasts σ (σ.addFunction c) := by
  refine ⟨Nat.le_refl _, fun _ _ => rfl, fun f other h => ?_, fun _ _ h => h, Nat.le_refl _⟩
  obtain ⟨old, _⟩ := Array.getElem?_eq_some_iff.mp h
  rw [Store.addFunction, Array.getElem?_push, if_neg (Nat.ne_of_lt old)]
  exact h

theorem addClass (σ : Store) (made : ClassObject) : Lasts σ (σ.addClass made) := by
  refine ⟨Nat.le_refl _, fun _ _ => rfl, fun _ _ h => h, fun k other h => ?_, Nat.le_refl _⟩
  obtain ⟨old, _⟩ := Array.getElem?_eq_some_iff.mp h
  rw [Store.addClass, Array.getElem?_push, if_neg (Nat.ne_of_lt old)]
  exact h

theorem addInstance (σ : Store) (k : ClassId) : Lasts σ (σ.addInstance k) :=
  ⟨Nat.le_refl _, fun _ _ => rfl, fun _ _ h => h, fun _ _ h => h,
    (keeps_addInstance σ k).instances⟩

end Lasts

/-- Outwards environments are older. -/
def Layered (σ : Store) : Prop := ∀ e outer, σ.enclosing? e = some outer → outer < e

theorem Layered.same (h : σ.Layered) (same : ∀ e, σ'.enclosing? e = σ.enclosing? e) : σ'.Layered :=
  fun e outer inside => h e outer ((same e).symm.trans inside)

theorem Layered.addEnvironment (h : σ.Layered) {outer : EnvironmentId}
    (older : outer < σ.environments.size) (bindings : Bindings Value) :
    (σ.addEnvironment (some outer) bindings).Layered := by
  intro e around inside
  rw [enclosing?_addEnvironment] at inside
  split at inside
  · next new =>
    cases inside
    exact new ▸ older
  · exact h e around inside

end Store

/-! ## Steps -/

/-- A relation that leads from a store to each change of it, and on to the next change. -/
structure Store.Steady (P : Store → Store → Prop) : Prop where
  refl : ∀ σ, P σ σ
  trans : ∀ {σ σ' σ''}, P σ σ' → P σ' σ'' → P σ σ''
  define : ∀ σ e name v, P σ (σ.define e name v)
  setField : ∀ σ i name v, P σ (σ.setField i name v)
  addEnvironment : ∀ σ (outer : EnvironmentId) bindings,
    P σ (σ.addEnvironment (some outer) bindings)
  addFunction : ∀ σ c, P σ (σ.addFunction c)
  addClass : ∀ σ made, P σ (σ.addClass made)
  addInstance : ∀ σ k, P σ (σ.addInstance k)

section
variable {P : Store → Store → Prop}

theorem finishClass_steady (steady : Store.Steady P) (name : Token) (parent : Option ClassId)
    (methods : List FunctionDecl) (environment : EnvironmentId) (pending : List Pending)
    (σ : State) : P σ.store (finishClass name parent methods environment pending σ).state.store := by
  obtain ⟨control, store, same, _, _, added⟩ :=
    finishClass_adds name parent methods environment pending σ
  rw [same]
  have made := steady.addClass σ.store (declaredClass name parent methods environment)
  rcases added with rfl | ⟨owner, rfl⟩
  · exact made
  · exact steady.trans made (steady.define _ _ _ _)

theorem enclosing?_finishClass (name : Token) (parent : Option ClassId)
    (methods : List FunctionDecl) (environment : EnvironmentId) (pending : List Pending) (σ : State)
    (e : EnvironmentId) :
    (finishClass name parent methods environment pending σ).state.store.enclosing? e =
      σ.store.enclosing? e := by
  obtain ⟨control, store, same, _, _, rfl | ⟨owner, rfl⟩⟩ :=
    finishClass_adds name parent methods environment pending σ
  · rw [same]
    rfl
  · rw [same, Store.enclosing?_define]
    rfl

/-- Whatever a step does, it changes the store in steady ways only. -/
theorem Config.step_steady (steady : Store.Steady P) (c : Config) :
    P c.state.store c.step.state.store := by
  cases c.turns with
  | going follows store =>
    rw [store]
    exact steady.refl _
  | binding follows named offered store =>
    rw [store]
    exact steady.define _ _ _ _
  | setting follows offered store =>
    rw [store]
    exact steady.setField _ _ _ _
  | block part leaves step =>
    rw [step]
    exact steady.addEnvironment _ _ _
  | creation offered leaves step =>
    rw [step]
    exact steady.addInstance _ _
  | body stored offered leaves step =>
    rw [step]
    exact steady.addEnvironment _ _ _
  | @construction k initializer arguments pending made found offered leaves step =>
    rw [step]
    have instanced := steady.addInstance c.state.store k
    exact steady.trans (steady.trans instanced (steady.addEnvironment _ _ _))
      (steady.addEnvironment _ _ _)
  | method found offered leaves step =>
    rw [step]
    exact steady.trans (steady.addEnvironment _ _ _) (steady.addFunction _ _)
  | function part named leaves step =>
    rw [step]
    exact steady.trans (steady.addFunction _ _) (steady.define _ _ _ _)
  | @baseClass name methods pending part named leaves step =>
    rw [step]
    have defined := steady.define c.state.store c.state.current name.lexeme .nil
    exact steady.trans defined (finishClass_steady steady name none methods c.state.current pending
      (c.state.define name.lexeme .nil))
  | @derivedClass name parent methods k pending σ now step =>
    rw [step]
    subst now
    have opened := steady.addEnvironment σ.store σ.current
      (Bindings.empty.insert Scope.superName (.classRef k))
    exact steady.trans opened (finishClass_steady steady name (some k) methods
      σ.store.nextEnvironment pending { σ with store := _ })

theorem Config.run_steady (steady : Store.Steady P) (c : Config) {m n : Nat} (le : m ≤ n) :
    P (c.run m).state.store (c.run n).state.store := by
  induction le with
  | refl => exact steady.refl _
  | step _ ih =>
    rw [run_succ]
    exact steady.trans ih (step_steady steady _)

end

theorem Store.Steady.lasts : Store.Steady Store.Lasts where
  refl := .refl
  trans := .trans
  define := .define
  setField := .setField
  addEnvironment σ outer := .addEnvironment σ (some outer)
  addFunction := .addFunction
  addClass := .addClass
  addInstance := .addInstance

theorem finishClass_lasts (name : Token) (parent : Option ClassId) (methods : List FunctionDecl)
    (environment : EnvironmentId) (pending : List Pending) (σ : State) :
    σ.store.Lasts (finishClass name parent methods environment pending σ).state.store :=
  finishClass_steady .lasts _ _ _ _ _ _

/-- Whatever a step does, all that is in the store lasts. -/
theorem Config.step_lasts (c : Config) : c.state.store.Lasts c.step.state.store :=
  step_steady .lasts c

theorem Config.run_lasts (c : Config) {m n : Nat} (le : m ≤ n) :
    (c.run m).state.store.Lasts (c.run n).state.store :=
  run_steady .lasts c le

end Lox
