import Lox.Proofs.Machine.Chains
import Lox.Proofs.Machine.Turns

/-!
# References to classes and instances

Every class or instance that a run speaks of is in the store: those at hand, those that names and
fields are bound to, the classes of instances and the superclasses of classes. A superclass is
older than its class, for it was there when the class was made.
-/
namespace Lox

open Scope (superName)

namespace Store

/-- The object that a value names is in the store. -/
def Knows (σ : Store) : Value → Prop
  | .classRef k => k < σ.classes.size
  | .instanceRef i => i < σ.instances.size
  | _ => True

structure Sound (σ : Store) : Prop where
  locals : ∀ e name v, σ.local? e name = some v → σ.Knows v
  fields : ∀ i name v, σ.field? i name = some v → σ.Knows v
  instances : ∀ (i : InstanceId) object, σ.instances[i]? = some object →
    object.classId < σ.classes.size
  ordered : σ.Ordered

/-- Classes and instances stay. -/
structure Keeps (σ σ' : Store) : Prop where
  classes : σ.classes.size ≤ σ'.classes.size
  instances : σ.instances.size ≤ σ'.instances.size

variable {σ σ' : Store} {v : Value}

theorem Knows.keep (h : σ.Knows v) (keeps : σ.Keeps σ') : σ'.Knows v := by
  cases v with
  | classRef k => exact Nat.lt_of_lt_of_le h keeps.classes
  | instanceRef i => exact Nat.lt_of_lt_of_le h keeps.instances
  | _ => trivial

theorem knows_plain (h : v.Plain) : σ.Knows v := by
  cases v with
  | classRef k => cases h
  | instanceRef i => cases h
  | _ => trivial

theorem Keeps.refl (σ : Store) : σ.Keeps σ := ⟨Nat.le_refl _, Nat.le_refl _⟩

theorem Keeps.of_same (classes : σ'.classes = σ.classes) (instances : σ'.instances = σ.instances) :
    σ.Keeps σ' :=
  ⟨Nat.le_of_eq (by rw [classes]), Nat.le_of_eq (by rw [instances])⟩

theorem keeps_setField (σ : Store) (i : InstanceId) (name : String) (v : Value) :
    σ.Keeps (σ.setField i name v) := by
  unfold Store.setField
  split
  · exact ⟨Nat.le_refl _, by simp⟩
  · exact .refl σ

theorem keeps_addClass (σ : Store) (made : ClassObject) : σ.Keeps (σ.addClass made) :=
  ⟨by simp [Store.addClass], Nat.le_refl _⟩

theorem keeps_addInstance (σ : Store) (k : ClassId) : σ.Keeps (σ.addInstance k) :=
  ⟨Nat.le_refl _, by simp [Store.addInstance]⟩

theorem Keeps.trans {σ'' : Store} (h : σ.Keeps σ') (h' : σ'.Keeps σ'') : σ.Keeps σ'' :=
  ⟨Nat.le_trans h.classes h'.classes, Nat.le_trans h.instances h'.instances⟩

/-! ## Changes of the store -/

theorem field?_eq (σ : Store) (i : InstanceId) (name : String) :
    σ.field? i name = σ.instances[i]?.bind (·.fields.get? name) := rfl

namespace Sound

/-- Changes of the environments alone. -/
theorem environments (h : σ.Sound) (classes : σ'.classes = σ.classes)
    (instances : σ'.instances = σ.instances)
    (locals : ∀ e name v, σ'.local? e name = some v → σ.Knows v) : σ'.Sound := by
  have keeps := Keeps.of_same classes instances
  refine ⟨fun e name v hv => (locals e name v hv).keep keeps, fun i name v hv => ?_,
    fun i object hi => ?_, fun c parent hp => ?_⟩
  · rw [field?_eq, instances, ← field?_eq] at hv
    exact (h.fields i name v hv).keep keeps
  · rw [classes]
    exact h.instances i object (instances ▸ hi)
  · rw [superclass?, classes, ← superclass?] at hp
    exact h.ordered c parent hp

theorem define (h : σ.Sound) (e : EnvironmentId) (name : String) (known : σ.Knows v) :
    (σ.define e name v).Sound := by
  refine h.environments (by simp) (by simp) fun a other w hw => ?_
  rw [local?_define] at hw
  split at hw
  · cases hw
    exact known
  · exact h.locals a other w hw

theorem addEnvironment (h : σ.Sound) (enclosing : Option EnvironmentId) {bindings : Bindings Value}
    (known : ∀ name v, bindings.get? name = some v → σ.Knows v) :
    (σ.addEnvironment enclosing bindings).Sound := by
  refine h.environments rfl rfl fun a other w hw => ?_
  rw [local?_addEnvironment] at hw
  split at hw
  · exact known other w hw
  · exact h.locals a other w hw

theorem addFunction (h : σ.Sound) (c : Closure) : (σ.addFunction c).Sound :=
  h.environments rfl rfl h.locals

/-- A class is made with a superclass that is there already. -/
theorem addClass (h : σ.Sound) {made : ClassObject}
    (older : ∀ k, made.superclass = some k → k < σ.classes.size) : (σ.addClass made).Sound := by
  have keeps := keeps_addClass σ made
  refine ⟨fun e name v hv => (h.locals e name v hv).keep keeps,
    fun i name v hv => (h.fields i name v hv).keep keeps,
    fun i object hi => Nat.lt_of_lt_of_le (h.instances i object hi) keeps.classes,
    fun c parent hp => ?_⟩
  rw [superclass?, Store.addClass, Array.getElem?_push] at hp
  split at hp
  · next he =>
    subst he
    exact older parent hp
  · exact h.ordered c parent hp

theorem addInstance (h : σ.Sound) {k : ClassId} (known : k < σ.classes.size) :
    (σ.addInstance k).Sound := by
  have keeps := keeps_addInstance σ k
  refine ⟨fun e name v hv => (h.locals e name v hv).keep keeps, fun i name v hv => ?_,
    fun i object hi => ?_, h.ordered⟩
  · rw [field?_eq, Store.addInstance, Array.getElem?_push] at hv
    split at hv
    · cases hv
    · exact (h.fields i name v hv).keep keeps
  · rw [Store.addInstance, Array.getElem?_push] at hi
    split at hi
    · cases hi
      exact known
    · exact h.instances i object hi

theorem setField (h : σ.Sound) (i : InstanceId) (name : String) (known : σ.Knows v) :
    (σ.setField i name v).Sound := by
  unfold Store.setField
  cases hi : σ.instances[i]? with
  | none => exact h
  | some object =>
    let changed : InstanceObject := { object with fields := object.fields.insert name v }
    have keeps : σ.Keeps { σ with instances := σ.instances.setIfInBounds i changed } :=
      ⟨Nat.le_refl _, by simp⟩
    refine ⟨fun e name v hv => (h.locals e name v hv).keep keeps, fun j other w hw => ?_,
      fun j other hj => ?_, h.ordered⟩
    · rw [field?_eq, Array.getElem?_setIfInBounds] at hw
      split at hw
      · next he =>
        subst he
        split at hw
        · simp only [Option.bind_some, Bindings.get?_insert] at hw
          split at hw
          · cases hw
            exact known.keep keeps
          · exact (h.fields i other w (by rw [field?_eq, hi]; exact hw)).keep keeps
        · cases hw
      · exact (h.fields j other w hw).keep keeps
    · rw [Array.getElem?_setIfInBounds] at hj
      split at hj
      · next he =>
        subst he
        split at hj
        · cases hj
          exact h.instances i object hi
        · cases hj
      · exact h.instances j other hj

end Sound

end Store

/-! ## Steps -/

/-- Parameters are bound to arguments. -/
theorem mem_of_parameterBindings {params : List Token} {arguments : List Value} {name : String}
    {v : Value} (h : (parameterBindings params arguments).get? name = some v) : v ∈ arguments := by
  have along (pairs : List (Token × Value)) (b : Bindings Value)
      (h : (pairs.foldl (fun b pair => b.insert pair.1.lexeme pair.2) b).get? name = some v) :
      b.get? name = some v ∨ ∃ pair ∈ pairs, pair.2 = v := by
    induction pairs generalizing b with
    | nil => exact .inl h
    | cons pair pairs ih =>
      rcases ih _ h with h | ⟨other, ho, rfl⟩
      · rw [Bindings.get?_insert] at h
        split at h
        · exact .inr ⟨pair, List.mem_cons_self, Option.some.inj h⟩
        · exact .inl h
      · exact .inr ⟨other, List.mem_cons_of_mem _ ho, rfl⟩
  rcases along (params.zip arguments) .empty h with h | ⟨pair, hp, rfl⟩
  · cases h
  · exact (List.of_mem_zip hp).2

/-- Every object that a configuration speaks of is in its store. -/
structure Config.Sound (c : Config) : Prop where
  store : c.state.store.Sound
  values : ∀ v ∈ c.values, c.state.store.Knows v

namespace Config.Sound

variable {c : Config} {pending : List Pending} {σ' : Store} {v : Value}

theorem offered (h : c.Sound) (offers : c.Offers v) : c.state.store.Knows v := by
  cases offers with
  | atHand hv => exact h.values v hv
  | plain plain => exact Store.knows_plain plain
  | bound hv => exact h.store.locals _ _ v hv
  | field hv => exact h.store.fields _ _ v hv

theorem waiting (h : c.Sound) (leaves : c.Leaves pending) (keeps : c.state.store.Keeps σ') :
    ∀ v ∈ pending.flatMap Pending.values, σ'.Knows v :=
  fun v hv => (h.offered (leaves.values v hv)).keep keeps

theorem following (h : c.Sound) (follows : c.Follows) (sound : c.step.state.store.Sound)
    (keeps : c.state.store.Keeps c.step.state.store) : c.step.Sound :=
  ⟨sound, fun v hv => (h.offered (follows.values v hv)).keep keeps⟩

theorem enterBody {σ : State} (h : σ.store.Sound) (closure : Closure) {arguments : List Value}
    (offered : ∀ v ∈ arguments, σ.store.Knows v)
    (waiting : ∀ v ∈ pending.flatMap Pending.values, σ.store.Knows v) :
    (enterBody closure arguments pending σ).Sound :=
  ⟨h.addEnvironment _ fun _ v hv => offered v (mem_of_parameterBindings hv), waiting⟩

theorem finishClass {σ : State} (h : σ.store.Sound) (name : Token) {parent : Option ClassId}
    (methods : List FunctionDecl) (environment : EnvironmentId)
    (older : ∀ k, parent = some k → k < σ.store.classes.size)
    (waiting : ∀ v ∈ pending.flatMap Pending.values, σ.store.Knows v) :
    (finishClass name parent methods environment pending σ).Sound := by
  obtain ⟨control, store, same, _, quiet, added⟩ :=
    finishClass_adds name parent methods environment pending σ
  have keeps := Store.keeps_addClass σ.store (declaredClass name parent methods environment)
  have made : (σ.store.addClass (declaredClass name parent methods environment)).Sound :=
    h.addClass older
  have known : (σ.store.addClass (declaredClass name parent methods environment)).Knows
      (.classRef σ.store.nextClass) := by
    show σ.store.classes.size < _
    simp [Store.addClass]
  rw [same]
  have values : ∀ v ∈ control.values ++ pending.flatMap Pending.values, store.Knows v := by
    rw [quiet]
    intro v hv
    rcases added with rfl | ⟨owner, rfl⟩
    · exact (waiting v hv).keep keeps
    · exact (waiting v hv).keep (keeps.trans (.of_same (by simp) (by simp)))
  refine ⟨?_, values⟩
  rcases added with rfl | ⟨owner, rfl⟩
  · exact made
  · exact made.define _ _ known

theorem bind {σ : Store} (h : σ.Sound) (method : Closure) {i : InstanceId}
    (known : i < σ.instances.size) : (σ.bind method i).2.Sound := by
  refine h.addEnvironment _ fun name v hv => ?_
  rw [Bindings.get?_insert] at hv
  split at hv
  · cases hv
    exact known
  · cases hv

theorem step (h : c.Sound) : c.step.Sound := by
  cases c.turns with
  | going follows store =>
    exact h.following follows (store ▸ h.store) (.of_same (by rw [store]) (by rw [store]))
  | binding follows named offered store =>
    refine h.following follows ?_ (.of_same (by simp [store]) (by simp [store]))
    rw [store]
    exact h.store.define _ _ (h.offered offered)
  | setting follows offered store =>
    refine h.following follows ?_ ?_
    · rw [store]
      exact h.store.setField _ _ (h.offered offered)
    · rw [store]
      exact Store.keeps_setField _ _ _ _
  | @block body pending part leaves step =>
    rw [step]
    have waiting := h.waiting leaves (.refl _)
    exact ⟨h.store.addEnvironment _ (by simp), waiting⟩
  | @creation k pending offered leaves step =>
    rw [step]
    have waiting := h.waiting leaves (Store.keeps_addInstance _ k)
    refine ⟨h.store.addInstance (h.offered offered), List.forall_mem_cons.mpr ⟨?_, waiting⟩⟩
    show c.state.store.instances.size < _
    simp [Store.addInstance]
  | body stored offered leaves step =>
    rw [step]
    exact enterBody h.store _ (fun v hv => h.offered (offered v hv)) (h.waiting leaves (.refl _))
  | @construction k initializer arguments pending made found offered leaves step =>
    rw [step]
    have keeps : c.state.store.Keeps
        ((c.state.store.addInstance k).bind initializer c.state.store.nextInstance).2 :=
      (Store.keeps_addInstance c.state.store k).trans (.of_same rfl rfl)
    have new : c.state.store.nextInstance < (c.state.store.addInstance k).instances.size := by
      simp [Store.addInstance, Store.nextInstance]
    have bound := bind (h.store.addInstance (h.offered made)) initializer new
    refine enterBody bound _ (fun v hv => (h.offered (offered v hv)).keep keeps) ?_
    exact List.forall_mem_cons.mpr ⟨new, h.waiting leaves keeps⟩
  | @method k name method i pending found offered leaves step =>
    rw [step]
    have bound := bind h.store method (h.offered offered)
    have waiting := h.waiting leaves (.refl _)
    exact ⟨bound.addFunction _, List.forall_mem_cons.mpr ⟨trivial, waiting⟩⟩
  | @function decl pending part named leaves step =>
    rw [step]
    have waiting := h.waiting leaves (.refl _)
    have added := h.store.addFunction ⟨decl, c.state.current, false⟩
    refine ⟨added.define _ _ trivial, fun v hv => (waiting v hv).keep (.of_same ?_ ?_)⟩
    · simp [State.define, Store.addFunction]
    · simp [State.define, Store.addFunction]
  | @baseClass name methods pending part named leaves step =>
    rw [step]
    have defined := h.store.define (v := .nil) c.state.current name.lexeme trivial
    refine finishClass defined _ _ _ (by simp) (h.waiting leaves ?_)
    exact .of_same (by simp [State.define]) (by simp [State.define])
  | @derivedClass name parent methods k pending σ now step =>
    subst now
    rw [step]
    have known : σ.store.Knows (.classRef k) := h.values _ List.mem_cons_self
    have waiting : ∀ v ∈ pending.flatMap Pending.values, σ.store.Knows v :=
      fun v hv => h.values v (List.mem_cons_of_mem _ hv)
    have opened : (σ.store.addEnvironment (some σ.current)
        (Bindings.empty.insert superName (.classRef k))).Sound := by
      refine h.store.addEnvironment _ fun name v hv => ?_
      rw [Bindings.get?_insert] at hv
      split at hv
      · cases hv
        exact known
      · cases hv
    refine finishClass opened _ _ _ (fun parent hp => ?_) waiting
    cases hp
    exact known

theorem run (h : c.Sound) (fuel : Nat) : (c.run fuel).Sound := by
  induction fuel generalizing c with
  | zero => exact h
  | succ fuel ih =>
    rw [Config.run]
    split
    · exact h
    · exact ih h.step

end Config.Sound

/-- A program may start where objects are in the store. -/
theorem Store.Sound.interpreting {σ : State} (h : σ.store.Sound) (program : List Stmt) :
    (σ.interpreting program).Sound :=
  ⟨h, by simp [State.interpreting, Config.values, Control.values, Pending.values]⟩

theorem Store.sound_initial (sink : Sink) (readings : Nat → Float) :
    (State.initial sink readings).store.Sound := by
  have nothing : Store.empty.Sound :=
    ⟨fun _ _ _ h => by simp [Store.local?, Store.empty] at h,
      fun _ _ _ h => by simp [Store.field?, Store.empty] at h,
      fun _ _ h => by simp [Store.empty] at h,
      fun _ _ h => by simp [Store.superclass?, Store.empty] at h⟩
  refine nothing.addEnvironment none fun name v hv => ?_
  rw [Bindings.get?_insert] at hv
  split at hv
  · cases hv
    trivial
  · cases hv

end Lox
