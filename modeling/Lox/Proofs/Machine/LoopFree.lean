import Lox.Proofs.Machine.Validity
import Lox.Proofs.Scope.LoopFree

/-!
# Runs without loops

If what is at hand is free of loops, and so is every function and method that can be reached, then
a step leaves it so: the code that it takes up is below code at hand, or is the body of a function or
method that is reached.
-/
namespace Lox

open Scope (Part)

/-- The functions in the set and the methods of its classes are free of loops. -/
structure Store.LoopFree (R : Object → Prop) (σ : Store) : Prop where
  functions : ∀ (f : FunctionId) c, σ.functions[f]? = some c → R (.function f) →
    c.decl.loopFree = true
  methods : ∀ k name c, σ.ownMethod? k name = some c → R (.classObject k) → c.decl.loopFree = true

variable {R : Object → Prop}

namespace Store.LoopFree

variable {σ σ' : Store}

theorem same (h : σ.LoopFree R) (functions : σ'.functions = σ.functions)
    (classes : σ'.classes = σ.classes) : σ'.LoopFree R where
  functions f c hf := h.functions f c (functions ▸ hf)
  methods k name c hm := h.methods k name c (by rwa [ownMethod?, classes] at hm)

theorem define (h : σ.LoopFree R) (e : EnvironmentId) (name : String) (v : Value) :
    (σ.define e name v).LoopFree R :=
  h.same (functions_define σ e name v) (classes_define σ e name v)

theorem addFunction (h : σ.LoopFree R) {c : Closure} (free : c.decl.loopFree = true) :
    (σ.addFunction c).LoopFree R := by
  refine ⟨fun f other hf reached => ?_, h.methods⟩
  rw [Store.addFunction, Array.getElem?_push] at hf
  split at hf
  · cases hf
    exact free
  · exact h.functions f other hf reached

theorem addClass (h : σ.LoopFree R) {made : ClassObject}
    (free : ∀ name c, made.methods.get? name = some c → c.decl.loopFree = true) :
    (σ.addClass made).LoopFree R := by
  refine ⟨h.functions, fun k name c hm reached => ?_⟩
  obtain ⟨other, hk, own⟩ := Option.bind_eq_some_iff.mp hm
  rw [Store.addClass, Array.getElem?_push] at hk
  split at hk
  · cases hk
    exact free name c own
  · exact h.methods k name c (by rw [ownMethod?, hk]; exact own) reached

theorem findMethod (h : σ.LoopFree R) (closed : σ.Closed R) {k : ClassId}
    (reached : R (.classObject k)) {name : String} {method : Closure}
    (found : σ.findMethod k name = some method) : method.decl.loopFree = true := by
  obtain ⟨owner, inside, own⟩ := closed.owned_of_findMethod reached found
  exact h.methods owner name method own inside

/-- The class that is declared has the methods of the declaration. -/
theorem finishClass {σ : State} (h : σ.store.LoopFree R) (name : Token) (parent : Option ClassId)
    {methods : List FunctionDecl} (free : FunctionDecl.allLoopFree methods = true)
    (environment : EnvironmentId) (pending : List Pending) :
    (finishClass name parent methods environment pending σ).state.store.LoopFree R := by
  have made : (σ.store.addClass (declaredClass name parent methods environment)).LoopFree R := by
    refine h.addClass fun other c hc => ?_
    obtain ⟨decl, hd, rfl⟩ := methodTable_mem hc
    exact FunctionDecl.loopFree_of_mem free hd
  obtain ⟨control, store, same, _, _, added⟩ :=
    finishClass_adds name parent methods environment pending σ
  rw [same]
  rcases added with rfl | ⟨owner, rfl⟩
  · exact made
  · exact made.define _ _ _

end Store.LoopFree

namespace Config

/-- All that is at hand is in the set, and what of it is code is free of loops. -/
structure LoopFree (R : Object → Prop) (c : Config) : Prop where
  inside : c.Inside R
  parts : ∀ x ∈ c.parts, x.2.loopFree = true
  store : c.state.store.LoopFree R

variable {c : Config} {pending : List Pending}

theorem Inside.held (h : c.Inside R) {v : Value} (hv : v ∈ c.values) : v.Inside R := by
  rcases List.mem_append.mp hv with hv | hv
  · exact h.values v hv
  · obtain ⟨p, hp, hv⟩ := List.mem_flatMap.mp hv
    exact (h.pending p hp).values v hv

theorem Consults.inside {k : ClassId} (h : c.Consults k) (inside : c.Inside R) :
    R (.classObject k) := by
  cases h with
  | called h => exact inside.held h _ rfl
  | receiver h stored made => exact made ▸ inside.state.store.instances _ _ stored (inside.held h _ rfl)
  | above h => exact (inside.state.superParts h).1

namespace LoopFree

theorem nextParts (h : c.LoopFree R) : ∀ x ∈ c.nextParts, x.2.loopFree = true := by
  intro x hx
  obtain ⟨y, hy, near⟩ := List.mem_flatMap.mp hx
  obtain ⟨p, hp, rfl⟩ := List.mem_map.mp near
  have here := h.parts y hy
  rcases List.mem_cons.mp hp with rfl | hp
  · exact here
  · obtain ⟨below, hb, rfl⟩ := List.mem_map.mp (List.mem_filter.mp hp).1
    exact Part.loopFree_child here .top hb

theorem waiting (h : c.LoopFree R) (leaves : c.Leaves pending) :
    ∀ x ∈ waitingParts c.state.current pending, x.2.loopFree = true :=
  fun x hx => h.nextParts x (leaves.parts x hx)

/-- A declared class leaves what waits. -/
theorem parts_finishClass {σ : State} (name : Token) (parent : Option ClassId)
    (methods : List FunctionDecl) (environment : EnvironmentId)
    (waiting : ∀ x ∈ waitingParts σ.current pending, x.2.loopFree = true) :
    ∀ x ∈ (finishClass name parent methods environment pending σ).parts, x.2.loopFree = true := by
  obtain ⟨control, store, same, quiet, _, _⟩ :=
    finishClass_adds name parent methods environment pending σ
  rw [same, Config.parts, quiet]
  exact waiting

/-- The code at hand after a step, and what the store holds then. -/
theorem step_code (h : c.LoopFree R) :
    (∀ x ∈ c.step.parts, x.2.loopFree = true) ∧ c.step.state.store.LoopFree R := by
  have closed := h.inside.state.store
  cases c.turns with
  | going follows store =>
    exact ⟨fun x hx => h.nextParts x (follows.parts x hx), store ▸ h.store⟩
  | binding follows named offered store =>
    rw [store]
    exact ⟨fun x hx => h.nextParts x (follows.parts x hx), h.store.define _ _ _⟩
  | setting follows offered store =>
    obtain ⟨_, functions, classes⟩ := Store.setField_rest c.state.store _ _ _
    rw [store]
    exact ⟨fun x hx => h.nextParts x (follows.parts x hx), h.store.same functions classes⟩
  | @block body pending part leaves step =>
    have free : Stmt.allLoopFree body = true := h.parts _ part
    rw [step]
    exact ⟨List.forall_mem_cons.mpr ⟨free, h.waiting leaves⟩, h.store.same rfl rfl⟩
  | creation offered leaves step =>
    rw [step]
    exact ⟨h.waiting leaves, h.store.same rfl rfl⟩
  | @body id closure arguments pending stored offered leaves step called =>
    have free := h.store.functions id closure stored (h.inside.held called _ rfl)
    rw [step]
    exact ⟨List.forall_mem_cons.mpr ⟨FunctionDecl.loopFree_body free, h.waiting leaves⟩,
      h.store.same rfl rfl⟩
  | @construction k initializer arguments pending made found offered leaves step consulted =>
    have free := h.store.findMethod closed (consulted.inside h.inside) found
    have rest := h.waiting leaves
    rw [step]
    exact ⟨List.forall_mem_cons.mpr ⟨FunctionDecl.loopFree_body free, rest⟩,
      h.store.same rfl rfl⟩
  | @method k name method i pending found offered leaves step consulted =>
    have free := h.store.findMethod closed (consulted.inside h.inside) found
    have bound : (c.state.store.bind method i).2.LoopFree R := h.store.same rfl rfl
    rw [step]
    exact ⟨h.waiting leaves, bound.addFunction free⟩
  | @function decl pending part named leaves step =>
    have free : decl.loopFree = true := h.parts _ part
    rw [step]
    exact ⟨h.waiting leaves, (h.store.addFunction free).define _ _ _⟩
  | @baseClass name methods pending part named leaves step =>
    have defined : (c.state.define name.lexeme .nil).store.LoopFree R := h.store.define _ _ _
    rw [step]
    exact ⟨parts_finishClass _ _ _ _ (h.waiting leaves), defined.finishClass _ _ (h.parts _ part) _ _⟩
  | @derivedClass name parent methods k pending σ now step =>
    subst now
    obtain ⟨free, rest⟩ := List.forall_mem_cons.mp h.parts
    have opened : (σ.store.addEnvironment (some σ.current)
        (Bindings.empty.insert Scope.superName (.classRef k))).LoopFree R := h.store.same rfl rfl
    rw [step]
    exact ⟨parts_finishClass _ _ _ _ rest, opened.finishClass (σ := { σ with store := _ }) _ _ free _ _⟩

theorem step (h : c.LoopFree R) (supplied : c.state.store.Supplies R c.step.state.store) :
    c.step.LoopFree R :=
  ⟨h.inside.step supplied, h.step_code.1, h.step_code.2⟩

/-- So a run is free of loops in a set that holds all that is not there at its start. -/
theorem run (h : c.LoopFree R) (new : ∀ o, ¬ c.state.store.Has o → R o) (n : Nat) :
    (c.run n).LoopFree R := by
  induction n with
  | zero => exact h
  | succ n ih =>
    rw [run_succ]
    exact ih.step fun o missing _ => new o fun was => missing ((c.run_lasts (Nat.zero_le n)).has was)

end LoopFree

end Config

/-! ## The start of a program -/

/-- The functions and methods that can be reached are free of loops. -/
structure State.LoopFree (σ : State) : Prop where
  functions : ∀ (f : FunctionId) c, σ.store.functions[f]? = some c → σ.Reaches (.function f) →
    c.decl.loopFree = true
  methods : ∀ k name c, σ.store.ownMethod? k name = some c → σ.Reaches (.classObject k) →
    c.decl.loopFree = true

/-- What can be reached at the start, or is not there then. -/
def State.Later (σ : State) (o : Object) : Prop := σ.Reaches o ∨ ¬ σ.store.Has o

theorem State.closed_later (σ : State) : σ.store.Closed σ.Later :=
  σ.closed_reaches fun _ missing => missing

theorem State.LoopFree.interpreting {σ : State} (h : σ.LoopFree) {program : List Stmt}
    (free : Stmt.allLoopFree program = true) : (σ.interpreting program).LoopFree σ.Later where
  inside :=
    { state := ⟨σ.closed_later, .inl (.inr .refl), .inl (.inl .refl)⟩
      values := nofun
      pending := List.forall_mem_singleton.mpr ⟨nofun, nofun⟩ }
  parts := List.forall_mem_singleton.mpr free
  store :=
    { functions := fun f c hf reached => h.functions f c hf (reached.resolve_right fun missing =>
        missing (Array.getElem?_eq_some_iff.mp hf).1)
      methods := fun k name c hm reached => h.methods k name c hm (reached.resolve_right fun missing =>
        missing (Store.lt_of_ownMethod? hm)) }

theorem State.LoopFree.run {σ : State} (h : σ.LoopFree) {program : List Stmt}
    (free : Stmt.allLoopFree program = true) (n : Nat) :
    ((σ.interpreting program).run n).LoopFree σ.Later :=
  (h.interpreting free).run (fun _ => .inr) n

end Lox
