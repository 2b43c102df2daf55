import Lox.Proofs.Machine.Reachability
import Lox.Proofs.Machine.Restoration

/-!
# Valid references

In a valid configuration every reference is to an object that is in the store, and outwards
environments are older. A step keeps a configuration valid, since what it makes is in the store
then, and every session that can be reached is in a valid state.
-/
namespace Lox

open Scope (thisName superName)

/-- Every reference is to an object that is there, and outwards environments are older. -/
structure Config.Valid (c : Config) : Prop where
  references : c.Inside c.state.store.Has
  layered : c.state.store.Layered

/-- The same of a state, in which nothing waits. -/
structure State.Valid (σ : State) : Prop where
  references : σ.Inside σ.store.Has
  layered : σ.store.Layered

/-- The set of what is there stays closed while it grows. -/
theorem Store.Closed.later {σ σ' : Store} (closed : σ.Closed σ.Has) (lasts : σ.Lasts σ') :
    σ.Closed σ'.Has :=
  Store.closed_iff.mpr fun o o' link _ => lasts.has (Store.closed_iff.mp closed o o' link link.has)

namespace Config

variable {c : Config} {R R' : Object → Prop}

theorem Inside.mono (h : c.Inside R) (more : ∀ o, R o → R' o) (closed : c.state.store.Closed R') :
    c.Inside R' where
  state := ⟨closed, more _ h.state.globals, more _ h.state.current⟩
  values v hv o ho := more o (h.values v hv o ho)
  pending p hp :=
    ⟨fun v hv o ho => more o ((h.pending p hp).values v hv o ho),
      fun e he => more _ ((h.pending p hp).environments e he)⟩

theorem Valid.found (h : c.Valid) {k : ClassId} {name : String} {method : Closure}
    (found : c.state.store.findMethod k name = some method) :
    method.environment < c.state.store.environments.size := by
  obtain ⟨owner, own⟩ := Store.ownMethod_of_findMethod found
  have link := Store.Links.method own
  exact Store.closed_iff.mp h.references.state.store _ _ link link.has

theorem Valid.layered_step (h : c.Valid) : c.step.state.store.Layered := by
  have here : c.state.current < c.state.store.environments.size := h.references.state.current
  cases c.turns with
  | going follows store =>
    rw [store]
    exact h.layered
  | binding follows named offered store =>
    rw [store]
    exact h.layered.same fun e => by simp
  | setting follows offered store =>
    rw [store]
    obtain ⟨environments, _, _⟩ := Store.setField_rest c.state.store _ _ _
    exact h.layered.same fun e => by rw [Store.enclosing?, Store.enclosing?, environments]
  | block part leaves step =>
    rw [step]
    exact h.layered.addEnvironment here _
  | creation offered leaves step =>
    rw [step]
    exact h.layered.same fun _ => rfl
  | @body id closure arguments pending stored offered leaves step =>
    rw [step]
    have link := Store.Links.closure stored
    have older := Store.closed_iff.mp h.references.state.store _ _ link link.has
    exact h.layered.addEnvironment older _
  | @construction k initializer arguments pending made found offered leaves step =>
    rw [step]
    have instanced : (c.state.store.addInstance k).Layered := h.layered.same fun _ => rfl
    have bound := instanced.addEnvironment (h.found found)
      (Bindings.empty.insert thisName (.instanceRef c.state.store.nextInstance))
    refine bound.addEnvironment ?_ _
    simp [Store.bind, Store.nextEnvironment]
  | @method k name method i pending found offered leaves step =>
    rw [step]
    have bound := h.layered.addEnvironment (h.found found)
      (Bindings.empty.insert thisName (.instanceRef i))
    exact bound.same fun _ => rfl
  | function part named leaves step =>
    rw [step]
    exact h.layered.same fun e => by
      simp [State.define, Store.enclosing?_define]
      rfl
  | @baseClass name methods pending part named leaves step =>
    rw [step]
    refine h.layered.same fun e => ?_
    rw [enclosing?_finishClass, State.define, Store.enclosing?_define]
  | @derivedClass name parent methods k pending σ now step =>
    rw [step]
    subst now
    have opened := h.layered.addEnvironment here
      (Bindings.empty.insert superName (.classRef k))
    exact opened.same fun e => enclosing?_finishClass _ _ _ _ _ _ e

theorem Valid.step (h : c.Valid) : c.step.Valid where
  references := by
    have lasts := c.step_lasts
    have before : c.Inside c.step.state.store.Has :=
      h.references.mono (fun _ => lasts.has) (h.references.state.store.later lasts)
    exact before.step fun _ _ made => made
  layered := h.layered_step

theorem Valid.run (h : c.Valid) (fuel : Nat) : (c.run fuel).Valid := by
  induction fuel with
  | zero => exact h
  | succ fuel ih =>
    rw [run_succ]
    exact ih.step

theorem Valid.state (h : c.Valid) : c.state.Valid := ⟨h.references.state, h.layered⟩

end Config

namespace State

/-- Only the store and the environment in use count. -/
theorem Valid.same {σ σ' : State} (h : σ.Valid) (store : σ'.store = σ.store)
    (current : σ'.current = σ.current) : σ'.Valid where
  references := by
    rw [store]
    exact ⟨store ▸ h.references.store, h.references.globals, current ▸ h.references.current⟩
  layered := store ▸ h.layered

theorem Valid.interpreting {σ : State} (h : σ.Valid) (program : List Stmt) :
    (σ.interpreting program).Valid where
  references := by
    have waiting : (Pending.program program).Inside σ.store.Has := ⟨nofun, nofun⟩
    exact ⟨h.references, nofun, List.forall_mem_singleton.mpr waiting⟩
  layered := h.layered

theorem valid_initial (sink : Sink) (readings : Nat → Float) : (initial sink readings).Valid := by
  have outermost (e : EnvironmentId) : (initial sink readings).store.enclosing? e = none := by
    rw [initial, Store.enclosing?_addEnvironment]
    split
    · rfl
    · simp [Store.enclosing?, Store.empty]
  refine ⟨⟨Store.closed_iff.mpr fun o o' link _ => ?_, Nat.zero_lt_one, Nat.zero_lt_one⟩,
    fun e outer inside => ?_⟩
  · cases link with
    | enclosing h =>
      rw [outermost] at h
      cases h
    | bound h named =>
      rw [initial, Store.local?_addEnvironment] at h
      split at h
      · rw [Bindings.get?_insert] at h
        split at h
        · cases h
          cases named
        · cases h
      · simp [Store.local?, Store.empty] at h
    | closure h => simp [initial, Store.addEnvironment, Store.empty] at h
    | method h => simp [initial, Store.addEnvironment, Store.ownMethod?, Store.empty] at h
    | superclass h => simp [initial, Store.addEnvironment, Store.superclass?, Store.empty] at h
    | instanceClass h => simp [initial, Store.addEnvironment, Store.empty] at h
    | field h named => simp [initial, Store.addEnvironment, Store.field?, Store.empty] at h
  · rw [outermost] at inside
    cases inside

end State

/-- A session that is reached is in a valid state. -/
theorem Session.Reached.valid {programs : List (List Stmt)} {s : Session}
    (h : Session.Reached programs s) : s.state.Valid := by
  induction h with
  | initial => exact State.valid_initial _ _
  | rejected _ load ih =>
    obtain ⟨_, same | ⟨program, _, same⟩⟩ := load_error load
    · exact same ▸ ih
    · exact same ▸ ih.same rfl rfl
  | between _ _ _ ih => exact ih.same rfl rfl
  | @ended _ s s' s'' _ program fuel _ _ load finish ih =>
    obtain ⟨_, _, _, _, rfl⟩ := load_ok load
    obtain ⟨ending, he, hs⟩ := Option.map_eq_some_iff.mp finish
    obtain ⟨_, same⟩ := Config.finished_of_ending? he
    cases hs
    have recorded : (s.state.record (resolve program).occurrences).Valid := ih.same rfl rfl
    exact same ▸ ((recorded.interpreting program).run fuel).state

end Lox
