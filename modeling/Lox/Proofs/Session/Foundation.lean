import Lox.Proofs.Machine.Validity
import Lox.Proofs.Session.Identities

/-!
# The foundation of the store

A store is full of circles: a function is bound in the environment that it closes over, and objects
hold each other. References of two kinds are never part of one, that of an environment to the one
around it and that of a class to its superclass, for both lead to what was there before. Places are
given out in order and for good, so what was there before has a smaller place. All that is made
lasts, whatever the later steps of a session are.
-/
namespace Lox

namespace Store

/-- The chain of environments outwards comes to the globals and ends there. -/
def LeadsToGlobals (σ : Store) (e : EnvironmentId) : Prop :=
  ∃ distance, σ.ancestor? e distance = some State.globals ∧ σ.ancestor? e (distance + 1) = none

/-- Environments lead outwards to older ones and at last to the globals, those of closures that are
kept among them. Classes lead upwards to older ones, so looking a method up ends, with the nearest
definition or where there is none. -/
structure Founded (σ : Store) : Prop where
  older : ∀ e outer, σ.enclosing? e = some outer → outer < e
  acyclic : ∀ e distance, σ.ancestor? e (distance + 1) ≠ some e
  rooted : ∀ e < σ.environments.size, σ.LeadsToGlobals e
  closures : ∀ c, σ.Holds c → σ.LeadsToGlobals c.environment
  superclass : ∀ k parent, σ.superclass? k = some parent → parent < k
  upwards : ∀ k, ∃ height, σ.classAbove? k height = none
  methods : ∀ k name, (∃ method, σ.findMethod k name = some method ∧
    σ.NearestMethod k name method) ∨ σ.findMethod k name = none ∧ σ.LacksMethod k name

/-- All that is there lasts, names stay bound and instances stay of their class. What is new among
the environments is within another one. -/
structure Endures (σ σ' : Store) : Prop extends Lasts σ σ' where
  names : ∀ e name v, σ.local? e name = some v → ∃ v', σ'.local? e name = some v'
  instanceClasses : ∀ (i : InstanceId) object, σ.instances[i]? = some object →
    ∃ object', σ'.instances[i]? = some object' ∧ object'.classId = object.classId
  within : ∀ e, σ.environments.size ≤ e → e < σ'.environments.size →
    ∃ outer, σ'.enclosing? e = some outer

/-- Every environment but the globals is within another one. -/
structure Rooted (σ : Store) : Prop where
  outermost : σ.enclosing? State.globals = none
  within : ∀ e < σ.environments.size, e ≠ State.globals → ∃ outer, σ.enclosing? e = some outer

variable {σ σ' σ'' : Store}

/-! ## Chains -/

/-- Going outwards leads to an older environment. -/
theorem Layered.ancestor_lt (layered : σ.Layered) {e a : EnvironmentId} {distance : Nat}
    (h : σ.ancestor? e (distance + 1) = some a) : a < e := by
  induction distance generalizing e with
  | zero =>
    obtain ⟨outer, inside, h⟩ := Option.bind_eq_some_iff.mp h
    rw [ancestor?] at h
    split at h
    · cases h
      exact layered e a inside
    · cases h
  | succ distance ih =>
    obtain ⟨outer, inside, h⟩ := Option.bind_eq_some_iff.mp h
    exact Nat.lt_trans (ih h) (layered e outer inside)

theorem Rooted.leadsToGlobals (rooted : σ.Rooted) (layered : σ.Layered) {e : EnvironmentId}
    (made : e < σ.environments.size) : σ.LeadsToGlobals e := by
  induction e using Nat.strongRecOn with
  | ind e ih =>
    by_cases outermost : e = State.globals
    · subst outermost
      exact ⟨0, if_pos made, by rw [ancestor?, rooted.outermost]; rfl⟩
    · obtain ⟨outer, inside⟩ := rooted.within e made outermost
      have older := layered e outer inside
      obtain ⟨distance, last, reached⟩ := ih outer older (Nat.lt_trans older made)
      exact ⟨distance + 1, by rw [ancestor?, inside]; exact last,
        by rw [ancestor?, inside]; exact reached⟩

/-- There are no more classes above one than places below it. -/
theorem Ordered.classAbove?_none (ordered : σ.Ordered) {k : ClassId} {height : Nat}
    (high : k < height) : σ.classAbove? k height = none := by
  induction k using Nat.strongRecOn generalizing height with
  | ind k ih =>
    cases height with
    | zero => exact absurd high (Nat.not_lt_zero _)
    | succ height =>
      rw [classAbove?]
      cases above : σ.superclass? k with
      | none => rfl
      | some parent =>
        have older := ordered k parent above
        exact ih parent older (Nat.lt_of_lt_of_le older (Nat.le_of_lt_succ high))

/-! ## What lasts -/

namespace Endures

theorem of_environments (lasts : σ.Lasts σ') (same : σ'.environments = σ.environments)
    (instanceClasses : ∀ (i : InstanceId) object, σ.instances[i]? = some object →
      ∃ object', σ'.instances[i]? = some object' ∧ object'.classId = object.classId) :
    σ.Endures σ' where
  toLasts := lasts
  names e name v hv := ⟨v, by rwa [local?, same]⟩
  instanceClasses := instanceClasses
  within e old new := absurd new (by rw [same]; exact Nat.not_lt_of_le old)

theorem of_instances (lasts : σ.Lasts σ') (same : σ'.instances = σ.instances)
    (names : ∀ e name v, σ.local? e name = some v → ∃ v', σ'.local? e name = some v')
    (within : ∀ e, σ.environments.size ≤ e → e < σ'.environments.size →
      ∃ outer, σ'.enclosing? e = some outer) : σ.Endures σ' where
  toLasts := lasts
  names := names
  instanceClasses i object hi := ⟨object, by rwa [same], rfl⟩
  within := within

theorem refl (σ : Store) : σ.Endures σ :=
  .of_environments (.refl σ) rfl fun _ object hi => ⟨object, hi, rfl⟩

theorem trans (h : σ.Endures σ') (h' : σ'.Endures σ'') : σ.Endures σ'' where
  toLasts := h.toLasts.trans h'.toLasts
  names e name v hv := by
    obtain ⟨v', hv'⟩ := h.names e name v hv
    exact h'.names e name v' hv'
  instanceClasses i object hi := by
    obtain ⟨object', hi', same⟩ := h.instanceClasses i object hi
    obtain ⟨object'', hi'', same'⟩ := h'.instanceClasses i object' hi'
    exact ⟨object'', hi'', same'.trans same⟩
  within e old new := by
    by_cases between : e < σ'.environments.size
    · obtain ⟨outer, inside⟩ := h.within e old between
      exact ⟨outer, h'.toLasts.enclosed inside⟩
    · exact h'.within e (Nat.le_of_not_lt between) new

theorem define (σ : Store) (e : EnvironmentId) (name : String) (v : Value) :
    σ.Endures (σ.define e name v) := by
  refine of_instances (.define σ e name v) (by simp) (fun a other w hw => ?_) fun a old new => ?_
  · rw [local?_define]
    split
    · exact ⟨v, rfl⟩
    · exact ⟨w, hw⟩
  · rw [size_define] at new
    exact absurd new (Nat.not_lt_of_le old)

theorem addEnvironment (σ : Store) (outer : EnvironmentId) (bindings : Bindings Value) :
    σ.Endures (σ.addEnvironment (some outer) bindings) := by
  refine of_instances (.addEnvironment σ _ bindings) rfl (fun e name v hv => ?_) fun e old new => ?_
  · rw [local?_addEnvironment, if_neg (ne_nextEnvironment (lt_of_local? hv))]
    exact ⟨v, hv⟩
  · rw [size_addEnvironment] at new
    have last : e = σ.nextEnvironment := Nat.le_antisymm (Nat.le_of_lt_succ new) old
    rw [enclosing?_addEnvironment, if_pos last]
    exact ⟨outer, rfl⟩

theorem addInstance (σ : Store) (k : ClassId) : σ.Endures (σ.addInstance k) := by
  refine of_environments (.addInstance σ k) rfl fun i object hi => ⟨object, ?_, rfl⟩
  obtain ⟨old, _⟩ := Array.getElem?_eq_some_iff.mp hi
  rw [Store.addInstance, Array.getElem?_push, if_neg (Nat.ne_of_lt old)]
  exact hi

theorem setField (σ : Store) (i : InstanceId) (name : String) (v : Value) :
    σ.Endures (σ.setField i name v) := by
  obtain ⟨environments, _, _⟩ := setField_rest σ i name v
  refine of_environments (.setField σ i name v) environments fun j object hj => ?_
  have same := classId_setField σ i j name v
  rw [hj] at same
  exact Option.map_eq_some_iff.mp same

end Endures

theorem Steady.endures : Steady Endures where
  refl := .refl
  trans := .trans
  define := .define
  setField := .setField
  addEnvironment := .addEnvironment
  addFunction σ c := .of_environments (.addFunction σ c) rfl fun _ object hi => ⟨object, hi, rfl⟩
  addClass σ made := .of_environments (.addClass σ made) rfl fun _ object hi => ⟨object, hi, rfl⟩
  addInstance := .addInstance

/-- What is made within another environment does not become a second outermost one. -/
theorem Rooted.endures (rooted : σ.Rooted) (made : State.globals < σ.environments.size)
    (endures : σ.Endures σ') : σ'.Rooted where
  outermost := (endures.enclosing _ made).trans rooted.outermost
  within e new other := by
    by_cases old : e < σ.environments.size
    · rw [endures.enclosing e old]
      exact rooted.within e old other
    · exact endures.within e (Nat.le_of_not_lt old) new

theorem rooted_initial (sink : Sink) (readings : Nat → Float) :
    (State.initial sink readings).store.Rooted where
  outermost := rfl
  within _ made other := absurd (Nat.lt_one_iff.mp made) other

end Store

/-! ## Every moment of a session -/

/-- A configuration with valid and sound references, in which the globals are outermost. -/
structure Config.Founded (c : Config) : Prop where
  valid : c.Valid
  sound : c.Sound
  rooted : c.state.store.Rooted

namespace Config.Founded

variable {c : Config}

theorem step (h : c.Founded) : c.step.Founded where
  valid := h.valid.step
  sound := h.sound.step
  rooted := h.rooted.endures h.valid.references.state.globals (c.step_steady .endures)

/-- What is executed next finds the store and the environment in use as they were left. -/
theorem next (h : c.Founded) {σ : State} (store : σ.store = c.state.store)
    (current : σ.current = c.state.current) :
    (∀ program, (σ.interpreting program).Founded) ∧ σ.idle.Founded := by
  have valid : σ.Valid := h.valid.state.same store current
  have sound : σ.store.Sound := store ▸ h.sound.store
  have rooted : σ.store.Rooted := store ▸ h.rooted
  refine ⟨fun program => ⟨valid.interpreting program, sound.interpreting program, rooted⟩,
    ⟨⟨⟨valid.references, List.forall_mem_nil _, List.forall_mem_nil _⟩, valid.layered⟩,
      ⟨sound, List.forall_mem_nil _⟩, rooted⟩⟩

/-- The chains of all environments end with the globals, and those of classes end. -/
theorem store (h : c.Founded) : c.state.store.Founded where
  older := h.valid.layered
  acyclic e distance around := Nat.lt_irrefl e (h.valid.layered.ancestor_lt around)
  rooted e made := h.rooted.leadsToGlobals h.valid.layered made
  closures closure held := by
    have closed := Store.closed_iff.mp h.valid.references.state.store
    have made : c.state.store.Has (.environment closure.environment) := by
      rcases held with ⟨f, hf⟩ | ⟨k, made, name, hk, hm⟩
      · have link := Store.Links.closure hf
        exact closed _ _ link link.has
      · have own : c.state.store.ownMethod? k name = some closure := by
          rw [Store.ownMethod?, hk]
          exact hm
        have link := Store.Links.method own
        exact closed _ _ link link.has
    exact h.rooted.leadsToGlobals h.valid.layered made
  superclass := h.sound.store.ordered
  upwards k := ⟨k + 1, h.sound.store.ordered.classAbove?_none (Nat.lt_succ_self k)⟩
  methods := Store.findMethod_spec h.sound.store.ordered

end Config.Founded

namespace Session.Moment

variable {m : Moment}

theorem founded_start (sink : Sink) (readings : Nat → Float) :
    (start sink readings).config.Founded := by
  have valid := State.valid_initial sink readings
  exact ⟨⟨⟨valid.references, List.forall_mem_nil _, List.forall_mem_nil _⟩, valid.layered⟩,
    ⟨Store.sound_initial sink readings, List.forall_mem_nil _⟩, Store.rooted_initial sink readings⟩

theorem read_same (m : Moment) (source : String) :
    (m.session.load source).1.state.store = m.config.state.store ∧
      (m.session.load source).1.state.current = m.config.state.current := by
  rcases load_state m.session source with same | recorded
  · rw [same]
    exact ⟨rfl, rfl⟩
  · rw [recorded]
    exact ⟨rfl, rfl⟩

theorem store_read (m : Moment) (source : String) :
    (m.read source).config.state.store = m.config.state.store := by
  obtain ⟨store, _⟩ := m.read_same source
  simp only [read]
  split
  · next load => rw [load] at store; exact store
  · next load => rw [load] at store; exact store

theorem founded_move (h : m.config.Founded) (move : Move) : (m.move move).config.Founded := by
  cases move with
  | step => exact h.step
  | source text =>
    rw [Moment.move]
    split
    · obtain ⟨store, current⟩ := m.read_same text
      obtain ⟨interpreting, idle⟩ := h.next store current
      simp only [read]
      split
      · next program load => rw [load] at interpreting; exact interpreting program
      · next load => rw [load] at idle; exact idle
    · exact h
  | between sink clock =>
    rw [Moment.move]
    split
    · exact (h.next (σ := { m.config.state with sink, clock }) rfl rfl).2
    · exact h

theorem founded_after (h : m.config.Founded) (moves : List Move) :
    (m.after moves).config.Founded := by
  induction moves generalizing m with
  | nil => exact h
  | cons first moves ih => exact ih (founded_move h first)

theorem endures_move (m : Moment) (move : Move) :
    m.config.state.store.Endures (m.move move).config.state.store := by
  cases move with
  | step => exact m.config.step_steady .endures
  | source text =>
    rw [Moment.move]
    split
    · rw [store_read]
      exact .refl _
    · exact .refl _
  | between sink clock =>
    rw [Moment.move]
    split <;> exact .refl _

theorem endures_after (m : Moment) (moves : List Move) :
    m.config.state.store.Endures (m.after moves).config.state.store := by
  induction moves generalizing m with
  | nil => exact .refl _
  | cons first moves ih => exact (m.endures_move first).trans (ih (m.move first))

end Session.Moment

/-- At every moment of every session the store is founded, and the environment in use and those that
a block or a call goes back to lead to the globals, as do those of the closures that are called. From
then on all that is in the store endures, however the runs end. -/
theorem Session.store_founded (sink : Sink) (readings : Nat → Float) (moves : List Session.Move) :
    let m := (Session.Moment.start sink readings).after moves
    let σ := m.config.state
    σ.store.Founded ∧ σ.store.LeadsToGlobals σ.current ∧
      (∀ p ∈ m.config.pending, ∀ e ∈ p.environments, σ.store.LeadsToGlobals e) ∧
        ∀ later, σ.store.Endures (m.after later).config.state.store := by
  intro m σ
  have founded : m.config.Founded :=
    Session.Moment.founded_after (Session.Moment.founded_start sink readings) moves
  have inside := founded.valid.references
  have leads {e : EnvironmentId} (made : e < σ.store.environments.size) :
      σ.store.LeadsToGlobals e :=
    founded.rooted.leadsToGlobals founded.valid.layered made
  exact ⟨founded.store, leads inside.state.current,
    fun p hp e he => leads ((inside.pending p hp).environments e he), m.endures_after⟩

end Lox
