import Lox.Proofs.Framed.Code
import Lox.Proofs.Alike.Stores

/-!
# Stores with more environments

Two runs of programs that are framed alike make functions, classes and instances in the same order,
so these have the same places in both stores and values are the same. Environments do not: a block
that only one program has makes an environment to which none in the other store corresponds. Such an
environment binds nothing. All others are paired, and what is paired binds the same.
-/
namespace Lox

open Shape (Spans)
open Scope (thisName superName)

/-- Which environments of two stores correspond. -/
abbrev Pairing := EnvironmentId → EnvironmentId → Prop

/-- One pair more. -/
def Pairing.add (ρ : Pairing) (a a' : EnvironmentId) : Pairing :=
  fun e e' => ρ e e' ∨ e = a ∧ e' = a'

theorem Pairing.added (ρ : Pairing) (a a' : EnvironmentId) : ρ.add a a' a a' := .inr ⟨rfl, rfl⟩

namespace Store

/-- The environments outwards from one in each store: paired where both programs have a scope, and
beyond the shape paired up to the globals. -/
inductive Chain (σ σ' : Store) (ρ : Pairing) : EnvironmentId → EnvironmentId → Shape → Prop where
  | globals : Chain σ σ' ρ State.globals State.globals []
  | beyond {e e' o o' : EnvironmentId} (paired : ρ e e') (inside : σ.enclosing? e = some o)
      (inside' : σ'.enclosing? e' = some o') (rest : Chain σ σ' ρ o o' []) : Chain σ σ' ρ e e' []
  | both {e e' o o' : EnvironmentId} {w : Shape} (paired : ρ e e')
      (inside : σ.enclosing? e = some o) (inside' : σ'.enclosing? e' = some o')
      (rest : Chain σ σ' ρ o o' w) : Chain σ σ' ρ e e' (.both :: w)
  | left {e e' o : EnvironmentId} {w : Shape} (inside : σ.enclosing? e = some o)
      (rest : Chain σ σ' ρ o e' w) : Chain σ σ' ρ e e' (.left :: w)
  | right {e e' o' : EnvironmentId} {w : Shape} (inside' : σ'.enclosing? e' = some o')
      (rest : Chain σ σ' ρ e o' w) : Chain σ σ' ρ e e' (.right :: w)

structure EnvironmentsFramed (ρ : Pairing) (σ σ' : Store) : Prop where
  made : ∀ e e', ρ e e' → e < σ.environments.size ∧ e' < σ'.environments.size
  unique : ∀ e e' a a', ρ e e' → ρ a a' → (e = a ↔ e' = a')
  bound : ∀ e e', ρ e e' → ∀ name, σ'.local? e' name = σ.local? e name
  unpaired : ∀ e, (∀ e', ¬ρ e e') → ∀ name, σ.local? e name = none
  unpaired' : ∀ e', (∀ e, ¬ρ e e') → ∀ name, σ'.local? e' name = none
  globals : ρ State.globals State.globals
  outermost : σ.enclosing? State.globals = none
  outermost' : σ'.enclosing? State.globals = none

/-- Functions are framed alike in the shape of their environments, `inner` being scopes that are
added before a call. -/
def ClosuresFramed (K : Numbering) (ρ : Pairing) (σ σ' : Store) (inner : Shape)
    (c c' : Closure) : Prop :=
  c'.isInitializer = c.isInitializer ∧ ∃ w kind, Chain σ σ' ρ c.environment c'.environment w ∧
    K.Framed (inner ++ w) (.function kind c.decl) (.function kind c'.decl)

/-- A function that is called. An initializer finds its receiver in the environment it closes
over. -/
structure CallablesFramed (K : Numbering) (ρ : Pairing) (σ σ' : Store) (c c' : Closure) : Prop where
  closures : ClosuresFramed K ρ σ σ' [] c c'
  receiver : c.isInitializer = true → ρ c.environment c'.environment

/-- Methods will find the scope of `this`. -/
structure ClassesFramed (K : Numbering) (ρ : Pairing) (σ σ' : Store) (m m' : ClassObject) :
    Prop where
  name : m'.name = m.name
  superclass : m'.superclass = m.superclass
  methods : ∀ name, Option.Rel (ClosuresFramed K ρ σ σ' [.both]) (m.methods.get? name)
    (m'.methods.get? name)

structure ObjectsFramed (K : Numbering) (ρ : Pairing) (σ σ' : Store) : Prop where
  functionCount : σ'.functions.size = σ.functions.size
  functions : ∀ i : Nat, Option.Rel (CallablesFramed K ρ σ σ') σ.functions[i]? σ'.functions[i]?
  classCount : σ'.classes.size = σ.classes.size
  classes : ∀ i : Nat, Option.Rel (ClassesFramed K ρ σ σ') σ.classes[i]? σ'.classes[i]?
  instances : σ'.instances = σ.instances

structure Framed (K : Numbering) (ρ : Pairing) (σ σ' : Store) : Prop extends
  EnvironmentsFramed ρ σ σ', ObjectsFramed K ρ σ σ'

/-- Two stores later in a run: environments stay inside the same ones, pairs stay, and what is bound
stays bound. -/
structure Onward (σ σ' : Store) (ρ : Pairing) (τ τ' : Store) (ν : Pairing) : Prop where
  pairs : ∀ e e', ρ e e' → ν e e'
  enclosing : ∀ e < σ.environments.size, τ.enclosing? e = σ.enclosing? e
  enclosing' : ∀ e < σ'.environments.size, τ'.enclosing? e = σ'.enclosing? e
  kept : ∀ e name v, σ.local? e name = some v → ∃ w, τ.local? e name = some w

variable {K : Numbering} {ρ ν : Pairing} {σ σ' τ τ' : Store} {e e' : EnvironmentId} {w : Shape}

theorem Chain.onward (h : Chain σ σ' ρ e e' w) (onward : Onward σ σ' ρ τ τ' ν) :
    Chain τ τ' ν e e' w := by
  have kept {a o : EnvironmentId} (inside : σ.enclosing? a = some o) :
      τ.enclosing? a = some o :=
    (onward.enclosing a (lt_of_enclosing? inside)).trans inside
  have kept' {a o : EnvironmentId} (inside : σ'.enclosing? a = some o) :
      τ'.enclosing? a = some o :=
    (onward.enclosing' a (lt_of_enclosing? inside)).trans inside
  induction h with
  | globals => exact .globals
  | beyond paired inside inside' _ ih =>
    exact .beyond (onward.pairs _ _ paired) (kept inside) (kept' inside') ih
  | both paired inside inside' _ ih =>
    exact .both (onward.pairs _ _ paired) (kept inside) (kept' inside') ih
  | left inside _ ih => exact .left (kept inside) ih
  | right inside' _ ih => exact .right (kept' inside') ih

theorem ClosuresFramed.onward {inner : Shape} {c c' : Closure}
    (h : ClosuresFramed K ρ σ σ' inner c c') (onward : Onward σ σ' ρ τ τ' ν) :
    ClosuresFramed K ν τ τ' inner c c' := by
  obtain ⟨initializes, w, kind, chain, framed⟩ := h
  exact ⟨initializes, w, kind, chain.onward onward, framed⟩

theorem CallablesFramed.onward {c c' : Closure} (h : CallablesFramed K ρ σ σ' c c')
    (onward : Onward σ σ' ρ τ τ' ν) : CallablesFramed K ν τ τ' c c' :=
  ⟨h.closures.onward onward, fun initializes => onward.pairs _ _ (h.receiver initializes)⟩

theorem ClassesFramed.onward {m m' : ClassObject} (h : ClassesFramed K ρ σ σ' m m')
    (onward : Onward σ σ' ρ τ τ' ν) : ClassesFramed K ν τ τ' m m' :=
  ⟨h.name, h.superclass, fun name => rel_mono (fun _ _ hc => hc.onward onward) (h.methods name)⟩

theorem ObjectsFramed.onward (h : ObjectsFramed K ρ σ σ') (onward : Onward σ σ' ρ τ τ' ν)
    (functions : τ.functions = σ.functions) (functions' : τ'.functions = σ'.functions)
    (classes : τ.classes = σ.classes) (classes' : τ'.classes = σ'.classes)
    (instances : τ'.instances = τ.instances) : ObjectsFramed K ν τ τ' where
  functionCount := by rw [functions, functions', h.functionCount]
  functions i := by
    rw [functions, functions']
    exact rel_mono (fun _ _ hc => hc.onward onward) (h.functions i)
  classCount := by rw [classes, classes', h.classCount]
  classes i := by
    rw [classes, classes']
    exact rel_mono (fun _ _ hc => hc.onward onward) (h.classes i)
  instances := instances

theorem Onward.of_environments (ρ : Pairing) (he : τ.environments = σ.environments)
    (he' : τ'.environments = σ'.environments) : Onward σ σ' ρ τ τ' ρ := by
  refine ⟨fun _ _ h => h, fun e _ => ?_, fun e _ => ?_, fun e name v hv => ⟨v, ?_⟩⟩
  · rw [enclosing?, he, enclosing?]
  · rw [enclosing?, he', enclosing?]
  · rw [local?, he]
    exact hv

theorem EnvironmentsFramed.of_environments (h : EnvironmentsFramed ρ σ σ')
    (he : τ.environments = σ.environments) (he' : τ'.environments = σ'.environments) :
    EnvironmentsFramed ρ τ τ' := by
  have locals : τ.local? = σ.local? := by funext a name; rw [local?, he, local?]
  have locals' : τ'.local? = σ'.local? := by funext a name; rw [local?, he', local?]
  have outer : τ.enclosing? = σ.enclosing? := by funext a; rw [enclosing?, he, enclosing?]
  have outer' : τ'.enclosing? = σ'.enclosing? := by funext a; rw [enclosing?, he', enclosing?]
  exact ⟨by rw [he, he']; exact h.made, h.unique, by rw [locals, locals']; exact h.bound,
    by rw [locals]; exact h.unpaired, by rw [locals']; exact h.unpaired', h.globals,
    by rw [outer]; exact h.outermost, by rw [outer']; exact h.outermost'⟩

/-! ## Lookups -/

theorem ancestor?_within {o : EnvironmentId} (inside : σ.enclosing? e = some o) (d : Nat) :
    σ.ancestor? e (d + 1) = σ.ancestor? o d := by
  rw [ancestor?, inside]
  rfl

namespace EnvironmentsFramed

theorem here (h : EnvironmentsFramed ρ σ σ') (paired : ρ e e') :
    Option.Rel ρ (σ.ancestor? e 0) (σ'.ancestor? e' 0) := by
  obtain ⟨made, made'⟩ := h.made e e' paired
  rw [ancestor?, if_pos made, ancestor?, if_pos made']
  exact .some paired

/-- Distances that lead to the same scope lead to environments that are paired. -/
theorem ancestor (h : EnvironmentsFramed ρ σ σ') (chain : Chain σ σ' ρ e e' w) {d d' : Nat}
    (spans : Spans w d d') : Option.Rel ρ (σ.ancestor? e d) (σ'.ancestor? e' d') := by
  induction chain generalizing d d' with
  | globals =>
    cases spans
    cases d with
    | zero => exact h.here h.globals
    | succ d =>
      rw [ancestor?, h.outermost, ancestor?, h.outermost']
      exact .none
  | beyond paired inside inside' _ ih =>
    cases spans
    cases d with
    | zero => exact h.here paired
    | succ d =>
      rw [ancestor?_within inside, ancestor?_within inside']
      exact ih (.beyond d)
  | both paired inside inside' _ ih =>
    cases spans with
    | here => exact h.here paired
    | both further =>
      rw [ancestor?_within inside, ancestor?_within inside']
      exact ih further
  | left inside _ ih =>
    cases spans with
    | left further =>
      rw [ancestor?_within inside]
      exact ih further
  | right inside' _ ih =>
    cases spans with
    | right further =>
      rw [ancestor?_within inside']
      exact ih further

theorem lookupAt (h : EnvironmentsFramed ρ σ σ') (chain : Chain σ σ' ρ e e' w) {d d' : Nat}
    (spans : Spans w d d') (name : String) :
    σ'.lookupAt? e' d' name = σ.lookupAt? e d name := by
  have found := h.ancestor chain spans
  rw [lookupAt?, lookupAt?]
  generalize σ.ancestor? e d = a, σ'.ancestor? e' d' = a' at found
  cases found with
  | none => rfl
  | some paired => exact h.bound _ _ paired name

theorem owner_globals_eq (h : EnvironmentsFramed ρ σ σ') (name : String) :
    σ'.owner? State.globals name = σ.owner? State.globals name := by
  obtain ⟨made, made'⟩ := h.made _ _ h.globals
  rw [EnvironmentsAlike.owner_globals h.outermost' made',
    EnvironmentsAlike.owner_globals h.outermost made, h.bound _ _ h.globals]

theorem get_globals (h : EnvironmentsFramed ρ σ σ') (name : String) :
    (σ'.owner? State.globals name).bind (σ'.local? · name) =
      (σ.owner? State.globals name).bind (σ.local? · name) := by
  obtain ⟨made, _⟩ := h.made _ _ h.globals
  rw [h.owner_globals_eq, EnvironmentsAlike.owner_globals h.outermost made]
  split
  · exact h.bound _ _ h.globals name
  · rfl

end EnvironmentsFramed

/-- In a shape that is open the innermost environments are paired. -/
theorem Chain.paired (h : Chain σ σ' ρ e e' w) (globals : ρ State.globals State.globals)
    (opens : w.Open) : ρ e e' := by
  cases h with
  | globals => exact globals
  | beyond paired => exact paired
  | both paired => exact paired
  | left => cases opens
  | right => cases opens

theorem Chain.made (h : Chain σ σ' ρ e e' w) (made : State.globals < σ.environments.size) :
    e < σ.environments.size := by
  induction h with
  | globals => exact made
  | beyond _ inside | both _ inside | left inside => exact lt_of_enclosing? inside
  | right _ _ ih => exact ih

/-! ## Changes -/

theorem Onward.define (σ σ' : Store) (ρ : Pairing) (a a' : EnvironmentId) (name : String)
    (v : Value) : Onward σ σ' ρ (σ.define a name v) (σ'.define a' name v) ρ := by
  refine ⟨fun _ _ h => h, fun e _ => by simp, fun e _ => by simp, fun e other w hw => ?_⟩
  rw [local?_define]
  split
  · exact ⟨v, rfl⟩
  · exact ⟨w, hw⟩

/-- Binding a name in environments that are paired. -/
theorem Framed.define (h : Framed K ρ σ σ') (paired : ρ e e') (name : String) (v : Value) :
    Framed K ρ (σ.define e name v) (σ'.define e' name v) := by
  obtain ⟨here, here'⟩ := h.made e e' paired
  refine ⟨⟨fun a a' ha => by simpa using h.made a a' ha, h.unique, fun a a' ha other => ?_,
    fun a alone other => ?_, fun a' alone other => ?_, h.globals, by simp [h.outermost],
    by simp [h.outermost']⟩,
    h.toObjectsFramed.onward (.define σ σ' ρ e e' name v) (by simp) (by simp) (by simp) (by simp)
      (by simp [h.instances])⟩
  · have same := h.unique a a' e e' ha paired
    rw [local?_define, local?_define, h.bound a a' ha other]
    simp only [same, here, here', true_and]
  · have other : a ≠ e := fun he => alone e' (he ▸ paired)
    rw [local?_define, if_neg fun he => other he.1]
    exact h.unpaired a alone _
  · have other : a' ≠ e' := fun he => alone e (he ▸ paired)
    rw [local?_define, if_neg fun he => other he.1]
    exact h.unpaired' a' alone _

theorem Onward.addEnvironment (σ σ' : Store) (ρ : Pairing) (outer outer' : Option EnvironmentId)
    (bindings : Bindings Value) :
    Onward σ σ' ρ (σ.addEnvironment outer bindings) (σ'.addEnvironment outer' bindings)
      (ρ.add σ.nextEnvironment σ'.nextEnvironment) := by
  refine ⟨fun _ _ h => .inl h, fun e he => ?_, fun e he => ?_, fun e name v hv => ⟨v, ?_⟩⟩
  · rw [enclosing?_addEnvironment, if_neg (ne_nextEnvironment he)]
  · rw [enclosing?_addEnvironment, if_neg (ne_nextEnvironment he)]
  · rw [local?_addEnvironment, if_neg (ne_nextEnvironment (lt_of_local? hv))]
    exact hv

/-- Environments of both stores with the same bindings are paired from then on. -/
theorem Framed.addEnvironment (h : Framed K ρ σ σ') (outer outer' : EnvironmentId)
    (bindings : Bindings Value) :
    Framed K (ρ.add σ.nextEnvironment σ'.nextEnvironment) (σ.addEnvironment (some outer) bindings)
      (σ'.addEnvironment (some outer') bindings) := by
  have apart {a a' : EnvironmentId} (ha : ρ a a') :
      a ≠ σ.nextEnvironment ∧ a' ≠ σ'.nextEnvironment :=
    ⟨ne_nextEnvironment (h.made a a' ha).1, ne_nextEnvironment (h.made a a' ha).2⟩
  refine ⟨⟨?_, ?_, ?_, ?_, ?_, .inl h.globals, ?_, ?_⟩,
    h.toObjectsFramed.onward (.addEnvironment σ σ' ρ _ _ bindings) rfl rfl rfl rfl h.instances⟩
  · rintro a a' (ha | ⟨rfl, rfl⟩)
    · simp only [size_addEnvironment]
      exact ⟨Nat.lt_succ_of_lt (h.made a a' ha).1, Nat.lt_succ_of_lt (h.made a a' ha).2⟩
    · simp only [size_addEnvironment]
      exact ⟨Nat.lt_succ_self _, Nat.lt_succ_self _⟩
  · rintro a a' b b' (ha | ⟨rfl, rfl⟩) (hb | ⟨rfl, rfl⟩)
    · exact h.unique a a' b b' ha hb
    · exact iff_of_false (apart ha).1 (apart ha).2
    · exact iff_of_false (apart hb).1.symm (apart hb).2.symm
    · exact iff_of_true rfl rfl
  · rintro a a' (ha | ⟨rfl, rfl⟩) name
    · rw [local?_addEnvironment, local?_addEnvironment, if_neg (apart ha).1, if_neg (apart ha).2]
      exact h.bound a a' ha name
    · rw [local?_addEnvironment, local?_addEnvironment, if_pos rfl, if_pos rfl]
  · intro a alone name
    have other : a ≠ σ.nextEnvironment := fun he => alone _ (.inr ⟨he, rfl⟩)
    rw [local?_addEnvironment, if_neg other]
    exact h.unpaired a (fun e' ha => alone e' (.inl ha)) name
  · intro a' alone name
    have other : a' ≠ σ'.nextEnvironment := fun he => alone _ (.inr ⟨rfl, he⟩)
    rw [local?_addEnvironment, if_neg other]
    exact h.unpaired' a' (fun e ha => alone e (.inl ha)) name
  · rw [enclosing?_addEnvironment, if_neg (apart h.globals).1]
    exact h.outermost
  · rw [enclosing?_addEnvironment, if_neg (apart h.globals).2]
    exact h.outermost'

theorem Onward.addLeft (σ σ' : Store) (ρ : Pairing) (outer : Option EnvironmentId) :
    Onward σ σ' ρ (σ.addEnvironment outer .empty) σ' ρ := by
  refine ⟨fun _ _ h => h, fun e he => ?_, fun _ _ => rfl, fun e name v hv => ⟨v, ?_⟩⟩
  · rw [enclosing?_addEnvironment, if_neg (ne_nextEnvironment he)]
  · rw [local?_addEnvironment, if_neg (ne_nextEnvironment (lt_of_local? hv))]
    exact hv

theorem Onward.addRight (σ σ' : Store) (ρ : Pairing) (outer' : Option EnvironmentId) :
    Onward σ σ' ρ σ (σ'.addEnvironment outer' .empty) ρ := by
  refine ⟨fun _ _ h => h, fun _ _ => rfl, fun e he => ?_, fun e name v hv => ⟨v, hv⟩⟩
  rw [enclosing?_addEnvironment, if_neg (ne_nextEnvironment he)]

/-- The environment of a block that only the first program has. -/
theorem Framed.addLeft (h : Framed K ρ σ σ') (outer : EnvironmentId) :
    Framed K ρ (σ.addEnvironment (some outer) .empty) σ' := by
  have apart {a a' : EnvironmentId} (ha : ρ a a') : a ≠ σ.nextEnvironment :=
    ne_nextEnvironment (h.made a a' ha).1
  refine ⟨⟨fun a a' ha => ?_, h.unique, fun a a' ha name => ?_, fun a alone name => ?_, h.unpaired',
    h.globals, ?_, h.outermost'⟩,
    h.toObjectsFramed.onward (.addLeft σ σ' ρ _) rfl rfl rfl rfl h.instances⟩
  · rw [size_addEnvironment]
    exact ⟨Nat.lt_succ_of_lt (h.made a a' ha).1, (h.made a a' ha).2⟩
  · rw [local?_addEnvironment, if_neg (apart ha)]
    exact h.bound a a' ha name
  · rw [local?_addEnvironment]
    split
    · exact Bindings.get?_empty name
    · exact h.unpaired a alone name
  · rw [enclosing?_addEnvironment, if_neg (apart h.globals)]
    exact h.outermost

/-- The environment of a block that only the second program has. -/
theorem Framed.addRight (h : Framed K ρ σ σ') (outer' : EnvironmentId) :
    Framed K ρ σ (σ'.addEnvironment (some outer') .empty) := by
  have apart {a a' : EnvironmentId} (ha : ρ a a') : a' ≠ σ'.nextEnvironment :=
    ne_nextEnvironment (h.made a a' ha).2
  refine ⟨⟨fun a a' ha => ?_, h.unique, fun a a' ha name => ?_, h.unpaired, fun a' alone name => ?_,
    h.globals, h.outermost, ?_⟩,
    h.toObjectsFramed.onward (.addRight σ σ' ρ _) rfl rfl rfl rfl h.instances⟩
  · rw [size_addEnvironment]
    exact ⟨(h.made a a' ha).1, Nat.lt_succ_of_lt (h.made a a' ha).2⟩
  · rw [local?_addEnvironment, if_neg (apart ha)]
    exact h.bound a a' ha name
  · rw [local?_addEnvironment]
    split
    · exact Bindings.get?_empty name
    · exact h.unpaired' a' alone name
  · rw [enclosing?_addEnvironment, if_neg (apart h.globals)]
    exact h.outermost'

/-- The environments from new ones outwards. -/
theorem Chain.enter (h : Chain σ σ' ρ e e' w) (bindings : Bindings Value) :
    Chain (σ.addEnvironment (some e) bindings) (σ'.addEnvironment (some e') bindings)
      (ρ.add σ.nextEnvironment σ'.nextEnvironment) σ.nextEnvironment σ'.nextEnvironment
      (.both :: w) :=
  .both (ρ.added _ _) (by rw [enclosing?_addEnvironment, if_pos rfl])
    (by rw [enclosing?_addEnvironment, if_pos rfl]) (h.onward (.addEnvironment σ σ' ρ _ _ bindings))

theorem Chain.enterLeft (h : Chain σ σ' ρ e e' w) :
    Chain (σ.addEnvironment (some e) .empty) σ' ρ σ.nextEnvironment e' (.left :: w) :=
  .left (by rw [enclosing?_addEnvironment, if_pos rfl]) (h.onward (.addLeft σ σ' ρ _))

theorem Chain.enterRight (h : Chain σ σ' ρ e e' w) :
    Chain σ (σ'.addEnvironment (some e') .empty) ρ e σ'.nextEnvironment (.right :: w) :=
  .right (by rw [enclosing?_addEnvironment, if_pos rfl]) (h.onward (.addRight σ σ' ρ _))

theorem Chain.leaveRight {outer' : EnvironmentId} (h : Chain σ σ' ρ e e' (.right :: w))
    (inside' : σ'.enclosing? e' = some outer') : Chain σ σ' ρ e outer' w := by
  cases h with
  | right inside'' rest =>
    obtain rfl := Option.some.inj (inside'.symm.trans inside'')
    exact rest

theorem Framed.addFunction (h : Framed K ρ σ σ') {c c' : Closure}
    (framed : CallablesFramed K ρ σ σ' c c') :
    Framed K ρ (σ.addFunction c) (σ'.addFunction c') := by
  have onward : Onward σ σ' ρ (σ.addFunction c) (σ'.addFunction c') ρ :=
    .of_environments ρ rfl rfl
  have before (i : Nat) := rel_mono (fun _ _ hc => hc.onward onward) (h.functions i)
  refine ⟨h.toEnvironmentsFramed.of_environments rfl rfl, ?_,
    rel_push h.functionCount before (framed.onward onward), h.classCount,
    fun i => rel_mono (fun _ _ hc => hc.onward onward) (h.classes i), h.instances⟩
  simp [Store.addFunction, h.functionCount]

theorem Framed.addClass (h : Framed K ρ σ σ') {m m' : ClassObject}
    (framed : ClassesFramed K ρ σ σ' m m') : Framed K ρ (σ.addClass m) (σ'.addClass m') := by
  have onward : Onward σ σ' ρ (σ.addClass m) (σ'.addClass m') ρ := .of_environments ρ rfl rfl
  have before (i : Nat) := rel_mono (fun _ _ hc => hc.onward onward) (h.classes i)
  refine ⟨h.toEnvironmentsFramed.of_environments rfl rfl, h.functionCount,
    fun i => rel_mono (fun _ _ hc => hc.onward onward) (h.functions i), ?_,
    rel_push h.classCount before (framed.onward onward), h.instances⟩
  simp [Store.addClass, h.classCount]

/-- A change of the instances only, the same in both stores. -/
theorem Framed.of_instances (h : Framed K ρ σ σ') (he : τ.environments = σ.environments)
    (he' : τ'.environments = σ'.environments) (hf : τ.functions = σ.functions)
    (hf' : τ'.functions = σ'.functions) (hc : τ.classes = σ.classes)
    (hc' : τ'.classes = σ'.classes) (hi : τ'.instances = τ.instances) : Framed K ρ τ τ' :=
  ⟨h.toEnvironmentsFramed.of_environments he he',
    h.toObjectsFramed.onward (.of_environments ρ he he') hf hf' hc hc' hi⟩

theorem Framed.addInstance (h : Framed K ρ σ σ') (c : ClassId) :
    Framed K ρ (σ.addInstance c) (σ'.addInstance c) :=
  h.of_instances rfl rfl rfl rfl rfl rfl (by simp [Store.addInstance, h.instances])

theorem Framed.setField (h : Framed K ρ σ σ') (i : InstanceId) (name : String) (v : Value) :
    Framed K ρ (σ.setField i name v) (σ'.setField i name v) := by
  unfold Store.setField
  rw [h.instances]
  split
  · exact h.of_instances rfl rfl rfl rfl rfl rfl rfl
  · exact h

/-! ## Objects -/

theorem ClosuresFramed.same {inner : Shape} {c c' : Closure}
    (h : ClosuresFramed K ρ σ σ' inner c c') :
    c'.decl.name = c.decl.name ∧ c'.decl.params = c.decl.params := by
  obtain ⟨_, w, kind, _, framed⟩ := h
  exact framed.function_same

namespace ObjectsFramed

theorem findMethod (h : ObjectsFramed K ρ σ σ') (c : ClassId) (name : String) :
    Option.Rel (ClosuresFramed K ρ σ σ' [.both]) (σ.findMethod c name)
      (σ'.findMethod c name) := by
  induction c using Nat.strongRecOn with
  | ind c ih =>
    rw [Store.findMethod, Store.findMethod]
    have hc := h.classes c
    generalize σ.classes[c]? = m, σ'.classes[c]? = m' at hc
    cases hc with
    | none => exact .none
    | @some m m' framed =>
      have hm := framed.methods name
      simp only [framed.superclass]
      generalize m.methods.get? name = found, m'.methods.get? name = found' at hm
      cases hm with
      | some same => exact .some same
      | none =>
        cases m.superclass with
        | none => exact .none
        | some parent =>
          simp only
          split
          · next hlt => exact ih parent hlt
          · exact .none

/-- Values take as many arguments in both runs. -/
theorem arity (h : ObjectsFramed K ρ σ σ') (v : Value) : σ'.arity? v = σ.arity? v := by
  cases v with
  | functionRef i =>
    exact map_of_rel (fun _ _ hc => congrArg List.length hc.closures.same.2) (h.functions i)
  | classRef c =>
    have count := map_of_rel (f := fun c => c.decl.params.length)
      (fun _ _ hc => congrArg List.length hc.same.2) (h.findMethod c initializerName)
    simp only [arity?, count]
  | _ => rfl

theorem className (h : ObjectsFramed K ρ σ σ') (c : ClassId) :
    σ'.className c = σ.className c := by
  have named := map_of_rel (fun _ _ hm => hm.name) (h.classes c)
  simp only [Store.className, named]

theorem display (h : ObjectsFramed K ρ σ σ') (v : Value) : σ'.display v = σ.display v := by
  cases v with
  | functionRef i =>
    have named := map_of_rel (f := fun c => c.decl.name.lexeme)
      (fun _ _ hc => congrArg Token.lexeme hc.closures.same.1) (h.functions i)
    simp only [Store.display, named]
  | classRef c => simp only [Store.display, h.className]
  | instanceRef i => simp only [Store.display, h.instances, h.className]
  | bool b => cases b <;> rfl
  | _ => rfl

theorem field (h : ObjectsFramed K ρ σ σ') (i : InstanceId) (name : String) :
    σ'.field? i name = σ.field? i name := by
  rw [field?, field?, h.instances]

end ObjectsFramed

/-! ## Methods on a receiver -/

/-- A method bound to a receiver finds the scope of `this`. -/
theorem Framed.bind (h : Framed K ρ σ σ') {c c' : Closure}
    (framed : ClosuresFramed K ρ σ σ' [.both] c c') (receiver : InstanceId) :
    ∃ ν, Onward σ σ' ρ (σ.bind c receiver).2 (σ'.bind c' receiver).2 ν ∧
      Framed K ν (σ.bind c receiver).2 (σ'.bind c' receiver).2 ∧
      CallablesFramed K ν (σ.bind c receiver).2 (σ'.bind c' receiver).2 (σ.bind c receiver).1
        (σ'.bind c' receiver).1 := by
  obtain ⟨initializes, w, kind, chain, body⟩ := framed
  let bound := Bindings.empty.insert thisName (Value.instanceRef receiver)
  exact ⟨ρ.add σ.nextEnvironment σ'.nextEnvironment, .addEnvironment σ σ' ρ _ _ bound,
    h.addEnvironment c.environment c'.environment bound,
    ⟨initializes, .both :: w, kind, chain.enter bound, body⟩, fun _ => ρ.added _ _⟩

theorem Framed.boundMethod (h : Framed K ρ σ σ') {c c' : Closure}
    (framed : ClosuresFramed K ρ σ σ' [.both] c c') (receiver : InstanceId) :
    (σ'.boundMethod c' receiver).1 = (σ.boundMethod c receiver).1 ∧
      ∃ ν, Onward σ σ' ρ (σ.boundMethod c receiver).2 (σ'.boundMethod c' receiver).2 ν ∧
        Framed K ν (σ.boundMethod c receiver).2 (σ'.boundMethod c' receiver).2 := by
  obtain ⟨ν, onward, bound, callables⟩ := h.bind framed receiver
  refine ⟨?_, ν, ?_, bound.addFunction callables⟩
  · exact congrArg Value.functionRef h.functionCount
  · exact ⟨onward.pairs, onward.enclosing, onward.enclosing', onward.kept⟩

end Store

end Lox
