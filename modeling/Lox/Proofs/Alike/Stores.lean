import Lox.Proofs.Alike.Code
import Lox.Proofs.Machine.Environments
import Mathlib.Data.List.Forall2

/-!
# Stores that are alike

Two runs make environments and objects in the same order, so what corresponds has the same place
in both stores. Every environment has a spelling: a name of the first store is bound in the second
one as it is spelled there, to the same value. The global environment spells every name as it is.
-/
namespace Lox

open Scope (Part thisName superName)

/-- How the names of each environment are spelled. -/
abbrev Spellings := EnvironmentId → Spelling

namespace Store

/-- The environments from one outwards have these spellings, and then there is the global one. -/
inductive Spells (σ : Store) (μ : Spellings) : EnvironmentId → List Spelling → Prop where
  | globals : Spells σ μ State.globals []
  | frame {e outer : EnvironmentId} {fs : List Spelling} (inside : σ.enclosing? e = some outer)
      (rest : Spells σ μ outer fs) : Spells σ μ e (μ e :: fs)

structure EnvironmentsAlike (L : Link) (μ : Spellings) (σ σ' : Store) : Prop where
  size : σ'.environments.size = σ.environments.size
  enclosing : ∀ e, σ'.enclosing? e = σ.enclosing? e
  bound : ∀ e name, L.names name → σ'.local? e (μ e name) = σ.local? e name
  spellings : ∀ e, L.spellings (μ e)
  plain : μ State.globals = id
  outermost : σ.enclosing? State.globals = none
  made : State.globals < σ.environments.size

/-- Functions are alike in the scopes of their environment, `inner` being scopes that are added
before a call. -/
def ClosuresAlike (L : Link) (μ : Spellings) (σ : Store) (inner : List Spelling)
    (c c' : Closure) : Prop :=
  c'.environment = c.environment ∧ c'.isInitializer = c.isInitializer ∧
    ∃ fs kind, σ.Spells μ c.environment fs ∧
      L.Alike (inner ++ fs) (.function kind c.decl) (.function kind c'.decl)

/-- Methods will find the scope of `this`. -/
structure ClassesAlike (L : Link) (μ : Spellings) (σ : Store) (m m' : ClassObject) : Prop where
  name : m'.name = m.name
  superclass : m'.superclass = m.superclass
  methods : ∀ name,
    Option.Rel (ClosuresAlike L μ σ [id]) (m.methods.get? name) (m'.methods.get? name)

structure ObjectsAlike (L : Link) (μ : Spellings) (σ σ' : Store) : Prop where
  functionCount : σ'.functions.size = σ.functions.size
  functions : ∀ i : Nat, Option.Rel (ClosuresAlike L μ σ []) σ.functions[i]? σ'.functions[i]?
  classCount : σ'.classes.size = σ.classes.size
  classes : ∀ i : Nat, Option.Rel (ClassesAlike L μ σ) σ.classes[i]? σ'.classes[i]?
  instances : σ'.instances = σ.instances

structure Alike (L : Link) (μ : Spellings) (σ σ' : Store) : Prop extends
  EnvironmentsAlike L μ σ σ', ObjectsAlike L μ σ σ'

/-- A store and its spellings later in a run: environments stay inside the same ones, with the
same spelling, and what is bound stays bound. -/
structure Later (σ : Store) (μ : Spellings) (τ : Store) (ν : Spellings) : Prop where
  enclosing : ∀ e, e < σ.environments.size → τ.enclosing? e = σ.enclosing? e
  spelled : ∀ e, e < σ.environments.size → ν e = μ e
  kept : ∀ e name v, σ.local? e name = some v → ∃ w, τ.local? e name = some w

variable {L : Link} {μ ν : Spellings} {σ σ' τ τ' : Store} {e : EnvironmentId} {fs : List Spelling}

theorem Spells.later (h : σ.Spells μ e fs) (later : Later σ μ τ ν) : τ.Spells ν e fs := by
  induction h with
  | globals => exact .globals
  | @frame e outer fs inside rest ih =>
    have he := lt_of_enclosing? inside
    rw [← later.spelled e he]
    exact .frame ((later.enclosing e he).trans inside) ih

theorem ClosuresAlike.later {inner : List Spelling} {c c' : Closure}
    (h : ClosuresAlike L μ σ inner c c') (later : Later σ μ τ ν) :
    ClosuresAlike L ν τ inner c c' := by
  obtain ⟨he, hi, fs, kind, spells, alike⟩ := h
  exact ⟨he, hi, fs, kind, spells.later later, alike⟩

theorem rel_mono {α : Type} {R S : α → α → Prop} (h : ∀ a b, R a b → S a b) {a b : Option α}
    (hr : Option.Rel R a b) : Option.Rel S a b := by
  cases hr with
  | none => exact .none
  | some hr => exact .some (h _ _ hr)

theorem ClassesAlike.later {m m' : ClassObject} (h : ClassesAlike L μ σ m m')
    (later : Later σ μ τ ν) : ClassesAlike L ν τ m m' :=
  ⟨h.name, h.superclass, fun name => rel_mono (fun _ _ hc => hc.later later) (h.methods name)⟩

theorem ObjectsAlike.later (h : ObjectsAlike L μ σ σ') (later : Later σ μ τ ν)
    (functions : τ.functions = σ.functions) (functions' : τ'.functions = σ'.functions)
    (classes : τ.classes = σ.classes) (classes' : τ'.classes = σ'.classes)
    (instances : τ'.instances = τ.instances) : ObjectsAlike L ν τ τ' where
  functionCount := by rw [functions, functions', h.functionCount]
  functions i := by
    rw [functions, functions']
    exact rel_mono (fun _ _ hc => hc.later later) (h.functions i)
  classCount := by rw [classes, classes', h.classCount]
  classes i := by
    rw [classes, classes']
    exact rel_mono (fun _ _ hc => hc.later later) (h.classes i)
  instances := instances

theorem Later.of_environments (h : τ.environments = σ.environments) : Later σ μ τ μ := by
  refine ⟨fun e _ => ?_, fun _ _ => rfl, fun e name v hv => ⟨v, ?_⟩⟩
  · rw [enclosing?, h, enclosing?]
  · rw [local?, h]
    exact hv

theorem EnvironmentsAlike.of_environments (h : EnvironmentsAlike L μ σ σ')
    (he : τ.environments = σ.environments) (he' : τ'.environments = σ'.environments) :
    EnvironmentsAlike L μ τ τ' := by
  have locals : τ.local? = σ.local? := by funext a name; rw [local?, he, local?]
  have locals' : τ'.local? = σ'.local? := by funext a name; rw [local?, he', local?]
  have outer : τ.enclosing? = σ.enclosing? := by funext a; rw [enclosing?, he, enclosing?]
  have outer' : τ'.enclosing? = σ'.enclosing? := by funext a; rw [enclosing?, he', enclosing?]
  exact ⟨by rw [he, he', h.size], by rw [outer, outer']; exact h.enclosing,
    by rw [locals, locals']; exact h.bound, h.spellings, h.plain, by rw [outer]; exact h.outermost,
    by rw [he]; exact h.made⟩

/-! ## Links that say less -/

section
variable {M : Link}

theorem ClosuresAlike.mono {inner : List Spelling} {c c' : Closure}
    (h : ClosuresAlike L μ σ inner c c') (below : L.Below M) : ClosuresAlike M μ σ inner c c' := by
  obtain ⟨he, hi, fs, kind, spells, alike⟩ := h
  exact ⟨he, hi, fs, kind, spells, alike.mono below⟩

theorem ClassesAlike.mono {m m' : ClassObject} (h : ClassesAlike L μ σ m m')
    (below : L.Below M) : ClassesAlike M μ σ m m' :=
  ⟨h.name, h.superclass, fun name => rel_mono (fun _ _ hc => hc.mono below) (h.methods name)⟩

theorem Alike.mono (h : Alike L μ σ σ') (below : L.Below M)
    (names : ∀ name, M.names name → L.names name) : Alike M μ σ σ' where
  size := h.size
  enclosing := h.enclosing
  bound e name hn := h.bound e name (names name hn)
  spellings e := below.spellings _ (h.spellings e)
  plain := h.plain
  outermost := h.outermost
  made := h.made
  functionCount := h.functionCount
  functions i := rel_mono (fun _ _ hc => hc.mono below) (h.functions i)
  classCount := h.classCount
  classes i := rel_mono (fun _ _ hm => hm.mono below) (h.classes i)
  instances := h.instances

end

/-! ## Lookups -/

theorem Spells.lt_size (h : σ.Spells μ e fs) (made : State.globals < σ.environments.size) :
    e < σ.environments.size := by
  cases h with
  | globals => exact made
  | frame inside => exact lt_of_enclosing? inside

/-- Only the global environment is outside all scopes. -/
theorem Spells.global (h : σ.Spells μ e fs) (outside : fs = []) : e = State.globals := by
  cases h with
  | globals => rfl
  | frame => cases outside

/-- The spellings from an environment outwards are all allowed. -/
theorem Spells.allowed (h : EnvironmentsAlike L μ σ σ') (spells : σ.Spells μ e fs) (d : Option Nat) :
    L.spellings (spellingAt fs d) := by
  have all : ∀ f ∈ fs, L.spellings f := by
    induction spells with
    | globals => exact nofun
    | frame _ _ ih => exact List.forall_mem_cons.mpr ⟨h.spellings _, ih⟩
  exact Link.spellings_spellingAt all d

/-- The innermost of the spellings is that of the environment in use. -/
theorem Spells.here (h : EnvironmentsAlike L μ σ σ') (spells : σ.Spells μ e fs) :
    μ e = spellingHere fs := by
  cases spells with
  | globals => exact h.plain
  | frame => rfl

namespace EnvironmentsAlike

theorem ancestor (h : EnvironmentsAlike L μ σ σ') (e : EnvironmentId) (d : Nat) :
    σ'.ancestor? e d = σ.ancestor? e d := by
  induction d generalizing e with
  | zero => rw [ancestor?, ancestor?, h.size]
  | succ d ih =>
    rw [ancestor?, ancestor?, h.enclosing]
    cases σ.enclosing? e with
    | none => rfl
    | some outer => exact ih outer

/-- The environment at a distance has the spelling of the scope there. -/
theorem spelling_of_ancestor (h : EnvironmentsAlike L μ σ σ') (spells : σ.Spells μ e fs) {d : Nat}
    {a : EnvironmentId} (ha : σ.ancestor? e d = some a) : μ a = spellingAt fs (some d) := by
  induction spells generalizing d with
  | globals =>
    cases d with
    | zero =>
      rw [ancestor?] at ha
      split at ha
      · cases ha
        exact h.plain
      · cases ha
    | succ d =>
      rw [ancestor?, h.outermost] at ha
      cases ha
  | @frame e outer fs inside rest ih =>
    cases d with
    | zero =>
      rw [ancestor?] at ha
      split at ha
      · cases ha
        rfl
      · cases ha
    | succ d =>
      rw [ancestor?, inside] at ha
      exact ih ha

/-- A name that is spelled as in the scope at a distance has the same value there. -/
theorem lookupAt (h : EnvironmentsAlike L μ σ σ') (spells : σ.Spells μ e fs) (d : Nat)
    {name : String} (hn : L.names name) :
    σ'.lookupAt? e d (spellingAt fs (some d) name) = σ.lookupAt? e d name := by
  rw [lookupAt?, lookupAt?, h.ancestor]
  cases ha : σ.ancestor? e d with
  | none => rfl
  | some a =>
    rw [← h.spelling_of_ancestor spells ha]
    exact h.bound a name hn

/-- Nothing is outside the global environment. -/
theorem owner_globals {σ : Store} (outermost : σ.enclosing? State.globals = none)
    (made : State.globals < σ.environments.size) (name : String) :
    σ.owner? State.globals name =
      if (σ.local? State.globals name).isSome then some State.globals else none := by
  rw [enclosing?, Array.getElem?_eq_getElem made] at outermost
  have last : σ.environments[State.globals].enclosing = none := outermost
  rw [owner?, Array.getElem?_eq_getElem made, local?_of_lt made]
  simp only [Bindings.contains, last]

theorem bound_globals (h : EnvironmentsAlike L μ σ σ') {name : String} (hn : L.names name) :
    σ'.local? State.globals name = σ.local? State.globals name := by
  have hb := h.bound State.globals name hn
  rw [h.plain] at hb
  exact hb

theorem owner_globals_eq (h : EnvironmentsAlike L μ σ σ') {name : String} (hn : L.names name) :
    σ'.owner? State.globals name = σ.owner? State.globals name := by
  have outermost := (h.enclosing State.globals).trans h.outermost
  have made : State.globals < σ'.environments.size := by
    rw [h.size]
    exact h.made
  rw [owner_globals outermost made, owner_globals h.outermost h.made, h.bound_globals hn]

theorem get_globals (h : EnvironmentsAlike L μ σ σ') {name : String} (hn : L.names name) :
    (σ'.owner? State.globals name).bind (σ'.local? · name) =
      (σ.owner? State.globals name).bind (σ.local? · name) := by
  rw [h.owner_globals_eq hn, owner_globals h.outermost h.made]
  split
  · exact h.bound_globals hn
  · rfl

end EnvironmentsAlike

/-- What the innermost environment binds is found there. -/
theorem owner_of_bound {σ : Store} {e : EnvironmentId} {name : String} {v : Value}
    (h : σ.local? e name = some v) : σ.owner? e name = some e := by
  have he := lt_of_local? h
  rw [local?_of_lt he] at h
  rw [owner?, Array.getElem?_eq_getElem he]
  simp only [Bindings.contains, h, Option.isSome_some, if_true]

/-! ## Changes -/

theorem Later.define (σ : Store) (μ : Spellings) (e : EnvironmentId) (name : String) (v : Value) :
    Later σ μ (σ.define e name v) μ := by
  refine ⟨fun a _ => by simp, fun _ _ => rfl, fun a other w hw => ?_⟩
  rw [local?_define]
  split
  · exact ⟨v, rfl⟩
  · exact ⟨w, hw⟩

/-- Binding a name in both stores, as it is spelled in each. -/
theorem Alike.define (h : Alike L μ σ σ') (e : EnvironmentId) {name name' : String}
    (hn : L.names name) (spelled : name' = μ e name) (v : Value) :
    Alike L μ (σ.define e name v) (σ'.define e name' v) := by
  refine ⟨⟨by simp [h.size], fun a => by simp [h.enclosing], fun a other ho => ?_, h.spellings,
    h.plain, by simp [h.outermost], by simp [h.made]⟩,
    h.toObjectsAlike.later (.define σ μ e name v) (by simp) (by simp) (by simp) (by simp)
      (by simp [h.instances])⟩
  rw [local?_define, local?_define, h.size, h.bound a other ho, spelled]
  by_cases ha : a = e
  · subst ha
    have same : μ a other = μ a name ↔ other = name :=
      ⟨L.apart _ _ _ _ (h.spellings a) (h.spellings a) ho hn, fun he => by rw [he]⟩
    simp only [same]
  · simp only [ha, false_and]

theorem Later.addEnvironment (σ : Store) (μ : Spellings) (enclosing : Option EnvironmentId)
    (bindings : Bindings Value) (f : Spelling) :
    Later σ μ (σ.addEnvironment enclosing bindings) (Function.update μ σ.nextEnvironment f) := by
  refine ⟨fun e he => ?_, fun e he => ?_, fun e name v hv => ⟨v, ?_⟩⟩
  · rw [enclosing?_addEnvironment, if_neg (ne_nextEnvironment he)]
  · exact Function.update_of_ne (ne_nextEnvironment he) f μ
  · rw [local?_addEnvironment, if_neg (ne_nextEnvironment (lt_of_local? hv))]
    exact hv

/-- Bindings of the same values, each name as it is spelled. -/
def BindingsAlike (L : Link) (f : Spelling) (b b' : Bindings Value) : Prop :=
  ∀ name, L.names name → b'.get? (f name) = b.get? name

theorem BindingsAlike.refl (L : Link) (b : Bindings Value) : BindingsAlike L id b b :=
  fun _ _ => rfl

theorem BindingsAlike.empty (L : Link) (f : Spelling) : BindingsAlike L f .empty .empty :=
  fun _ _ => rfl

theorem Alike.addEnvironment (h : Alike L μ σ σ') (enclosing : EnvironmentId) {f : Spelling}
    (spelling : L.spellings f) {b b' : Bindings Value} (alike : BindingsAlike L f b b') :
    Alike L (Function.update μ σ.nextEnvironment f) (σ.addEnvironment (some enclosing) b)
      (σ'.addEnvironment (some enclosing) b') := by
  have next : σ'.nextEnvironment = σ.nextEnvironment := h.size
  have outer : State.globals ≠ σ.nextEnvironment := ne_nextEnvironment h.made
  refine ⟨⟨by simp [h.size], fun e => ?_, fun e name hn => ?_, fun e => ?_, ?_, ?_, ?_⟩,
    h.toObjectsAlike.later (.addEnvironment σ μ _ _ f) rfl rfl rfl rfl h.instances⟩
  · rw [enclosing?_addEnvironment, enclosing?_addEnvironment, next, h.enclosing]
  · rw [local?_addEnvironment, local?_addEnvironment, next]
    by_cases he : e = σ.nextEnvironment
    · subst he
      rw [if_pos rfl, if_pos rfl, Function.update_self]
      exact alike name hn
    · rw [if_neg he, if_neg he, Function.update_of_ne he]
      exact h.bound e name hn
  · by_cases he : e = σ.nextEnvironment
    · subst he
      rw [Function.update_self]
      exact spelling
    · rw [Function.update_of_ne he]
      exact h.spellings e
  · rw [Function.update_of_ne outer]
    exact h.plain
  · rw [enclosing?_addEnvironment, if_neg outer]
    exact h.outermost
  · rw [size_addEnvironment]
    exact Nat.lt_succ_of_lt h.made

/-- The spellings from a new environment outwards. -/
theorem Spells.enter (h : σ.Spells μ e fs) (f : Spelling) (bindings : Bindings Value) :
    (σ.addEnvironment (some e) bindings).Spells (Function.update μ σ.nextEnvironment f)
      σ.nextEnvironment (f :: fs) := by
  have inside : (σ.addEnvironment (some e) bindings).enclosing? σ.nextEnvironment = some e := by
    rw [enclosing?_addEnvironment, if_pos rfl]
  have frame := Spells.frame inside (h.later (.addEnvironment σ μ (some e) bindings f))
  rw [Function.update_self] at frame
  exact frame

theorem rel_push {α : Type} {R : α → α → Prop} {as bs : Array α} (count : bs.size = as.size)
    (h : ∀ i : Nat, Option.Rel R as[i]? bs[i]?) {a b : α} (hr : R a b) (i : Nat) :
    Option.Rel R (as.push a)[i]? (bs.push b)[i]? := by
  rw [Array.getElem?_push, Array.getElem?_push, count]
  split
  · exact .some hr
  · exact h i

theorem Alike.addFunction (h : Alike L μ σ σ') {c c' : Closure}
    (alike : ClosuresAlike L μ σ [] c c') :
    Alike L μ (σ.addFunction c) (σ'.addFunction c') := by
  have later : Later σ μ (σ.addFunction c) μ := .of_environments rfl
  have before (i : Nat) := rel_mono (fun _ _ hc => hc.later later) (h.functions i)
  refine ⟨h.toEnvironmentsAlike.of_environments rfl rfl, ?_,
    rel_push h.functionCount before (alike.later later), h.classCount,
    fun i => rel_mono (fun _ _ hc => hc.later later) (h.classes i), h.instances⟩
  simp [Store.addFunction, h.functionCount]

theorem Alike.addClass (h : Alike L μ σ σ') {m m' : ClassObject} (alike : ClassesAlike L μ σ m m') :
    Alike L μ (σ.addClass m) (σ'.addClass m') := by
  have later : Later σ μ (σ.addClass m) μ := .of_environments rfl
  have before (i : Nat) := rel_mono (fun _ _ hc => hc.later later) (h.classes i)
  refine ⟨h.toEnvironmentsAlike.of_environments rfl rfl, h.functionCount,
    fun i => rel_mono (fun _ _ hc => hc.later later) (h.functions i), ?_,
    rel_push h.classCount before (alike.later later), h.instances⟩
  simp [Store.addClass, h.classCount]

/-- A change of the instances only, the same in both stores. -/
theorem Alike.of_instances (h : Alike L μ σ σ') (he : τ.environments = σ.environments)
    (he' : τ'.environments = σ'.environments) (hf : τ.functions = σ.functions)
    (hf' : τ'.functions = σ'.functions) (hc : τ.classes = σ.classes)
    (hc' : τ'.classes = σ'.classes) (hi : τ'.instances = τ.instances) : Alike L μ τ τ' :=
  ⟨h.toEnvironmentsAlike.of_environments he he',
    h.toObjectsAlike.later (.of_environments he) hf hf' hc hc' hi⟩

theorem Alike.addInstance (h : Alike L μ σ σ') (c : ClassId) :
    Alike L μ (σ.addInstance c) (σ'.addInstance c) :=
  h.of_instances rfl rfl rfl rfl rfl rfl (by simp [Store.addInstance, h.instances])

theorem Alike.setField (h : Alike L μ σ σ') (i : InstanceId) (name : String) (v : Value) :
    Alike L μ (σ.setField i name v) (σ'.setField i name v) := by
  unfold Store.setField
  rw [h.instances]
  split
  · exact h.of_instances rfl rfl rfl rfl rfl rfl rfl
  · exact h

/-! ## Objects -/

theorem map_of_rel {α β : Type} {R : α → α → Prop} {f : α → β} (hf : ∀ a b, R a b → f b = f a)
    {a b : Option α} (h : Option.Rel R a b) : b.map f = a.map f := by
  cases h with
  | none => rfl
  | some hr => exact congrArg some (hf _ _ hr)

theorem ClosuresAlike.same {inner : List Spelling} {c c' : Closure}
    (h : ClosuresAlike L μ σ inner c c') :
    c'.decl.name.lexeme = c.decl.name.lexeme ∧
      c'.decl.params.length = c.decl.params.length := by
  obtain ⟨_, _, fs, kind, _, alike⟩ := h
  exact alike.function_same

namespace ObjectsAlike

theorem findMethod (h : ObjectsAlike L μ σ σ') (c : ClassId) (name : String) :
    Option.Rel (ClosuresAlike L μ σ [id]) (σ.findMethod c name) (σ'.findMethod c name) := by
  induction c using Nat.strongRecOn with
  | ind c ih =>
    rw [Store.findMethod, Store.findMethod]
    have hc := h.classes c
    generalize σ.classes[c]? = m, σ'.classes[c]? = m' at hc
    cases hc with
    | none => exact .none
    | @some m m' alike =>
      have hm := alike.methods name
      simp only [alike.superclass]
      generalize m.methods.get? name = found, m'.methods.get? name = found' at hm
      cases hm with
      | some same => exact .some same
      | none =>
        cases m.superclass with
        | none => exact .none
        | some parent =>
          simp only
          split
          · next hlt => exact ih parent hlt
          · exact .none

/-- Values take as many arguments in both runs. -/
theorem arity (h : ObjectsAlike L μ σ σ') (v : Value) : σ'.arity? v = σ.arity? v := by
  cases v with
  | functionRef i => exact map_of_rel (fun _ _ hc => hc.same.2) (h.functions i)
  | classRef c =>
    have count := map_of_rel (f := fun c => c.decl.params.length) (fun _ _ hc => hc.same.2)
      (h.findMethod c initializerName)
    simp only [arity?, count]
  | _ => rfl

theorem className (h : ObjectsAlike L μ σ σ') (c : ClassId) :
    σ'.className c = σ.className c := by
  have named := map_of_rel (fun _ _ hm => hm.name) (h.classes c)
  simp only [Store.className, named]

theorem display (h : ObjectsAlike L μ σ σ') (v : Value) : σ'.display v = σ.display v := by
  cases v with
  | functionRef i =>
    have named := map_of_rel (f := fun c => c.decl.name.lexeme) (fun _ _ hc => hc.same.1)
      (h.functions i)
    simp only [Store.display, named]
  | classRef c => simp only [Store.display, h.className]
  | instanceRef i => simp only [Store.display, h.instances, h.className]
  | bool b => cases b <;> rfl
  | _ => rfl

theorem field (h : ObjectsAlike L μ σ σ') (i : InstanceId) (name : String) :
    σ'.field? i name = σ.field? i name := by
  rw [field?, field?, h.instances]

end ObjectsAlike

/-! ## Methods on a receiver -/

/-- A method bound to a receiver finds the scope of `this`. -/
theorem Alike.bind (h : Alike L μ σ σ') {c c' : Closure} (alike : ClosuresAlike L μ σ [id] c c')
    (receiver : InstanceId) :
    ∃ ν, Later σ μ (σ.bind c receiver).2 ν ∧
      Alike L ν (σ.bind c receiver).2 (σ'.bind c' receiver).2 ∧
      ClosuresAlike L ν (σ.bind c receiver).2 [] (σ.bind c receiver).1 (σ'.bind c' receiver).1 := by
  obtain ⟨he, hi, fs, kind, spells, body⟩ := alike
  let bound := Bindings.empty.insert thisName (Value.instanceRef receiver)
  have added := h.addEnvironment c.environment L.plain (.refl L bound)
  refine ⟨Function.update μ σ.nextEnvironment id, .addEnvironment σ μ _ _ id, ?_, ?_⟩
  · simp only [Store.bind, he]
    exact added
  · exact ⟨h.size, hi, id :: fs, kind, spells.enter id bound, body⟩

theorem Alike.boundMethod (h : Alike L μ σ σ') {c c' : Closure}
    (alike : ClosuresAlike L μ σ [id] c c') (receiver : InstanceId) :
    (σ'.boundMethod c' receiver).1 = (σ.boundMethod c receiver).1 ∧
      ∃ ν, Later σ μ (σ.boundMethod c receiver).2 ν ∧
        Alike L ν (σ.boundMethod c receiver).2 (σ'.boundMethod c' receiver).2 := by
  obtain ⟨ν, later, bound, closures⟩ := h.bind alike receiver
  refine ⟨?_, ν, ?_, bound.addFunction closures⟩
  · exact congrArg Value.functionRef h.functionCount
  · exact ⟨later.enclosing, later.spelled, later.kept⟩

/-- At the start every name is spelled as it is. -/
theorem alike_initial (L : Link) (sink : Sink) (readings : Nat → Float) :
    Alike L (fun _ => id) (State.initial sink readings).store (State.initial sink readings).store := by
  have none_alike {α : Type} {R : α → α → Prop} (i : Nat) :
      Option.Rel R (#[] : Array α)[i]? (#[] : Array α)[i]? := by
    rw [Array.getElem?_empty]
    exact .none
  have environments : EnvironmentsAlike L (fun _ => id) (State.initial sink readings).store
      (State.initial sink readings).store :=
    ⟨rfl, fun _ => rfl, fun _ _ _ => rfl, fun _ => L.plain, rfl, rfl, Nat.zero_lt_one⟩
  exact ⟨environments, rfl, none_alike, rfl, none_alike, rfl⟩

end Store

end Lox
