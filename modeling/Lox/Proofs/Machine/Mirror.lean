import Lox.Machine.Step
import Lox.Proofs.Machine.Environments
import Lox.Proofs.Scope.Contexts

/-!
# Environments that mirror scopes

`Mirrors σ e scopes` follows the environments from `e` outwards: there is one for each scope, then
the global one, and each binds the names that its scope has as defined. What `this` is bound to
is an instance and what `super` is bound to a class. An environment may bind more than its scope
has, for a closure sees its scope as it was when the closure was written. For the environment in
use the scope has every name that is bound.
-/
namespace Lox

open Scope (Scopes thisName superName)

/-- What a name may be bound to. -/
def Value.Fits (name : String) (v : Value) : Prop :=
  (name = thisName → ∃ i, v = .instanceRef i) ∧ (name = superName → ∃ c, v = .classRef c)

namespace Store

/-- An environment binds the names that a scope has as defined. -/
def Binds (σ : Store) (e : EnvironmentId) (scope : Bindings Bool) : Prop :=
  ∀ name, scope.get? name = some true → ∃ v, σ.local? e name = some v ∧ v.Fits name

inductive Mirrors (σ : Store) : EnvironmentId → Scopes → Prop where
  | globals (made : State.globals < σ.environments.size) : Mirrors σ State.globals []
  | frame {e outer : EnvironmentId} {scope : Bindings Bool} {scopes : Scopes}
      (inside : σ.enclosing? e = some outer) (older : outer < e) (binds : σ.Binds e scope)
      (rest : Mirrors σ outer scopes) : Mirrors σ e (scope :: scopes)

/-- The innermost scope has every name that the environment binds. -/
def Exact (σ : Store) (e : EnvironmentId) : Scopes → Prop
  | [] => True
  | scope :: _ => ∀ name v, σ.local? e name = some v → scope.get? name = some true

structure Active (σ : Store) (e : EnvironmentId) (scopes : Scopes) : Prop where
  mirrors : σ.Mirrors e scopes
  exact : σ.Exact e scopes

variable {σ σ' σ'' : Store} {e a : EnvironmentId} {scope : Bindings Bool} {scopes : Scopes}

theorem Mirrors.lt_size (h : σ.Mirrors e scopes) : e < σ.environments.size := by
  cases h with
  | globals made => exact made
  | frame inside => exact lt_of_enclosing? inside

/-- The environment so many links outwards binds the names of the scope there. -/
theorem Mirrors.ancestor {d : Nat} (h : σ.Mirrors e scopes) (hd : scopes[d]? = some scope) :
    ∃ a, σ.ancestor? e d = some a ∧ σ.Binds a scope := by
  induction h generalizing d with
  | globals => cases hd
  | @frame e outer scope' scopes inside older binds rest ih =>
    cases d with
    | zero =>
      cases hd
      exact ⟨e, if_pos (lt_of_enclosing? inside), binds⟩
    | succ d =>
      obtain ⟨a, ha, hb⟩ := ih hd
      exact ⟨a, by rw [ancestor?, inside]; exact ha, hb⟩

/-- A name that a scope has as defined is found exactly there. -/
theorem Mirrors.lookup {d : Nat} {name : String} (h : σ.Mirrors e scopes)
    (hd : scopes[d]? = some scope) (hn : scope.get? name = some true) :
    ∃ v, σ.lookupAt? e d name = some v ∧ v.Fits name := by
  obtain ⟨a, ha, hb⟩ := h.ancestor hd
  obtain ⟨v, hv, fits⟩ := hb name hn
  exact ⟨v, by rw [lookupAt?, ha]; exact hv, fits⟩

/-! ## Growth -/

/-- Environments stay and what they bind stays bound, `this` and `super` to the same value. -/
structure Grows (σ σ' : Store) : Prop where
  size : σ.environments.size ≤ σ'.environments.size
  enclosing : ∀ a, a < σ.environments.size → σ'.enclosing? a = σ.enclosing? a
  kept : ∀ a name v, σ.local? a name = some v →
    ∃ v', σ'.local? a name = some v' ∧ (name = thisName ∨ name = superName → v' = v)

/-- Growth where only one of the old environments may bind further names. -/
structure GrowsAt (σ σ' : Store) (e : EnvironmentId) : Prop extends Grows σ σ' where
  others : ∀ a, a < σ.environments.size → a ≠ e → ∀ name v, σ'.local? a name = some v →
    ∃ v', σ.local? a name = some v'

theorem Grows.binds (h : Grows σ σ') (hb : σ.Binds e scope) : σ'.Binds e scope := by
  intro name hn
  obtain ⟨v, hv, fits⟩ := hb name hn
  obtain ⟨v', hv', same⟩ := h.kept e name v hv
  refine ⟨v', hv', fun ht => ?_, fun ht => ?_⟩
  · rw [same (.inl ht)]
    exact fits.1 ht
  · rw [same (.inr ht)]
    exact fits.2 ht

theorem Grows.mirrors (h : Grows σ σ') (hm : σ.Mirrors e scopes) : σ'.Mirrors e scopes := by
  induction hm with
  | globals made => exact .globals (Nat.lt_of_lt_of_le made h.size)
  | frame inside older binds _ ih =>
    have hi := (h.enclosing _ (lt_of_enclosing? inside)).trans inside
    exact .frame hi older (h.binds binds) ih

theorem GrowsAt.active (h : GrowsAt σ σ' e) (ha : σ.Active a scopes) (hne : a ≠ e) :
    σ'.Active a scopes := by
  refine ⟨h.mirrors ha.mirrors, ?_⟩
  cases scopes with
  | nil => trivial
  | cons scope scopes =>
    intro name v hv
    obtain ⟨v', hv'⟩ := h.others a ha.mirrors.lt_size hne name v hv
    exact ha.exact name v' hv'

theorem Grows.refl (σ : Store) : Grows σ σ :=
  ⟨Nat.le_refl _, fun _ _ => rfl, fun _ _ v hv => ⟨v, hv, fun _ => rfl⟩⟩

/-- Changes that leave the environments alone. -/
theorem GrowsAt.of_environments (he : σ'.environments = σ.environments) (e : EnvironmentId) :
    GrowsAt σ σ' e := by
  have hl : σ'.local? = σ.local? := by
    funext a name
    rw [local?, he, local?]
  have hi : σ'.enclosing? = σ.enclosing? := by
    funext a
    rw [enclosing?, he, enclosing?]
  refine ⟨⟨Nat.le_of_eq (by rw [he]), fun a _ => by rw [hi], fun a name v hv => ?_⟩, fun a _ _ name v hv => ?_⟩
  · exact ⟨v, by rw [hl]; exact hv, fun _ => rfl⟩
  · exact ⟨v, by rw [← hl]; exact hv⟩

theorem Grows.of_environments (he : σ'.environments = σ.environments) : Grows σ σ' :=
  (GrowsAt.of_environments he 0).toGrows

theorem GrowsAt.addEnvironment (σ : Store) (enclosing : Option EnvironmentId)
    (bindings : Bindings Value) (e : EnvironmentId) :
    GrowsAt σ (σ.addEnvironment enclosing bindings) e := by
  refine ⟨⟨by simp, fun a ha => ?_, fun a name v hv => ?_⟩, fun a ha _ name v hv => ?_⟩
  · rw [enclosing?_addEnvironment, if_neg (ne_nextEnvironment ha)]
  · rw [local?_addEnvironment, if_neg (ne_nextEnvironment (lt_of_local? hv))]
    exact ⟨v, hv, fun _ => rfl⟩
  · rw [local?_addEnvironment, if_neg (ne_nextEnvironment ha)] at hv
    exact ⟨v, hv⟩

/-- Binding a name that is no keyword in one environment. -/
theorem GrowsAt.define {name : Token} (plain : name.Plain) (σ : Store) (e : EnvironmentId)
    (v : Value) : GrowsAt σ (σ.define e name.lexeme v) e := by
  refine ⟨⟨by simp, fun a _ => by simp, fun a other w hw => ?_⟩, fun a _ hne other w hw => ?_⟩
  · rw [local?_define]
    split
    · next hc =>
      obtain ⟨rfl, _, rfl⟩ := hc
      exact ⟨v, rfl, fun ht => absurd rfl (Scope.Token.Plain.ne plain ht)⟩
    · exact ⟨w, hw, fun _ => rfl⟩
  · rw [local?_define, if_neg fun hc => hne hc.1] at hw
    exact ⟨w, hw⟩

/-- Rebinding a name binds no further names. -/
theorem GrowsAt.rebind {name : Token} (plain : name.Plain) {owner : EnvironmentId} (v : Value)
    {w : Value} (bound : σ.local? owner name.lexeme = some w) (e : EnvironmentId) :
    GrowsAt σ (σ.define owner name.lexeme v) e := by
  refine ⟨(GrowsAt.define plain σ owner v).toGrows, fun a _ _ other u hu => ?_⟩
  rw [local?_define] at hu
  split at hu
  · next hc =>
    obtain ⟨rfl, _, rfl⟩ := hc
    exact ⟨w, bound⟩
  · exact ⟨u, hu⟩

/-! ## Scopes that are entered and names that are declared -/

/-- A new environment for a new scope. -/
theorem Mirrors.enter (h : σ.Mirrors e scopes) {bindings : Bindings Value}
    (binds : ∀ name, scope.get? name = some true → ∃ v, bindings.get? name = some v ∧ v.Fits name) :
    (σ.addEnvironment (some e) bindings).Mirrors σ.nextEnvironment (scope :: scopes) := by
  refine .frame ?_ h.lt_size (fun name hn => ?_) ?_
  · rw [enclosing?_addEnvironment, if_pos rfl]
  · rw [local?_addEnvironment, if_pos rfl]
    exact binds name hn
  · exact (GrowsAt.addEnvironment σ (some e) bindings e).mirrors h

theorem Mirrors.enter_exact (h : σ.Mirrors e scopes) {bindings : Bindings Value}
    (binds : ∀ name, scope.get? name = some true → ∃ v, bindings.get? name = some v ∧ v.Fits name)
    (exact : ∀ name v, bindings.get? name = some v → scope.get? name = some true) :
    (σ.addEnvironment (some e) bindings).Active σ.nextEnvironment (scope :: scopes) := by
  refine ⟨h.enter binds, fun name v hv => ?_⟩
  rw [local?_addEnvironment, if_pos rfl] at hv
  exact exact name v hv

/-- A block starts without names. -/
theorem Active.block (h : σ.Active e scopes) :
    (σ.addEnvironment (some e) .empty).Active σ.nextEnvironment (.empty :: scopes) :=
  h.mirrors.enter_exact nofun nofun

/-- A scope that holds one name from the start. -/
theorem Mirrors.implicit (h : σ.Mirrors e scopes) {name : String} {v : Value} (fits : v.Fits name) :
    (σ.addEnvironment (some e) (Bindings.empty.insert name v)).Mirrors σ.nextEnvironment
      (Scope.implicit name :: scopes) := by
  refine h.enter fun other hn => ?_
  rw [Scope.get?_implicit] at hn
  split at hn
  · next he =>
    subst he
    exact ⟨v, by rw [Bindings.get?_insert, if_pos rfl], fits⟩
  · cases hn

theorem fits_this (i : InstanceId) : (Value.instanceRef i).Fits thisName :=
  ⟨fun _ => ⟨i, rfl⟩, fun h => absurd h (by decide)⟩

theorem fits_super (c : ClassId) : (Value.classRef c).Fits superName :=
  ⟨fun h => absurd h (by decide), fun _ => ⟨c, rfl⟩⟩

theorem fits_plain {name : Token} (plain : name.Plain) (v : Value) : v.Fits name.lexeme :=
  ⟨fun h => absurd h.symm (Scope.Token.Plain.ne plain (.inl rfl)),
    fun h => absurd h.symm (Scope.Token.Plain.ne plain (.inr rfl))⟩

/-- A name that is new to the scope may be declared before it is bound. -/
theorem Active.declare (h : σ.Active e scopes) {name : Token}
    (clean : (Scope.declare scopes name).2.faults = []) :
    σ.Active e (Scope.declare scopes name).1 := by
  obtain ⟨mirrors, exact⟩ := h
  cases mirrors with
  | globals made => exact ⟨.globals made, trivial⟩
  | @frame _ outer scope scopes inside older binds rest =>
    have new : scope.get? name.lexeme = none := by
      by_contra hn
      have hc : scope.contains name.lexeme = true := Option.isSome_iff_ne_none.mpr hn
      rw [Scope.declare, hc] at clean
      cases clean
    refine ⟨.frame inside older (fun other hn => ?_) rest, fun other v hv => ?_⟩
    · rw [Bindings.get?_insert] at hn
      split at hn
      · cases hn
      · exact binds other hn
    · have hs := exact other v hv
      have hne : other ≠ name.lexeme := by
        rintro rfl
        rw [new] at hs
        cases hs
      rw [Bindings.get?_insert, if_neg hne]
      exact hs

/-- Binding a name defines it. -/
theorem Active.define (h : σ.Active e scopes) {name : Token} (plain : name.Plain) (v : Value) :
    (σ.define e name.lexeme v).Active e (Scope.define scopes name.lexeme) := by
  obtain ⟨mirrors, exact⟩ := h
  have grows := GrowsAt.define plain σ e v
  cases mirrors with
  | globals made => exact ⟨.globals (by simpa using made), trivial⟩
  | @frame _ outer scope scopes inside older binds rest =>
    have hlt := lt_of_enclosing? inside
    refine ⟨.frame (by simpa using inside) older (fun other hn => ?_) (grows.mirrors rest),
      fun other w hw => ?_⟩
    · rw [Bindings.get?_insert] at hn
      split at hn
      · next he =>
        subst he
        exact ⟨v, by rw [local?_define, if_pos ⟨rfl, hlt, rfl⟩], fits_plain plain v⟩
      · exact grows.binds binds other hn
    · rw [local?_define] at hw
      rw [Bindings.get?_insert]
      split
      · rfl
      · next he =>
        rw [if_neg fun hc => he hc.2.2] at hw
        exact exact other w hw

/-! ## Parameters -/

theorem get?_foldl_insert (pairs : List (Token × Value)) (b : Bindings Value) (name : String) :
    ((pairs.foldl (fun b pair => b.insert pair.1.lexeme pair.2) b).get? name).isSome = true ↔
      (b.get? name).isSome = true ∨ ∃ pair ∈ pairs, pair.1.lexeme = name := by
  induction pairs generalizing b with
  | nil => simp
  | cons pair pairs ih =>
    rw [List.foldl_cons, ih, Bindings.get?_insert]
    by_cases h : name = pair.1.lexeme
    · simp [h]
    · simp [h, Ne.symm h]

theorem exists_zip_iff {params : List Token} {arguments : List Value}
    (counted : arguments.length = params.length) (name : String) :
    (∃ pair ∈ params.zip arguments, pair.1.lexeme = name) ↔
      ∃ param ∈ params, param.lexeme = name := by
  have hz : (params.zip arguments).map Prod.fst = params :=
    List.map_fst_zip (Nat.le_of_eq counted.symm)
  constructor
  · rintro ⟨pair, hp, he⟩
    exact ⟨pair.1, hz ▸ List.mem_map_of_mem hp, he⟩
  · rintro ⟨param, hp, he⟩
    rw [← hz] at hp
    obtain ⟨pair, hz, rfl⟩ := List.mem_map.mp hp
    exact ⟨pair, hz, he⟩

end Store

/-- A body starts with its parameters bound and nothing else. -/
theorem Store.Mirrors.call {σ : Store} {e : EnvironmentId} {ctx : Scope.Context}
    (h : σ.Mirrors e ctx.scopes) {kind : Scope.FunctionKind} {params : List Token}
    {arguments : List Value} (counted : arguments.length = params.length)
    (plain : ∀ param ∈ params, param.Plain) :
    (σ.addEnvironment (some e) (parameterBindings params arguments)).Active σ.nextEnvironment
      (ctx.inside kind params).scopes := by
  obtain ⟨scope, hs, hn⟩ := Scope.introduceAll_cons .empty ctx.scopes params
  have bound (name : String) :
      ((parameterBindings params arguments).get? name).isSome = true ↔
        ∃ param ∈ params, param.lexeme = name := by
    rw [parameterBindings, Store.get?_foldl_insert, Store.exists_zip_iff counted]
    simp
  show Store.Active _ _ (Scope.introduceAll (.empty :: ctx.scopes) params).1
  rw [hs]
  refine h.enter_exact (fun name hname => ?_) fun name v hv => ?_
  · rcases (hn name).mp hname with he | ⟨param, hp, rfl⟩
    · cases he
    · obtain ⟨v, hv⟩ := Option.isSome_iff_exists.mp ((bound param.lexeme).mpr ⟨param, hp, rfl⟩)
      exact ⟨v, hv, Store.fits_plain (plain param hp) v⟩
  · exact (hn name).mpr (.inr ((bound name).mp (by rw [hv]; rfl)))

end Lox
