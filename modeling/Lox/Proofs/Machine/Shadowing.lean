import Lox.Proofs.Machine.Objects

/-!
# Names along a chain of environments

An environment shows every name that it or an environment around it binds, and of several
bindings the nearest. Reading and rebinding by name alone find that binding by themselves; with a
distance they go to one environment and look nowhere else. The two ways agree at the least
distance at which the name is bound, and rebinding is seen by whoever gets to the same environment,
over whatever route, and by nobody else.
-/
namespace Lox.Store

/-! ## Stores made of environments alone -/

/-- What can be done with environments. -/
inductive Command where
  | new
  | child (enclosing : EnvironmentId)
  | define (e : EnvironmentId) (name : String) (value : Value)
  | assign (e : EnvironmentId) (name : Token) (value : Value)
  | assignAt (e : EnvironmentId) (distance : Nat) (name : Token) (value : Value)

/-- The environment that a command speaks of. -/
def Command.environment? : Command → Option EnvironmentId
  | new => none
  | child e => some e
  | define e _ _ => some e
  | assign e _ _ => some e
  | assignAt e _ _ _ => some e

/-- A command speaks of an environment that is there. -/
def Command.Names (σ : Store) (c : Command) : Prop :=
  ∀ e ∈ c.environment?, e < σ.environments.size

instance (σ : Store) (c : Command) : Decidable (c.Names σ) :=
  inferInstanceAs (Decidable (∀ e ∈ c.environment?, e < σ.environments.size))

def Command.perform? (σ : Store) : Command → Except Fault Store
  | new => .ok (σ.addEnvironment none .empty)
  | child e => .ok (σ.addEnvironment (some e) .empty)
  | define e name value => .ok (σ.define e name value)
  | assign e name value => σ.assign e name value
  | assignAt e distance name value => σ.assignAt e distance name value

/-- The store after a command, and the fault if there was one. -/
def Command.perform (c : Command) (σ : Store) : Store × Option Fault :=
  match c.perform? σ with
  | .ok σ' => (σ', none)
  | .error f => (σ, some f)

/-- A store that commands made, each on environments that were there. -/
inductive Made : Store → Prop where
  | empty : Made .empty
  | next {σ : Store} (made : Made σ) {c : Command} (names : c.Names σ) : Made (c.perform σ).1

variable {σ σ' : Store} {e a : EnvironmentId} {x : String} {k : Nat}

theorem assign_eq_ok {name : Token} {v : Value} (h : σ.assign e name v = .ok σ') :
    ∃ owner, σ' = σ.define owner name.lexeme v := by
  unfold assign at h
  split at h
  · next owner _ =>
    cases h
    exact ⟨owner, rfl⟩
  · cases h

/-- With a distance a name is rebound where it is bound already, and only there. -/
theorem assignAt_eq_ok {name : Token} {v : Value} (h : σ.assignAt e k name v = .ok σ') :
    ∃ a w, σ.ancestor? e k = some a ∧ σ.local? a name.lexeme = some w ∧
      σ' = σ.define a name.lexeme v := by
  unfold assignAt at h
  split at h
  · next owner found =>
    cases h
    obtain ⟨there, bound⟩ := Option.filter_eq_some_iff.mp found
    obtain ⟨w, hw⟩ := Option.isSome_iff_exists.mp bound
    exact ⟨owner, w, there, hw, rfl⟩
  · cases h

/-- An environment is made within an older one, and no command moves it. -/
theorem layered_perform? (layered : σ.Layered) {c : Command} (names : c.Names σ)
    (done : c.perform? σ = .ok σ') : σ'.Layered := by
  cases c with
  | new =>
    cases done
    intro e outer inside
    rw [enclosing?_addEnvironment] at inside
    split at inside
    · cases inside
    · exact layered e outer inside
  | child e =>
    cases done
    exact layered.addEnvironment (names e rfl) .empty
  | define e name value =>
    cases done
    exact layered.same fun a => enclosing?_define σ e a name value
  | assign e name value =>
    obtain ⟨owner, rfl⟩ := assign_eq_ok done
    exact layered.same fun a => enclosing?_define σ owner a name.lexeme value
  | assignAt e distance name value =>
    obtain ⟨owner, _, _, _, rfl⟩ := assignAt_eq_ok done
    exact layered.same fun a => enclosing?_define σ owner a name.lexeme value

/-- A command that fails changes nothing. -/
theorem perform_failed {c : Command} (failed : (c.perform σ).2 ≠ none) : (c.perform σ).1 = σ := by
  unfold Command.perform at failed ⊢
  cases done : c.perform? σ with
  | ok σ' => exact absurd (by rw [done]) failed
  | error f => rfl

theorem layered_perform (layered : σ.Layered) {c : Command} (names : c.Names σ) :
    (c.perform σ).1.Layered := by
  unfold Command.perform
  cases done : c.perform? σ with
  | ok σ' => exact layered_perform? layered names done
  | error f => exact layered

theorem Made.layered (made : σ.Made) : σ.Layered := by
  induction made with
  | empty =>
    intro e outer inside
    simp [enclosing?, Store.empty] at inside
  | next _ names ih => exact layered_perform ih names

/-! ## The nearest binding -/

/-- The environment so many links outwards binds the name. -/
def BindsAt (σ : Store) (e : EnvironmentId) (x : String) (k : Nat) : Prop :=
  ∃ a v, σ.ancestor? e k = some a ∧ σ.local? a x = some v

/-- The least number of links outwards to an environment that binds the name. -/
def Nearest (σ : Store) (e : EnvironmentId) (x : String) (k : Nat) : Prop :=
  σ.BindsAt e x k ∧ ∀ nearer < k, ¬ σ.BindsAt e x nearer

theorem ancestor?_zero (made : e < σ.environments.size) : σ.ancestor? e 0 = some e := if_pos made

theorem ancestor?_succ (outer : σ.enclosing? e = some a) (k : Nat) :
    σ.ancestor? e (k + 1) = σ.ancestor? a k := by
  rw [ancestor?, outer]
  rfl

theorem not_bindsAt_zero (unbound : σ.local? e x = none) : ¬ σ.BindsAt e x 0 := by
  rintro ⟨a, v, here, bound⟩
  rw [ancestor?] at here
  split at here
  · cases here
    rw [unbound] at bound
    cases bound
  · cases here

theorem not_bindsAt_succ (outermost : σ.enclosing? e = none) (k : Nat) : ¬ σ.BindsAt e x (k + 1) := by
  rintro ⟨a, v, there, _⟩
  rw [ancestor?, outermost] at there
  cases there

theorem bindsAt_succ (outer : σ.enclosing? e = some a) :
    σ.BindsAt e x (k + 1) ↔ σ.BindsAt a x k := by
  rw [BindsAt, BindsAt, ancestor?_succ outer]

theorem Nearest.here {v : Value} (bound : σ.local? e x = some v) : σ.Nearest e x 0 :=
  ⟨⟨e, v, ancestor?_zero (lt_of_local? bound), bound⟩, fun _ nearer => absurd nearer (Nat.not_lt_zero _)⟩

theorem Nearest.outwards (unbound : σ.local? e x = none) (outer : σ.enclosing? e = some a)
    (h : σ.Nearest a x k) : σ.Nearest e x (k + 1) := by
  refine ⟨(bindsAt_succ outer).mpr h.1, fun nearer less => ?_⟩
  cases nearer with
  | zero => exact not_bindsAt_zero unbound
  | succ nearer =>
    rw [bindsAt_succ outer]
    exact h.2 nearer (Nat.lt_of_succ_lt_succ less)

theorem Nearest.unique {k' : Nat} (h : σ.Nearest e x k) (h' : σ.Nearest e x k') : k = k' := by
  rcases Nat.lt_trichotomy k k' with less | same | more
  · exact absurd h.1 (h'.2 k less)
  · exact same
  · exact absurd h'.1 (h.2 k' more)

/-- A name is looked for in an environment itself and then from the one around it. -/
theorem owner?_eq (layered : σ.Layered) (e : EnvironmentId) (x : String) :
    σ.owner? e x =
      if (σ.local? e x).isSome then some e else (σ.enclosing? e).bind (σ.owner? · x) := by
  rw [owner?, local?, enclosing?]
  cases he : σ.environments[e]? with
  | none => rfl
  | some environment =>
    cases bound : environment.bindings.get? x with
    | some v => simp [Bindings.contains, bound]
    | none =>
      cases outer : environment.enclosing with
      | none => simp [Bindings.contains, bound, outer]
      | some a =>
        have older : a < e := layered e a (by rw [enclosing?, he]; exact outer)
        simp [Bindings.contains, bound, outer, older]

/-- The environment that is found is the nearest that binds the name, and none is found only where
no environment of the chain binds it. -/
theorem owner?_spec (layered : σ.Layered) (e : EnvironmentId) (x : String) :
    (∃ k a, σ.Nearest e x k ∧ σ.ancestor? e k = some a ∧ σ.owner? e x = some a) ∨
      (∀ k, ¬ σ.BindsAt e x k) ∧ σ.owner? e x = none := by
  induction e using Nat.strongRecOn with
  | ind e ih =>
    rw [owner?_eq layered]
    cases here : σ.local? e x with
    | some v => exact .inl ⟨0, e, .here here, ancestor?_zero (lt_of_local? here), rfl⟩
    | none =>
      cases outer : σ.enclosing? e with
      | none =>
        refine .inr ⟨fun k => ?_, rfl⟩
        cases k with
        | zero => exact not_bindsAt_zero here
        | succ k => exact not_bindsAt_succ outer k
      | some a =>
        rcases ih a (layered e a outer) with ⟨k, owner, nearest, there, found⟩ | ⟨nowhere, missing⟩
        · exact .inl ⟨k + 1, owner, nearest.outwards here outer, (ancestor?_succ outer k).trans there, found⟩
        · refine .inr ⟨fun k => ?_, missing⟩
          cases k with
          | zero => exact not_bindsAt_zero here
          | succ k => exact fun bound => nowhere k ((bindsAt_succ outer).mp bound)

/-! ## Reading and rebinding -/

variable {name : Token} {v : Value}

theorem lookupAt?_eq_some (there : σ.ancestor? e k = some a) : σ.lookupAt? e k x = σ.local? a x := by
  rw [lookupAt?, there]
  rfl

theorem assignAt_of_bound (there : σ.ancestor? e k = some a) {w : Value}
    (bound : σ.local? a name.lexeme = some w) (v : Value) :
    σ.assignAt e k name v = .ok (σ.define a name.lexeme v) := by
  rw [assignAt, there]
  simp [Option.filter, bound]

/-- By name alone the nearest binding is read and rebound. -/
theorem nearest_agrees (layered : σ.Layered) (nearest : σ.Nearest e name.lexeme k) (v : Value) :
    σ.get e name = σ.getAt e k name ∧ σ.assign e name v = σ.assignAt e k name v := by
  rcases owner?_spec layered e name.lexeme with ⟨k', a, nearest', there, found⟩ | ⟨nowhere, _⟩
  · obtain rfl := nearest.unique nearest'
    obtain ⟨_, w, there', bound⟩ := nearest.1
    cases there.symm.trans there'
    refine ⟨?_, ?_⟩
    · rw [get, getAt, found, lookupAt?_eq_some there, Option.bind_some, bound]
    · rw [assign, found, assignAt_of_bound there bound]
  · exact absurd nearest.1 (nowhere k)

/-- A name that is not bound along the chain can be neither read nor rebound. -/
theorem unbound_fails (layered : σ.Layered) (nowhere : ∀ k, ¬ σ.BindsAt e name.lexeme k) (v : Value) :
    σ.get e name = .error (undefined name) ∧ σ.assign e name v = .error (undefined name) := by
  rcases owner?_spec layered e name.lexeme with ⟨k, _, nearest, _, _⟩ | ⟨_, missing⟩
  · exact absurd nearest.1 (nowhere k)
  · rw [get, assign, missing]
    exact ⟨rfl, rfl⟩

theorem exists_nearest (bound : σ.BindsAt e x k) : ∃ least, σ.Nearest e x least := by
  classical
  exact ⟨Nat.find ⟨k, bound⟩, Nat.find_spec ⟨k, bound⟩, fun _ less => Nat.find_min ⟨k, bound⟩ less⟩

theorem getAt_of_bindsAt (bound : σ.BindsAt e name.lexeme k) : ∃ w, σ.getAt e k name = .ok w := by
  obtain ⟨a, w, there, hw⟩ := bound
  exact ⟨w, by rw [getAt, lookupAt?_eq_some there, hw]⟩

theorem assignAt_of_bindsAt (bound : σ.BindsAt e name.lexeme k) (v : Value) :
    ∃ σ', σ.assignAt e k name v = .ok σ' := by
  obtain ⟨a, w, there, hw⟩ := bound
  exact ⟨_, assignAt_of_bound there hw v⟩

theorem ancestor?_define (σ : Store) (owner : EnvironmentId) (x : String) (v : Value)
    (e : EnvironmentId) (k : Nat) : (σ.define owner x v).ancestor? e k = σ.ancestor? e k := by
  induction k generalizing e with
  | zero => simp [ancestor?]
  | succ k ih => simp only [ancestor?, enclosing?_define, ih]

/-- One binding changed: it is read over every route to its environment, all else is read as
before, and each route leads where it led. -/
def Rebinds (σ σ' : Store) (owner : Option EnvironmentId) (x : String) (v : Value) : Prop :=
  (∀ e k, σ'.ancestor? e k = σ.ancestor? e k) ∧
    ∀ e k (name : Token), σ'.getAt e k name =
      if σ.ancestor? e k = owner ∧ name.lexeme = x then .ok v else σ.getAt e k name

theorem rebinds_define (made : a < σ.environments.size) (x : String) (v : Value) :
    Rebinds σ (σ.define a x v) (some a) x v := by
  refine ⟨ancestor?_define σ a x v, fun e k name => ?_⟩
  simp only [getAt, lookupAt?, ancestor?_define]
  cases there : σ.ancestor? e k with
  | none => simp
  | some owner =>
    simp only [Option.bind_some, local?_define, made, true_and, Option.some.injEq]
    by_cases rebound : owner = a ∧ name.lexeme = x
    · simp only [rebound, and_self, if_true]
    · simp only [rebound, if_false]

/-- How names are read and rebound in environments that were made, filled and rebound in any way:
by name alone at the least distance at which an environment of the chain binds the name, and not
at all if none does; with a distance exactly there, if the name is bound there. Rebinding changes
that one binding over every route, and what fails changes nothing. -/
theorem chain_obeyed (made : σ.Made) (e : EnvironmentId) (name : Token) (v : Value) :
    ((∃ w, σ.get e name = .ok w) ↔ ∃ k, σ.Nearest e name.lexeme k) ∧
    ((∃ σ', σ.assign e name v = .ok σ') ↔ ∃ k, σ.Nearest e name.lexeme k) ∧
    (∀ k, σ.Nearest e name.lexeme k →
      σ.get e name = σ.getAt e k name ∧ σ.assign e name v = σ.assignAt e k name v) ∧
    (∀ d, (∃ σ', σ.assignAt e d name v = .ok σ') ↔ σ.BindsAt e name.lexeme d) ∧
    (∀ d σ', σ.assignAt e d name v = .ok σ' →
      Rebinds σ σ' (σ.ancestor? e d) name.lexeme v) ∧
    ∀ c : Command, (c.perform σ).2 ≠ none → (c.perform σ).1 = σ := by
  have layered := made.layered
  have agrees := fun k (h : σ.Nearest e name.lexeme k) => nearest_agrees layered h v
  have unbound (none : ¬ ∃ k, σ.Nearest e name.lexeme k) :=
    unbound_fails layered (fun k bound => none (exists_nearest bound)) v
  refine ⟨⟨?_, ?_⟩, ⟨?_, ?_⟩, agrees, fun d => ⟨?_, fun bound => assignAt_of_bindsAt bound v⟩, ?_,
    fun _ failed => perform_failed failed⟩
  · rintro ⟨w, found⟩
    refine Classical.not_not.mp fun none => ?_
    rw [(unbound none).1] at found
    cases found
  · rintro ⟨k, nearest⟩
    rw [(agrees k nearest).1]
    exact getAt_of_bindsAt nearest.1
  · rintro ⟨σ', rebound⟩
    refine Classical.not_not.mp fun none => ?_
    rw [(unbound none).2] at rebound
    cases rebound
  · rintro ⟨k, nearest⟩
    rw [(agrees k nearest).2]
    exact assignAt_of_bindsAt nearest.1 v
  · rintro ⟨σ', rebound⟩
    obtain ⟨a, w, there, bound, _⟩ := assignAt_eq_ok rebound
    exact ⟨a, w, there, bound⟩
  · rintro d σ' rebound
    obtain ⟨a, w, there, bound, rfl⟩ := assignAt_eq_ok rebound
    rw [there]
    exact rebinds_define (lt_of_local? bound) name.lexeme v

/-- Two environments within the outermost; the second binds the same name again and has an
environment of its own. -/
def shadowed : Store :=
  ([.new, .define 0 "i" .nil, .child 0, .child 0, .define 2 "i" (.bool true), .child 2] :
    List Command).foldl (fun σ c => (c.perform σ).1) .empty

theorem made_shadowed : shadowed.Made :=
  .next (c := .child 2)
    (.next (c := .define 2 "i" (.bool true))
      (.next (c := .child 0)
        (.next (c := .child 0)
          (.next (c := .define 0 "i" .nil) (.next (c := .new) .empty (by decide)) (by decide))
          (by decide))
        (by decide))
      (by decide))
    (by decide)

/-- From the innermost environment the binding in the second is rebound, over whatever route, and
the outermost keeps its own. -/
theorem inner_rebound :
    shadowed.Made ∧ shadowed.Nearest 3 "i" 1 ∧
      ∃ σ, shadowed.assign 3 ⟨.identifier, "i", 1⟩ (.bool false) = .ok σ ∧
        Rebinds shadowed σ (some 2) "i" (.bool false) := by
  have nearest : shadowed.Nearest 3 "i" 1 := by
    have here : shadowed.local? 2 "i" = some (.bool true) := rfl
    exact (Nearest.here here).outwards rfl rfl
  obtain ⟨_, assigned, agrees, _, rebinds, _⟩ :=
    chain_obeyed made_shadowed 3 ⟨.identifier, "i", 1⟩ (.bool false)
  obtain ⟨σ, done⟩ := assigned.mpr ⟨1, nearest⟩
  exact ⟨made_shadowed, nearest, σ, done, rebinds 1 σ ((agrees 1 nearest).2.symm.trans done)⟩

end Lox.Store
