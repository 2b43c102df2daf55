import Lox.Machine

/-!
# Reading a store after a change

What each change of a store does to the environments, name by name. Objects are kept in arrays
of their own, so changes to them leave every environment as it is.
-/
namespace Lox.Store

variable {σ : Store} {e a : EnvironmentId} {name other : String} {value : Value}

theorem local?_of_lt (h : e < σ.environments.size) :
    σ.local? e name = σ.environments[e].bindings.get? name := by
  simp [local?, h]

theorem lt_of_local? (h : σ.local? e name = some value) : e < σ.environments.size := by
  refine Nat.lt_of_not_le fun hn => ?_
  rw [local?, Array.getElem?_eq_none hn] at h
  cases h

theorem lt_of_enclosing? (h : σ.enclosing? e = some a) : e < σ.environments.size := by
  refine Nat.lt_of_not_le fun hn => ?_
  rw [enclosing?, Array.getElem?_eq_none hn] at h
  cases h

/-! ## Binding a name -/

@[simp] theorem size_define (σ : Store) (e : EnvironmentId) (name : String) (value : Value) :
    (σ.define e name value).environments.size = σ.environments.size := by
  unfold define
  split <;> simp

theorem local?_define (σ : Store) (e a : EnvironmentId) (name other : String) (value : Value) :
    (σ.define e name value).local? a other =
      if a = e ∧ e < σ.environments.size ∧ other = name then some value else σ.local? a other := by
  unfold define
  by_cases he : e < σ.environments.size
  · simp only [Array.getElem?_eq_getElem he, local?, Array.getElem?_setIfInBounds]
    by_cases ha : e = a
    · subst ha
      by_cases hn : other = name <;> simp [he, hn]
    · simp [ha, Ne.symm ha]
  · simp [he]

@[simp] theorem enclosing?_define (σ : Store) (e a : EnvironmentId) (name : String)
    (value : Value) : (σ.define e name value).enclosing? a = σ.enclosing? a := by
  unfold define
  split
  · next environment he =>
    obtain ⟨hlt, rfl⟩ := Array.getElem?_eq_some_iff.mp he
    by_cases ha : e = a
    · subst ha
      simp [enclosing?, hlt]
    · simp [enclosing?, ha]
  · rfl

@[simp] theorem functions_define (σ : Store) (e : EnvironmentId) (name : String) (value : Value) :
    (σ.define e name value).functions = σ.functions := by
  unfold define
  split <;> rfl

@[simp] theorem classes_define (σ : Store) (e : EnvironmentId) (name : String) (value : Value) :
    (σ.define e name value).classes = σ.classes := by
  unfold define
  split <;> rfl

@[simp] theorem instances_define (σ : Store) (e : EnvironmentId) (name : String) (value : Value) :
    (σ.define e name value).instances = σ.instances := by
  unfold define
  split <;> rfl

/-- Binding a name and adding a function do not see each other. -/
theorem define_addFunction (σ : Store) (c : Closure) (e : EnvironmentId) (name : String)
    (value : Value) : (σ.addFunction c).define e name value = (σ.define e name value).addFunction c := by
  unfold define addFunction
  cases he : σ.environments[e]? <;> simp

/-- A field is set in the instances alone. -/
theorem setField_rest (σ : Store) (i : InstanceId) (name : String) (value : Value) :
    (σ.setField i name value).environments = σ.environments ∧
      (σ.setField i name value).functions = σ.functions ∧
      (σ.setField i name value).classes = σ.classes := by
  unfold setField
  split <;> exact ⟨rfl, rfl, rfl⟩

/-! ## A new environment -/

theorem ne_nextEnvironment (h : e < σ.environments.size) : e ≠ σ.nextEnvironment :=
  Nat.ne_of_lt h

@[simp] theorem size_addEnvironment (σ : Store) (enclosing : Option EnvironmentId)
    (bindings : Bindings Value) :
    (σ.addEnvironment enclosing bindings).environments.size = σ.environments.size + 1 := by
  simp [addEnvironment]

theorem local?_addEnvironment (σ : Store) (enclosing : Option EnvironmentId)
    (bindings : Bindings Value) (a : EnvironmentId) (other : String) :
    (σ.addEnvironment enclosing bindings).local? a other =
      if a = σ.nextEnvironment then bindings.get? other else σ.local? a other := by
  simp only [local?, addEnvironment, nextEnvironment, Array.getElem?_push]
  by_cases ha : a = σ.environments.size <;> simp [ha]

theorem enclosing?_addEnvironment (σ : Store) (enclosing : Option EnvironmentId)
    (bindings : Bindings Value) (a : EnvironmentId) :
    (σ.addEnvironment enclosing bindings).enclosing? a =
      if a = σ.nextEnvironment then enclosing else σ.enclosing? a := by
  simp only [enclosing?, addEnvironment, nextEnvironment, Array.getElem?_push]
  by_cases ha : a = σ.environments.size <;> simp [ha]

end Lox.Store
