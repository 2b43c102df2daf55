import Lox.Proofs.Machine.Environments

/-!
# The chain of superclasses

The classes above one are counted from it upwards. Where each superclass is older than its class
no chain runs in a circle, and looking a method up gives its definition in the nearest class that
has one, or nothing if no class of the chain has one.
-/
namespace Lox.Store

def superclass? (σ : Store) (c : ClassId) : Option ClassId :=
  σ.classes[c]?.bind ClassObject.superclass

/-- The class so many superclasses upwards. -/
def classAbove? (σ : Store) (c : ClassId) : Nat → Option ClassId
  | 0 => if c < σ.classes.size then some c else none
  | height + 1 => (σ.superclass? c).bind (σ.classAbove? · height)

/-- The definition of a method in one class, those above it left aside. -/
def ownMethod? (σ : Store) (c : ClassId) (name : String) : Option Closure :=
  σ.classes[c]?.bind (·.methods.get? name)

/-- The definition of a method in the first class upwards that has one. -/
def NearestMethod (σ : Store) (c : ClassId) (name : String) (method : Closure) : Prop :=
  ∃ height owner, σ.classAbove? c height = some owner ∧ σ.ownMethod? owner name = some method ∧
    ∀ lower < height, ∀ k, σ.classAbove? c lower = some k → σ.ownMethod? k name = none

/-- No class upwards defines the method. -/
def LacksMethod (σ : Store) (c : ClassId) (name : String) : Prop :=
  ∀ height k, σ.classAbove? c height = some k → σ.ownMethod? k name = none

/-- A superclass is older than its class. -/
def Ordered (σ : Store) : Prop := ∀ c parent, σ.superclass? c = some parent → parent < c

variable {σ : Store} {c : ClassId} {name : String} {method : Closure}

theorem classAbove?_zero (h : c < σ.classes.size) : σ.classAbove? c 0 = some c := if_pos h

theorem lt_of_superclass? {parent : ClassId} (h : σ.superclass? c = some parent) :
    c < σ.classes.size := by
  obtain ⟨made, hm, _⟩ := Option.bind_eq_some_iff.mp h
  exact (Array.getElem?_eq_some_iff.mp hm).1

theorem lt_of_ownMethod? (h : σ.ownMethod? c name = some method) : c < σ.classes.size := by
  obtain ⟨made, hm, _⟩ := Option.bind_eq_some_iff.mp h
  exact (Array.getElem?_eq_some_iff.mp hm).1

/-- A method that is found is in the table of a class. -/
theorem ownMethod_of_findMethod (h : σ.findMethod c name = some method) :
    ∃ owner, σ.ownMethod? owner name = some method := by
  induction c using Nat.strongRecOn with
  | ind c ih =>
    rw [findMethod] at h
    split at h
    · cases h
    · next made hc =>
      split at h
      · next closure hm =>
        cases h
        exact ⟨c, by rw [ownMethod?, hc]; exact hm⟩
      · split at h
        · cases h
        · next parent _ =>
          split at h
          · next older => exact ih parent older h
          · cases h

/-- A method is looked up in the class itself and then from its superclass. -/
theorem findMethod_eq (ordered : σ.Ordered) (c : ClassId) (name : String) :
    σ.findMethod c name =
      (σ.ownMethod? c name).or ((σ.superclass? c).bind (σ.findMethod · name)) := by
  rw [findMethod, ownMethod?, superclass?]
  cases hc : σ.classes[c]? with
  | none => rfl
  | some made =>
    cases hm : made.methods.get? name with
    | some closure => simp [hm]
    | none =>
      cases hp : made.superclass with
      | none => simp [hm, hp]
      | some parent =>
        have older : parent < c := ordered c parent (by rw [superclass?, hc]; exact hp)
        simp [hm, hp, older]

/-! ## The nearest definition -/

theorem NearestMethod.own (h : σ.ownMethod? c name = some method) :
    σ.NearestMethod c name method :=
  ⟨0, c, classAbove?_zero (lt_of_ownMethod? h), h, fun _ lower => absurd lower (Nat.not_lt_zero _)⟩

theorem NearestMethod.inherited {parent : ClassId} (own : σ.ownMethod? c name = none)
    (above : σ.superclass? c = some parent) (h : σ.NearestMethod parent name method) :
    σ.NearestMethod c name method := by
  obtain ⟨height, owner, ho, hm, first⟩ := h
  refine ⟨height + 1, owner, by rw [classAbove?, above]; exact ho, hm, fun lower hl k hk => ?_⟩
  cases lower with
  | zero =>
    rw [classAbove?_zero (lt_of_superclass? above)] at hk
    cases hk
    exact own
  | succ lower =>
    rw [classAbove?, above] at hk
    exact first lower (Nat.lt_of_succ_lt_succ hl) k hk

theorem LacksMethod.of_above (own : σ.ownMethod? c name = none)
    (above : ∀ parent, σ.superclass? c = some parent → σ.LacksMethod parent name) :
    σ.LacksMethod c name := by
  intro height k hk
  cases height with
  | zero =>
    rw [classAbove?] at hk
    split at hk
    · cases hk
      exact own
    · cases hk
  | succ height =>
    obtain ⟨parent, hp, hk⟩ := Option.bind_eq_some_iff.mp hk
    exact above parent hp height k hk

/-- At most one definition is the nearest. -/
theorem NearestMethod.unique {other : Closure} (h : σ.NearestMethod c name method)
    (h' : σ.NearestMethod c name other) : method = other := by
  obtain ⟨height, owner, ho, hm, first⟩ := h
  obtain ⟨height', owner', ho', hm', first'⟩ := h'
  rcases Nat.lt_trichotomy height height' with below | rfl | below
  · rw [first' height below owner ho] at hm
    cases hm
  · rw [ho] at ho'
    cases ho'
    rw [hm] at hm'
    exact Option.some.inj hm'
  · rw [first height' below owner' ho'] at hm'
    cases hm'

theorem LacksMethod.not_nearest (h : σ.LacksMethod c name) : ¬ σ.NearestMethod c name method := by
  rintro ⟨height, owner, ho, hm, _⟩
  rw [h height owner ho] at hm
  cases hm

/-- What is looked up is the nearest definition, and nothing is found only where there is none. -/
theorem findMethod_spec (ordered : σ.Ordered) (c : ClassId) (name : String) :
    (∃ method, σ.findMethod c name = some method ∧ σ.NearestMethod c name method) ∨
      σ.findMethod c name = none ∧ σ.LacksMethod c name := by
  induction c using Nat.strongRecOn with
  | ind c ih =>
    rw [findMethod_eq ordered]
    cases own : σ.ownMethod? c name with
    | some method => exact .inl ⟨method, rfl, .own own⟩
    | none =>
      cases above : σ.superclass? c with
      | none =>
        refine .inr ⟨rfl, .of_above own fun parent hp => ?_⟩
        rw [above] at hp
        cases hp
      | some parent =>
        rcases ih parent (ordered c parent above) with ⟨method, found, nearest⟩ | ⟨missing, lacks⟩
        · exact .inl ⟨method, found, nearest.inherited own above⟩
        · refine .inr ⟨missing, .of_above own fun other hp => ?_⟩
          rw [above] at hp
          cases hp
          exact lacks

theorem findMethod_eq_some_iff (ordered : σ.Ordered) :
    σ.findMethod c name = some method ↔ σ.NearestMethod c name method := by
  rcases findMethod_spec ordered c name with ⟨found, hf, nearest⟩ | ⟨missing, lacks⟩
  · rw [hf]
    exact ⟨fun h => Option.some.inj h ▸ nearest, fun h => congrArg some (nearest.unique h)⟩
  · rw [missing]
    exact ⟨nofun, fun h => absurd h lacks.not_nearest⟩

theorem findMethod_eq_none_iff (ordered : σ.Ordered) :
    σ.findMethod c name = none ↔ σ.LacksMethod c name := by
  rcases findMethod_spec ordered c name with ⟨found, hf, nearest⟩ | ⟨missing, lacks⟩
  · rw [hf]
    exact ⟨nofun, fun h => absurd nearest h.not_nearest⟩
  · exact ⟨fun _ => lacks, fun _ => missing⟩

end Lox.Store
