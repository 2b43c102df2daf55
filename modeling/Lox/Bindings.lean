/-!
# Names bound to values

An association list with each name at most once as long as it is built by `insert`.
-/
namespace Lox

structure Bindings (α : Type) where
  entries : List (String × α)
  deriving Repr

namespace Bindings

variable {α : Type}

def empty : Bindings α := ⟨[]⟩

def get? (b : Bindings α) (name : String) : Option α := b.entries.lookup name

def contains (b : Bindings α) (name : String) : Bool := (b.get? name).isSome

def put (name : String) (value : α) : List (String × α) → List (String × α)
  | [] => [(name, value)]
  | (other, old) :: rest =>
    if name = other then (other, value) :: rest else (other, old) :: put name value rest

/-- Binds a name, in place of an earlier binding if there is one. -/
def insert (b : Bindings α) (name : String) (value : α) : Bindings α :=
  ⟨put name value b.entries⟩

@[simp] theorem get?_empty (name : String) : (empty : Bindings α).get? name = none := rfl

theorem lookup_put (name other : String) (value : α) (entries : List (String × α)) :
    (put name value entries).lookup other =
      if other = name then some value else entries.lookup other := by
  induction entries with
  | nil =>
    by_cases h : other = name
    · simp [put, h]
    · simp [put, List.lookup_cons, beq_false_of_ne h, h]
  | cons entry rest ih =>
    obtain ⟨key, old⟩ := entry
    by_cases hk : name = key
    · subst hk
      by_cases h : other = name
      · simp [put, h]
      · simp [put, List.lookup_cons, beq_false_of_ne h, h]
    · by_cases h : other = key
      · subst h
        simp [put, hk, Ne.symm hk]
      · simp [put, hk, List.lookup_cons, beq_false_of_ne h, ih]

@[simp] theorem get?_insert (b : Bindings α) (name other : String) (value : α) :
    (b.insert name value).get? other = if other = name then some value else b.get? other :=
  lookup_put name other value b.entries

end Bindings

end Lox
