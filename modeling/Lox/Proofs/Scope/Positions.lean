import Lox.Proofs.Scope.Outline
import Mathlib.Data.List.Induction

/-!
# What encloses a position, and what is declared there

A position in an outline is known by the text before it. A scope encloses it if the scope was
opened in that text and not closed since; how far out the scope is, is the number of scopes opened
within it that enclose the position as well. A name is declared in a scope at a position if it was
declared earlier in the text while that scope was the innermost one. This says of whole texts what
a place keeps track of mark by mark.
-/
namespace Lox.Scope

/-- One scope more or less, unless that leaves the scope one was in at first. -/
def Mark.shift : Mark → Nat → Option Nat
  | opens _, depth => some (depth + 1)
  | closes, 0 => none
  | closes, depth + 1 => some depth
  | _, depth => some depth

/-- How many scopes further in a text ends than it starts, if it does not leave the scope it
starts in. -/
def deeper (text : List Mark) : Option Nat := text.foldlM (fun depth mark => mark.shift depth) 0

/-- A mark of some sort stands earlier in the text, in a scope that still encloses the position,
with so many scopes in between. -/
def Earlier (sort : List Mark → Mark → Prop) (before : List Mark) (depth : Nat) : Prop :=
  ∃ earlier mark later, before = earlier ++ mark :: later ∧ sort earlier mark ∧
    deeper later = some depth

/-- A scope of a kind encloses the position, so many scopes out. -/
def Encloses (before : List Mark) (depth : Nat) (kind : ScopeKind) : Prop :=
  Earlier (fun _ mark => mark = .opens kind) before depth

def Mark.declared? : Mark → Option String
  | declares name => some name.lexeme
  | provides name => some name
  | _ => none

/-- A position that is not global. -/
def Local (before : List Mark) : Prop := ∃ kind, Encloses before 0 kind

/-- In the scope so many scopes out, which is not the global one, a name is declared. -/
def Declared (before : List Mark) (depth : Nat) (name : String) : Prop :=
  Earlier (fun earlier mark => mark.declared? = some name ∧ Local earlier) before depth

/-- The distance to the nearest scope in which a name is declared, if there is one. -/
def Nearest (before : List Mark) (name : String) : Option Nat → Prop
  | some depth => Declared before depth name ∧ ∀ nearer < depth, ¬ Declared before nearer name
  | none => ∀ depth, ¬ Declared before depth name

/-- The position is in the initializer of a local variable of this name. -/
def Initializing (before : List Mark) (name : String) : Prop :=
  ∃ earlier defined later, before = earlier ++ .initializes defined :: later ∧
    defined.lexeme = name ∧ Local earlier ∧ ∀ mark ∈ later, mark ≠ .initialized

section
variable {α : Type}

/-- Some scope of a sort encloses the position. -/
def Inside (sort : ScopeKind → Option α) (before : List Mark) : Prop :=
  ∃ depth kind, Encloses before depth kind ∧ (sort kind).isSome

/-- The innermost scope of a sort that encloses the position is this one. -/
def Innermost (sort : ScopeKind → Option α) (before : List Mark) (found : α) : Prop :=
  ∃ depth kind, Encloses before depth kind ∧ sort kind = some found ∧
    ∀ nearer < depth, ∀ kind, Encloses before nearer kind → sort kind = none

end

/-! ## One mark more -/

theorem deeper_snoc (text : List Mark) (mark : Mark) :
    deeper (text ++ [mark]) = (deeper text).bind mark.shift := by
  rw [deeper, List.foldlM_append]
  exact Option.bind_congr fun depth _ => bind_pure (mark.shift depth)

/-- What stands earlier is the last mark, or it stood earlier before. -/
theorem earlier_snoc {sort : List Mark → Mark → Prop} {before : List Mark} {mark : Mark}
    {depth : Nat} :
    Earlier sort (before ++ [mark]) depth ↔
      (sort before mark ∧ depth = 0) ∨
        ∃ depth', Earlier sort before depth' ∧ mark.shift depth' = some depth := by
  constructor
  · rintro ⟨earlier, found, later, he, hs, hd⟩
    rcases List.eq_nil_or_concat later with rfl | ⟨later, last, rfl⟩
    · obtain ⟨rfl, hm⟩ := List.append_inj' he rfl
      cases hm
      cases hd
      exact .inl ⟨hs, rfl⟩
    · rw [List.concat_eq_append, ← List.cons_append, ← List.append_assoc] at he
      obtain ⟨rfl, hm⟩ := List.append_inj' he rfl
      cases hm
      rw [List.concat_eq_append, deeper_snoc] at hd
      obtain ⟨depth', hd, shift⟩ := Option.bind_eq_some_iff.mp hd
      exact .inr ⟨depth', ⟨earlier, found, later, rfl, hs, hd⟩, shift⟩
  · rintro (⟨hs, rfl⟩ | ⟨depth', ⟨earlier, found, later, rfl, hs, hd⟩, shift⟩)
    · exact ⟨before, mark, [], rfl, hs, rfl⟩
    · refine ⟨earlier, found, later ++ [mark], by simp, hs, ?_⟩
      rw [deeper_snoc, hd]
      exact shift

theorem not_earlier_nil {sort : List Mark → Mark → Prop} {depth : Nat} : ¬ Earlier sort [] depth := by
  rintro ⟨earlier, mark, later, he, _⟩
  exact absurd he.symm (by simp)

/-! ## Places tell what encloses and what is declared -/

/-- The place after a text that starts outside of all scopes. -/
def place (before : List Mark) : Place := Place.top.after before

@[simp] theorem place_snoc (before : List Mark) (mark : Mark) :
    place (before ++ [mark]) = (place before).next mark := by
  simp [place]

/-- The frame so many scopes out has some property. -/
def Place.At (p : Place) (property : Frame → Prop) (depth : Nat) : Prop :=
  ∃ frame, p.frames[depth]? = some frame ∧ property frame

/-- A property that a frame has as soon as a mark of some sort stands in it: either the one that
opens it or one that declares a name in it. -/
structure Tracks (property : Frame → Prop) (sort : List Mark → Mark → Prop) : Prop where
  opens : ∀ before kind, property ⟨kind, []⟩ ↔ sort before (.opens kind)
  enters : ∀ before mark name frame outer, mark.declared? = some name →
    (place before).frames = frame :: outer →
    (property ⟨frame.kind, name :: frame.names⟩ ↔ sort before mark ∨ property frame)
  only : ∀ before mark, sort before mark → (∃ kind, mark = .opens kind) ∨
    (mark.declared?.isSome ∧ (place before).frames ≠ [])

section
variable {property : Frame → Prop} {sort : List Mark → Mark → Prop} {before : List Mark}
  {mark : Mark} {depth : Nat}

theorem Tracks.declaring (h : Tracks property sort) {name : String}
    (declared : mark.declared? = some name)
    (frames : ((place before).next mark).frames = enter (place before).frames name) :
    ((place before).next mark).At property depth ↔
      (sort before mark ∧ depth = 0) ∨ (place before).At property depth := by
  rw [Place.At, frames]
  cases hf : (place before).frames with
  | nil =>
    have none : ¬ sort before mark := by
      intro hs
      rcases h.only before mark hs with ⟨kind, rfl⟩ | ⟨_, some⟩
      · cases declared
      · exact some hf
    simp [Place.At, hf, enter, none]
  | cons frame outer =>
    have first := h.enters before mark name frame outer declared hf
    cases depth with
    | zero => simp [Place.At, hf, enter, first]
    | succ depth => simp [Place.At, hf, enter]

/-- Where such a mark stands is where a frame has the property. -/
theorem Tracks.at_iff (h : Tracks property sort) :
    (place before).At property depth ↔ Earlier sort before depth := by
  induction before using List.reverseRecOn generalizing depth with
  | nil => exact ⟨nofun, fun h => absurd h not_earlier_nil⟩
  | append_singleton before mark ih =>
    rw [place_snoc, earlier_snoc]
    have declaring {name : String} (declared : mark.declared? = some name)
        (frames : ((place before).next mark).frames = enter (place before).frames name)
        (shift : ∀ depth, mark.shift depth = some depth) :
        ((place before).next mark).At property depth ↔ (sort before mark ∧ depth = 0) ∨
          ∃ depth', Earlier sort before depth' ∧ mark.shift depth' = some depth := by
      rw [h.declaring declared frames, ih]
      simp [shift]
    have plain (declared : mark.declared? = none) (notOpens : ∀ kind, mark ≠ .opens kind)
        (frames : ((place before).next mark).frames = (place before).frames)
        (shift : ∀ depth, mark.shift depth = some depth) :
        ((place before).next mark).At property depth ↔ (sort before mark ∧ depth = 0) ∨
          ∃ depth', Earlier sort before depth' ∧ mark.shift depth' = some depth := by
      have none : ¬ sort before mark := by
        intro hs
        rcases h.only before mark hs with ⟨kind, rfl⟩ | ⟨some, _⟩
        · exact notOpens kind rfl
        · simp [declared] at some
      rw [Place.At, frames, ← Place.At, ih]
      simp [shift, none]
    cases mark with
    | opens kind =>
      cases depth with
      | zero => simp [Place.At, Place.next, h.opens before kind, Mark.shift]
      | succ depth => simp [Place.At, Place.next, ← ih, Mark.shift]
    | closes =>
      have none : ¬ sort before .closes := by
        intro hs
        rcases h.only before _ hs with ⟨kind, he⟩ | ⟨some, _⟩
        · cases he
        · cases some
      have shift : ∀ depth', Mark.closes.shift depth' = some depth ↔ depth' = depth + 1 := by
        intro depth'
        cases depth' <;> simp [Mark.shift]
      simp only [none, false_and, false_or, shift, exists_eq_right, ← ih]
      simp [Place.At, Place.next]
    | declares name => exact declaring rfl rfl fun _ => rfl
    | provides name => exact declaring rfl rfl fun _ => rfl
    | initializes name =>
      refine plain rfl nofun ?_ fun _ => rfl
      simp only [Place.next]
      split <;> rfl
    | _ => exact plain rfl nofun rfl fun _ => rfl

end

/-- The kinds of the frames are those of the scopes that enclose the position. -/
theorem encloses_iff {before : List Mark} {depth : Nat} {kind : ScopeKind} :
    (place before).At (·.kind = kind) depth ↔ Encloses before depth kind := by
  have tracks : Tracks (·.kind = kind) fun _ mark => mark = .opens kind := by
    refine ⟨fun _ opened => by simp, fun _ mark name frame _ declared _ => ?_, fun _ mark he => ?_⟩
    · have : mark ≠ .opens kind := by
        rintro rfl
        cases declared
      simp [this]
    · exact .inl ⟨kind, he⟩
  exact tracks.at_iff

theorem local_iff {before : List Mark} : Local before ↔ (place before).frames ≠ [] := by
  simp only [Local, ← encloses_iff, Place.At]
  cases (place before).frames <;> simp

/-- The names in the frames are those declared in the scopes. -/
theorem declared_iff {before : List Mark} {depth : Nat} {name : String} :
    (place before).At (name ∈ ·.names) depth ↔ Declared before depth name := by
  have tracks : Tracks (name ∈ ·.names)
      fun earlier mark => mark.declared? = some name ∧ Local earlier := by
    refine ⟨fun _ opened => ?_, fun before mark other frame _ declared hf => ?_,
      fun _ mark hs => ?_⟩
    · simp [Mark.declared?]
    · have inside : Local before := local_iff.mpr (by simp [hf])
      simp [declared, inside, eq_comm]
    · exact .inr ⟨by simp [hs.1], local_iff.mp hs.2⟩
  exact tracks.at_iff

instance (before : List Mark) (depth : Nat) (name : String) :
    Decidable (Declared before depth name) :=
  decidable_of_iff ((place before).frames[depth]?.any (name ∈ ·.names) = true) <| by
    rw [← declared_iff, Option.any_eq_true]
    simp [Place.At]

/-- The initializers that have not ended are those the position is in. -/
theorem initializing_iff {before : List Mark} {name : String} :
    name ∈ (place before).initializing ↔ Initializing before name := by
  induction before using List.reverseRecOn with
  | nil =>
    refine ⟨nofun, ?_⟩
    rintro ⟨earlier, defined, later, he, _⟩
    exact absurd he.symm (by simp)
  | append_singleton before mark ih =>
    rw [place_snoc]
    have last : Initializing (before ++ [mark]) name ↔
        (∃ defined, mark = .initializes defined ∧ defined.lexeme = name ∧ Local before) ∨
          (Initializing before name ∧ mark ≠ .initialized) := by
      constructor
      · rintro ⟨earlier, defined, later, he, hn, inside, still⟩
        rcases List.eq_nil_or_concat later with rfl | ⟨later, last, rfl⟩
        · obtain ⟨rfl, hm⟩ := List.append_inj' he rfl
          cases hm
          exact .inl ⟨defined, rfl, hn, inside⟩
        · rw [List.concat_eq_append, ← List.cons_append, ← List.append_assoc] at he
          obtain ⟨rfl, hm⟩ := List.append_inj' he rfl
          cases hm
          rw [List.concat_eq_append, List.forall_mem_append] at still
          exact .inr ⟨⟨earlier, defined, later, rfl, hn, inside, still.1⟩,
            still.2 mark List.mem_cons_self⟩
      · rintro (⟨defined, rfl, hn, inside⟩ | ⟨⟨earlier, defined, later, rfl, hn, inside, still⟩, hm⟩)
        · exact ⟨before, defined, [], rfl, hn, inside, List.forall_mem_nil _⟩
        · refine ⟨earlier, defined, later ++ [mark], by simp, hn, inside, ?_⟩
          rw [List.forall_mem_append, List.forall_mem_singleton]
          exact ⟨still, hm⟩
    rw [last, ← ih, local_iff]
    cases mark with
    | initializes defined =>
      cases hf : (place before).frames <;> simp [Place.next, hf, eq_comm]
    | _ => simp [Place.next, Place.declare]

instance (before : List Mark) (name : String) : Decidable (Initializing before name) :=
  decidable_of_iff _ initializing_iff

/-! ## Distances and innermost scopes -/

theorem nearest_distance? (before : List Mark) (name : String) :
    Nearest before name ((place before).distance? name) := by
  unfold Place.distance?
  cases h : (place before).frames.findIdx? (name ∈ ·.names) with
  | none =>
    rw [List.findIdx?_eq_none_iff] at h
    intro depth hd
    obtain ⟨frame, hf, hn⟩ := declared_iff.mpr hd
    simpa [hn] using h frame (List.mem_of_getElem? hf)
  | some depth =>
    obtain ⟨hlt, found, before'⟩ := List.findIdx?_eq_some_iff_getElem.mp h
    refine ⟨declared_iff.mp ⟨_, List.getElem?_eq_getElem hlt, of_decide_eq_true found⟩, ?_⟩
    intro nearer hlt' hd
    obtain ⟨frame, hf, hn⟩ := declared_iff.mpr hd
    obtain ⟨_, rfl⟩ := List.getElem?_eq_some_iff.mp hf
    exact before' nearer hlt' (decide_eq_true hn)

theorem Nearest.unique {before : List Mark} {name : String} {d d' : Option Nat}
    (h : Nearest before name d) (h' : Nearest before name d') : d = d' := by
  cases d with
  | none =>
    cases d' with
    | none => rfl
    | some depth => exact absurd h'.1 (h depth)
  | some depth =>
    cases d' with
    | none => exact absurd h.1 (h' depth)
    | some depth' =>
      rcases Nat.lt_trichotomy depth depth' with hlt | rfl | hlt
      · exact absurd h.1 (h'.2 depth hlt)
      · rfl
      · exact absurd h'.1 (h.2 depth' hlt)

section
variable {α : Type} {sort : ScopeKind → Option α} {before : List Mark}

theorem Innermost.inside {found : α} (h : Innermost sort before found) : Inside sort before := by
  obtain ⟨depth, kind, encloses, hs, _⟩ := h
  exact ⟨depth, kind, encloses, by simp [hs]⟩

theorem findSome?_eq_none_iff :
    (place before).frames.findSome? (sort ·.kind) = none ↔ ¬ Inside sort before := by
  rw [List.findSome?_eq_none_iff]
  constructor
  · rintro h ⟨depth, kind, encloses, found⟩
    obtain ⟨frame, hf, rfl⟩ := encloses_iff.mpr encloses
    simp [h frame (List.mem_of_getElem? hf)] at found
  · intro h frame hf
    obtain ⟨depth, hd⟩ := List.mem_iff_getElem?.mp hf
    by_contra some
    exact h ⟨depth, frame.kind, encloses_iff.mp ⟨frame, hd, rfl⟩, Option.isSome_iff_ne_none.mpr some⟩

theorem findSome?_eq_some_iff {found : α} :
    (place before).frames.findSome? (sort ·.kind) = some found ↔ Innermost sort before found := by
  constructor
  · intro h
    obtain ⟨inner, frame, outer, hf, hs, none⟩ := List.findSome?_eq_some_iff.mp h
    refine ⟨inner.length, frame.kind, encloses_iff.mp ⟨frame, by simp [hf], rfl⟩, hs, ?_⟩
    intro nearer hlt kind encloses
    obtain ⟨other, ho, rfl⟩ := encloses_iff.mpr encloses
    rw [hf, List.getElem?_append_left hlt] at ho
    exact none other (List.mem_of_getElem? ho)
  · rintro ⟨depth, kind, encloses, hs, none⟩
    obtain ⟨frame, hf, rfl⟩ := encloses_iff.mpr encloses
    obtain ⟨hlt, rfl⟩ := List.getElem?_eq_some_iff.mp hf
    refine List.findSome?_eq_some_iff.mpr ⟨(place before).frames.take depth,
      (place before).frames[depth], (place before).frames.drop (depth + 1), by simp, hs, ?_⟩
    intro other ho
    obtain ⟨nearer, hn⟩ := List.mem_iff_getElem?.mp ho
    have hlt' : nearer < depth := by
      have := (List.getElem?_eq_some_iff.mp hn).1
      rw [List.length_take] at this
      omega
    rw [List.getElem?_take_of_lt hlt'] at hn
    exact none nearer hlt' other.kind (encloses_iff.mp ⟨other, hn, rfl⟩)

instance : Decidable (Inside sort before) :=
  decidable_of_iff (((place before).frames.findSome? (sort ·.kind)).isSome = true) <| by
    rw [← not_iff_not, ← findSome?_eq_none_iff]
    simp

instance [DecidableEq α] (found : α) : Decidable (Innermost sort before found) :=
  decidable_of_iff _ findSome?_eq_some_iff

end

end Lox.Scope
