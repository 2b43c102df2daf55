import Lox.Proofs.Token.Pieces

/-!
# Texts in parentheses

A text in parentheses is read as glyphs, which are its words and its parentheses. Blanks and commas
only end words. The glyphs of a symbolic expression decide it, and so does a text with these glyphs.
-/
namespace Lox

inductive Glyph where
  | opening
  | closing
  | word (text : String)
  deriving DecidableEq, Repr

namespace Glyph

@[simp] def separators : List Char := [' ', ',', '(', ')']

@[simp] def isLetter (c : Char) : Bool := c ∉ separators

theorem isLetter_of {p : Char → Bool} {c : Char} (other : separators.any p = false)
    (h : p c = true) : isLetter c = true :=
  decide_eq_true fun separates => List.any_eq_false.mp other c separates h

/-- What stands between two separators. -/
@[simp] def ofLetters (letters : List Char) : List Glyph :=
  if letters.isEmpty then [] else [.word (String.ofList letters)]

@[simp] def ofSeparator : Char → List Glyph
  | '(' => [.opening]
  | ')' => [.closing]
  | _ => []

/-- The glyphs of a text that stands behind the beginning of a word. -/
@[simp] def split (before : List Char) : List Char → List Glyph
  | [] => ofLetters before
  | c :: cs =>
    if isLetter c then split (before ++ [c]) cs
    else ofLetters before ++ ofSeparator c ++ split [] cs

structure IsWord (text : String) : Prop where
  some_letter : text.toList ≠ []
  inside : ∀ c ∈ text.toList, isLetter c = true

theorem isWord_iff (text : String) :
    IsWord text ↔ text.toList.isEmpty = false ∧ text.toList.all isLetter = true := by
  rw [List.isEmpty_eq_false_iff, List.all_eq_true]
  exact ⟨fun h => ⟨h.1, h.2⟩, fun h => ⟨h.1, h.2⟩⟩

instance (text : String) : Decidable (IsWord text) := decidable_of_iff' _ (isWord_iff text)

open Scan (Stops)

@[simp] theorem stops_cons {p : Char → Bool} {c : Char} {rest : List Char} :
    Stops p (c :: rest) ↔ p c = false := by
  simp [Stops]

variable {letters before rest : List Char}

theorem split_letters (inside : ∀ c ∈ letters, isLetter c = true) :
    split before (letters ++ rest) = split (before ++ letters) rest := by
  induction letters generalizing before with
  | nil => rw [List.nil_append, List.append_nil]
  | cons c letters ih =>
    obtain ⟨first, inside⟩ := List.forall_mem_cons.mp inside
    rw [List.cons_append, split, if_pos first, ih inside, List.append_assoc, List.singleton_append]

theorem split_stops (stops : Stops isLetter rest) :
    split before rest = ofLetters before ++ split [] rest := by
  cases rest with
  | nil => exact (List.append_nil _).symm
  | cons c rest =>
    have separates : ¬isLetter c = true := by
      rw [stops c rfl]
      exact Bool.false_ne_true
    rw [split, split, if_neg separates, if_neg separates, List.append_assoc]
    rfl

/-- A word is read as a whole if a separator follows it. -/
theorem split_word {text : String} (h : IsWord text) (stops : Stops isLetter rest) :
    split [] (text.toList ++ rest) = .word text :: split [] rest := by
  rw [split_letters h.inside, split_stops stops, List.nil_append, ofLetters,
    List.isEmpty_eq_false_iff.mpr h.some_letter, String.ofList_toList]
  rfl

/-- A text with these glyphs, whatever separator follows it. -/
def Shown (text : String) (glyphs : List Glyph) : Prop :=
  ∀ rest, Stops isLetter rest → split [] (text.toList ++ rest) = glyphs ++ split [] rest

theorem Shown.split {text : String} {glyphs : List Glyph} (h : Shown text glyphs)
    (stops : Stops isLetter rest) : split [] (text.toList ++ rest) = glyphs ++ split [] rest :=
  h rest stops

theorem shown_word {text : String} (h : IsWord text) : Shown text [.word text] :=
  fun _ stops => split_word h stops

end Glyph

/-- A symbolic expression: a word or a list of such expressions. -/
inductive SExpr where
  | word (text : String)
  | list (items : List SExpr)

namespace SExpr

mutual

@[simp] def glyphs : SExpr → List Glyph
  | word text => [.word text]
  | list items => .opening :: (glyphsAll items ++ [.closing])

@[simp] def glyphsAll : List SExpr → List Glyph
  | [] => []
  | e :: es => e.glyphs ++ glyphsAll es

end

/-- The glyphs of an expression do not start with a closing parenthesis. -/
theorem glyphs_ne_closing (e : SExpr) (rest rest' : List Glyph) :
    e.glyphs ++ rest ≠ .closing :: rest' := by
  cases e <;> rintro ⟨⟩

mutual

/-- Where a text starts with the glyphs of an expression, it starts with those of no other. -/
theorem glyphs_unambiguous (e e' : SExpr) {rest rest' : List Glyph}
    (h : e.glyphs ++ rest = e'.glyphs ++ rest') : e = e' ∧ rest = rest' := by
  cases e with
  | word text =>
    cases e' with
    | word text' =>
      cases h
      exact ⟨rfl, rfl⟩
    | list items' => cases h
  | list items =>
    cases e' with
    | word text' => cases h
    | list items' =>
      simp only [glyphs, List.cons_append, List.append_assoc, List.cons.injEq, true_and] at h
      obtain ⟨rfl, same⟩ := glyphsAll_unambiguous items items' h
      exact ⟨rfl, same⟩

theorem glyphsAll_unambiguous (es es' : List SExpr) {rest rest' : List Glyph}
    (h : glyphsAll es ++ .closing :: rest = glyphsAll es' ++ .closing :: rest') :
    es = es' ∧ rest = rest' := by
  cases es with
  | nil =>
    cases es' with
    | nil =>
      cases h
      exact ⟨rfl, rfl⟩
    | cons e' es' =>
      rw [glyphsAll, glyphsAll, List.append_assoc] at h
      exact absurd h.symm (glyphs_ne_closing _ _ _)
  | cons e es =>
    cases es' with
    | nil =>
      rw [glyphsAll, glyphsAll, List.append_assoc] at h
      exact absurd h (glyphs_ne_closing _ _ _)
    | cons e' es' =>
      rw [glyphsAll, glyphsAll, List.append_assoc, List.append_assoc] at h
      obtain ⟨rfl, rest_eq⟩ := glyphs_unambiguous e e' h
      obtain ⟨rfl, same⟩ := glyphsAll_unambiguous es es' rest_eq
      exact ⟨rfl, same⟩

end

end SExpr

end Lox
