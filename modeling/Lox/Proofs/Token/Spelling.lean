import Lox.Token.Scan

/-!
# Spelling of scanned tokens

A token is well spelled if its lexeme fits its kind. Every token that is cut from a source is, and
no identifier among them is a keyword.
-/
namespace Lox

/-- A word that is no keyword. -/
def Plain (word : String) : Prop := ∀ k : Keyword, word ≠ k.text

def Token.Plain (name : Token) : Prop := Lox.Plain name.lexeme

/-- An identifier is one of these names, and a keyword is spelled as one. -/
def Token.Spelled (names : String → Prop) (t : Token) : Prop :=
  (t.kind = .identifier → names t.lexeme) ∧ ∀ k, t.kind = .keyword k → t.lexeme = k.text

theorem Keyword.mem_all (k : Keyword) : k ∈ Keyword.all := by
  cases k <;> decide

theorem Keyword.text_of_ofText? {word : String} {k : Keyword} (h : ofText? word = some k) :
    word = k.text := by
  have hk := List.find?_some h
  simp only [decide_eq_true_eq] at hk
  exact hk.symm

theorem Keyword.ne_text_of_ofText? {word : String} (h : ofText? word = none) (k : Keyword) :
    word ≠ k.text := by
  have hk := List.find?_eq_none.mp h k k.mem_all
  simp only [decide_eq_true_eq] at hk
  exact Ne.symm hk

namespace Scan

theorem spelled_of_item? {p : Piece} {line : Nat} {t : Token} (h : p.item? line = some (.ok t)) :
    t.Spelled Plain := by
  unfold Piece.item? at h
  split at h
  case h_4 =>
    cases h
    unfold wordKind
    split
    · next k hk => exact ⟨nofun, fun k' hk' => by cases hk'; exact Keyword.text_of_ofText? hk⟩
    · next hk => exact ⟨fun _ => Keyword.ne_text_of_ofText? hk, nofun⟩
  all_goals
    cases h
    try exact ⟨nofun, nofun⟩

theorem spelled_items (line : Nat) (ps : List Piece) : ∀ t ∈ okOnly (items line ps), t.Spelled Plain := by
  induction ps generalizing line with
  | nil =>
    intro t ht
    cases List.mem_singleton.mp ht
    exact ⟨nofun, nofun⟩
  | cons p ps ih =>
    intro t ht
    rw [items] at ht
    split at ht
    · next item hi =>
      cases item with
      | error f => exact ih _ t ht
      | ok first =>
        rcases List.mem_cons.mp ht with rfl | ht
        · exact spelled_of_item? hi
        · exact ih _ t ht
    · exact ih _ t ht

end Scan

theorem spelled_scan (source : String) : ∀ t ∈ okOnly (scan source), t.Spelled Plain :=
  Scan.spelled_items 1 _

end Lox
