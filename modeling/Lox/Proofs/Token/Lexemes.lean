import Lox.Proofs.Token.LongestMatch

/-!
# Lexemes and kinds

The lexeme of a token that was cut from a source has a form, and the kind of the token is the one
that this form denotes. So the lexeme decides the kind, and the kind of a symbol or of a keyword
decides the lexeme.
-/
namespace Lox

open Scan (Shaped Denotes)

/-- A token as it is cut from a source. -/
def Token.Cut (t : Token) : Prop :=
  ∃ form text, t.lexeme = String.ofList text ∧ Shaped form text ∧ Denotes ⟨form, text⟩ t.kind

namespace Scan

theorem Front.cut {p : Piece} {cs : List Char} {line : Nat} {t : Token} (h : Front p cs)
    (told : p.item? line = some (.ok t)) : t.Cut := by
  have tells := tells_item? h line
  rw [told] at tells
  cases tells with
  | token denotes =>
    cases h with
    | shaped longest => exact ⟨p.form, p.text, rfl, longest.shaped, denotes⟩
    | openString | unknown => cases denotes

theorem Cuts.cut {cs : List Char} {ps : List Piece} (h : Cuts cs ps) (line : Nat) {t : Token}
    (ht : t ∈ okOnly (items line ps)) (inner : t.kind ≠ .endOfInput) : t.Cut := by
  induction h generalizing line with
  | nil =>
    cases List.mem_singleton.mp ht
    exact absurd rfl inner
  | @cons p rest ps front _ ih =>
    rw [items] at ht
    split at ht
    · next item hi =>
      cases item with
      | error f => exact ih _ ht
      | ok first =>
        rcases List.mem_cons.mp ht with rfl | ht
        · exact front.cut hi
        · exact ih _ ht
    · exact ih _ ht

end Scan

/-- Every token of a source but the end of input is cut from it. -/
theorem cut_of_scan {source : String} {t : Token} (ht : t ∈ okOnly (scan source))
    (inner : t.kind ≠ .endOfInput) : t.Cut :=
  (Scan.cuts_pieces source.toList).cut 1 ht inner

/-! ## The lexeme of a kind -/

namespace Token.Cut

variable {t : Token}

theorem identifier (h : t.Cut) (kind : t.kind = .identifier) :
    Shaped .word t.lexeme.toList ∧ t.Plain := by
  obtain ⟨form, text, lexeme, shaped, denotes⟩ := h
  rw [kind] at denotes
  cases denotes with
  | identifier plain =>
    rw [lexeme, String.toList_ofList, Token.Plain, lexeme]
    exact ⟨shaped, plain⟩

theorem symbol {s : Symbol} (h : t.Cut) (kind : t.kind = .symbol s) :
    t.lexeme.toList = s.spelling := by
  obtain ⟨form, text, lexeme, shaped, denotes⟩ := h
  rw [kind] at denotes
  cases denotes with
  | symbol =>
    cases shaped with
    | symbol => rw [lexeme, String.toList_ofList]

theorem keyword {k : Keyword} (h : t.Cut) (kind : t.kind = .keyword k) : t.lexeme = k.text := by
  obtain ⟨form, text, lexeme, shaped, denotes⟩ := h
  rw [kind] at denotes
  cases denotes with
  | keyword spelled => exact lexeme.trans spelled

theorem number {v : Float} (h : t.Cut) (kind : t.kind = .number v) :
    Shaped .number t.lexeme.toList ∧ v = Scan.numberValue t.lexeme.toList := by
  obtain ⟨form, text, lexeme, shaped, denotes⟩ := h
  rw [kind] at denotes
  cases denotes with
  | number =>
    rw [lexeme, String.toList_ofList]
    exact ⟨shaped, rfl⟩

end Token.Cut

/-! ## The kind of a lexeme -/

theorem Keyword.text_injective {k k' : Keyword} (h : k.text = k'.text) : k = k' := by
  have all : ∀ k ∈ Keyword.all, ∀ k' ∈ Keyword.all, k.text = k'.text → k = k' := by decide
  exact all k k.mem_all k' k'.mem_all h

theorem Scan.Denotes.unique {p : Piece} {kind kind' : TokenKind} (h : Denotes p kind)
    (h' : Denotes p kind') : kind = kind' := by
  cases h with
  | symbol | number =>
    cases h'
    rfl
  | keyword spelled =>
    cases h' with
    | keyword spelled' => rw [Keyword.text_injective (spelled.symm.trans spelled')]
    | identifier plain => exact absurd spelled (plain _)
  | identifier plain =>
    cases h' with
    | keyword spelled => exact absurd spelled (plain _)
    | identifier => rfl
  | @string body =>
    generalize whole : '"' :: (body ++ ['"']) = text at h'
    cases h' with
    | @string body' => rw [List.append_cancel_right (List.cons.inj whole).2]

theorem Token.Cut.kind_eq {t t' : Token} (h : t.Cut) (h' : t'.Cut) (same : t.lexeme = t'.lexeme) :
    t.kind = t'.kind := by
  obtain ⟨form, text, lexeme, shaped, denotes⟩ := h
  obtain ⟨form', text', lexeme', shaped', denotes'⟩ := h'
  obtain rfl : text = text' := String.ofList_injective (lexeme.symm.trans (same.trans lexeme'))
  obtain rfl := shaped.unique shaped'
  exact denotes.unique denotes'

end Lox
