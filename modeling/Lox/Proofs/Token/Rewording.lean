import Lox.Proofs.Token.Joining

/-!
# Sources with words replaced

Where a word stands in a source another one can be written in its place. All other pieces stay, for
a letter stops them just like any other letter does, and so do the lines of all tokens.
-/
namespace Lox

theorem Keyword.ofText?_of_plain {word : String} (plain : Plain word) : ofText? word = none :=
  List.find?_eq_none.mpr fun k _ same => plain k (of_decide_eq_true same).symm

/-- A token that stays, or an identifier that is spelled differently. -/
def Token.Respelled (x y : String) (t t' : Token) : Prop :=
  t' = t ∨ t.kind = .identifier ∧ t.lexeme = x ∧ t' = { t with lexeme := y }

namespace Scan

/-- A piece that stays, or a word that is replaced. -/
def Reworded (x y : List Char) (p p' : Piece) : Prop :=
  p' = p ∨ p = ⟨.word, x⟩ ∧ p' = ⟨.word, y⟩

/-! ## Words -/

section
variable {c d : Char} {cs ds rest : List Char}

theorem not_blank_of_wordStart (h : isWordStart c = true) : isBlank c = false := by
  have letter := start_letter ((letter_iff c).mpr h)
  by_contra blank
  rw [Bool.not_eq_false] at blank
  rw [start, if_pos blank] at letter
  cases letter

theorem isWordPart_of_wordStart (h : isWordStart c = true) : isWordPart c = true :=
  (wordPart_iff c).mp (.inl ((letter_iff c).mpr h))

theorem not_digit_of_wordStart (h : isWordStart c = true) : c.isDigit = false := by
  have letter := start_letter ((letter_iff c).mpr h)
  by_contra digit
  rw [Bool.not_eq_false] at digit
  rw [start_digit ((digit_iff c).mpr digit)] at letter
  cases letter

theorem ne_of_wordStart (h : isWordStart c = true) (other : isWordStart d = false) : c ≠ d := by
  rintro rfl
  rw [h] at other
  cases other

theorem cut_word (first : isWordStart d = true) (inside : ∀ e ∈ ds, isWordPart e = true)
    (stop : Stops isWordPart rest) : cut d (ds ++ rest) = (⟨.word, d :: ds⟩, rest) := by
  rw [cut, not_blank_of_wordStart first, first]
  simp only [if_true, Bool.false_eq_true, if_false, takeWhile_of_stops inside stop,
    dropWhile_of_stops inside stop]

/-- The first character of a word is a letter, and no more of the word follows. -/
theorem of_cut_word (h : (cut c cs).1.form = .word) :
    isWordStart c = true ∧ Stops isWordPart (cut c cs).2 := by
  have front := front_cut c cs
  generalize hp : (cut c cs).1 = p at front h
  cases front with
  | openString | unknown => cases h
  | shaped longest =>
    obtain ⟨form, text⟩ := p
    cases h
    cases longest.shaped with
    | word first inside =>
      obtain ⟨rfl, _⟩ := List.cons_prefix_cons.mp longest.front
      have first := (letter_iff _).mp first
      refine ⟨first, ?_⟩
      rw [cut, not_blank_of_wordStart first, first]
      exact stops_dropWhile _ _

theorem cut_text (c : Char) (cs : List Char) :
    (cut c cs).1.text = c :: (cut c cs).1.text.tail := by
  have whole : (cut c cs).1.text ++ (cut c cs).2 =
      (c :: (cut c cs).1.text.tail) ++ (cut c cs).2 := by
    rw [cut_append, List.cons_append, cut_tail]
  exact List.append_cancel_right whole

theorem cut_point (cs : List Char) : cut '.' cs = (⟨.symbol .dot, ['.']⟩, cs) := by
  rw [cut_of_other (by decide) (by decide) (by decide) (by decide)]
  exact cutSymbol_single nofun nofun

/-- A word as characters. -/
theorem word_of_shaped (h : Shaped .word ds) : ∃ d es, ds = d :: es ∧ isWordStart d = true ∧
    ∀ e ∈ es, isWordPart e = true := by
  cases h with
  | word first inside =>
    exact ⟨_, _, rfl, (letter_iff _).mp first, fun e he => (wordPart_iff e).mp (inside e he)⟩

theorem count_newline_of_shaped (h : Shaped .word ds) : ds.count '\n' = 0 := by
  obtain ⟨d, es, rfl, first, inside⟩ := word_of_shaped h
  refine List.count_eq_zero.mpr fun newline => ?_
  rcases List.mem_cons.mp newline with rfl | newline
  · cases first
  · cases inside _ newline

end

/-! ## Pieces -/

section
variable {x y cs : List Char} {ps : List Piece}

/-- What does not tell letters apart stops at the new text as at the old one. -/
theorem stops_reworded {q : Char → Bool} {b : Bool} (same : ∀ c, isWordStart c = true → q c = b)
    (shaped : Shaped .word y) (h : List.Forall₂ (Reworded x y) (pieces cs) ps)
    (stop : Stops q cs) : Stops q (ps.flatMap Piece.text) := by
  cases cs with
  | nil =>
    rw [pieces] at h
    cases h
    exact stop
  | cons c cs =>
    have front := stop c rfl
    rw [pieces] at h
    cases h with
    | @cons _ p' _ ps' first rest =>
      rw [List.flatMap_cons]
      rcases first with rfl | ⟨hp, rfl⟩
      · rw [cut_text]
        rintro _ ⟨⟩
        exact front
      · obtain ⟨d, es, rfl, letter, _⟩ := word_of_shaped shaped
        rintro _ ⟨⟩
        rw [same d letter, ← same c (of_cut_word (by rw [hp])).1]
        exact front

theorem fraction_reworded (shaped : Shaped .word y)
    (h : List.Forall₂ (Reworded x y) (pieces cs) ps) (fraction : Fraction (ps.flatMap Piece.text)) :
    Fraction cs := by
  obtain ⟨d, ds, text, digit⟩ := fraction
  cases cs with
  | nil =>
    rw [pieces] at h
    cases h
    cases text
  | cons c cs =>
    rw [pieces] at h
    cases h with
    | @cons _ p' _ ps' first rest =>
      rw [List.flatMap_cons] at text
      rcases first with rfl | ⟨_, rfl⟩
      · rw [cut_text] at text
        obtain rfl : c = '.' := (List.cons.inj text).1
        rw [cut_point] at text rest
        have after : ps'.flatMap Piece.text = d :: ds := (List.cons.inj text).2
        by_cases stop : Stops Char.isDigit cs
        · have found : d.isDigit = false := stops_reworded (fun _ hc => not_digit_of_wordStart hc) shaped rest stop d (by rw [after]; rfl)
          rw [digit] at found
          cases found
        · cases cs with
          | nil => exact absurd (by rintro _ ⟨⟩) stop
          | cons e es =>
            refine ⟨e, es, rfl, ?_⟩
            by_contra other
            refine stop fun _ he => ?_
            cases he
            exact Bool.eq_false_iff.mpr other
      · obtain ⟨e, es, rfl, letter, _⟩ := word_of_shaped shaped
        obtain rfl : e = '.' := (List.cons.inj text).1
        cases letter

theorem continues_reworded (shaped : Shaped .word y)
    (h : List.Forall₂ (Reworded x y) (pieces cs) ps) : Continues cs (ps.flatMap Piece.text) where
  word := stops_reworded (fun _ hc => isWordPart_of_wordStart hc) shaped h
  digit := stops_reworded (fun _ hc => not_digit_of_wordStart hc) shaped h
  line := stops_reworded (fun _ hc => decide_eq_true (ne_of_wordStart hc rfl)) shaped h
  equal := stops_reworded (fun _ hc => decide_eq_false (ne_of_wordStart hc rfl)) shaped h
  slash := stops_reworded (fun _ hc => decide_eq_false (ne_of_wordStart hc rfl)) shaped h
  fraction none fraction := none (fraction_reworded shaped h fraction)

/-- A text is cut into the same pieces, the words replaced. -/
theorem pieces_reworded (shaped : Shaped .word y) (closed : ∀ p ∈ pieces cs, p.form ≠ .openString)
    (h : List.Forall₂ (Reworded x y) (pieces cs) ps) : pieces (ps.flatMap Piece.text) = ps := by
  induction cs using pieces.induct generalizing ps with
  | case1 =>
    rw [pieces] at h
    cases h
    rw [List.flatMap_nil, pieces]
  | case2 c cs ih =>
    rw [pieces] at h closed
    have closed := List.forall_mem_cons.mp closed
    cases h with
    | @cons _ p' _ ps' first rest =>
      have continues := continues_reworded shaped rest
      rw [List.flatMap_cons]
      rcases first with rfl | ⟨hp, rfl⟩
      · rw [cut_text, List.cons_append, pieces, cut_continues continues closed.1, ih closed.2 rest]
      · obtain ⟨d, es, rfl, letter, inside⟩ := word_of_shaped shaped
        have stop := continues.word (of_cut_word (by rw [hp])).2
        rw [List.cons_append, pieces, cut_word letter inside stop, ih closed.2 rest]

theorem Cuts.shaped_word (h : Cuts cs ps) : ∀ p ∈ ps, p.form = .word → Shaped .word p.text := by
  induction h with
  | nil => exact fun _ hp => nomatch hp
  | @cons p rest ps front _ ih =>
    refine List.forall_mem_cons.mpr ⟨fun hw => ?_, ih⟩
    generalize p.text ++ rest = cs at front
    cases front with
    | shaped longest => exact hw ▸ longest.shaped
    | openString | unknown => cases hw

/-! ## Tokens -/

theorem item?_word {y : String} (plain : Plain y) (line : Nat) :
    (⟨.word, y.toList⟩ : Piece).item? line = some (.ok ⟨.identifier, y, line⟩) := by
  have text : String.ofList y.toList = y := String.ofList_toList
  simp only [Piece.item?, wordKind, text, Keyword.ofText?_of_plain plain]

theorem word_of_item? {p : Piece} {line : Nat} {t : Token} (h : p.item? line = some (.ok t))
    (identifier : t.kind = .identifier) : p = ⟨.word, t.lexeme.toList⟩ ∧ t.line = line := by
  obtain ⟨form, text⟩ := p
  cases form with
  | word =>
    cases h
    exact ⟨by rw [String.toList_ofList], rfl⟩
  | blank | comment | openString | unknown => cases h
  | symbol | number | string =>
    cases h
    cases identifier

/-- Words are replaced in the pieces for the tokens that are to be spelled differently. -/
theorem exists_reworded {x y : String} (shaped : Shaped .word y.toList) (plain : Plain y)
    {line : Nat} {ps : List Piece} (words : ∀ p ∈ ps, p.form = .word → Shaped .word p.text)
    (clean : errorsOnly (items line ps) = []) {ts : List Token}
    (h : List.Forall₂ (Token.Respelled x y) (okOnly (items line ps)) ts) :
    ∃ ps', List.Forall₂ (Reworded x.toList y.toList) ps ps' ∧ okOnly (items line ps') = ts ∧
      errorsOnly (items line ps') = [] := by
  induction ps generalizing line ts with
  | nil =>
    refine ⟨[], .nil, ?_, rfl⟩
    cases h with
    | cons first rest =>
      cases rest
      rcases first with rfl | ⟨identifier, _⟩
      · rfl
      · cases identifier
  | cons p ps ih =>
    have words := List.forall_mem_cons.mp words
    rw [items] at clean h
    cases hi : p.item? (line + p.text.count '\n') with
    | none =>
      rw [hi] at clean h
      obtain ⟨ps', reworded, tokens, clean'⟩ := ih words.2 clean h
      refine ⟨p :: ps', .cons (.inl rfl) reworded, ?_, ?_⟩
      · rw [items, hi]
        exact tokens
      · rw [items, hi]
        exact clean'
    | some item =>
      rw [hi] at clean h
      cases item with
      | error f => cases clean
      | ok t =>
        cases h with
        | @cons _ t' _ ts first rest =>
          obtain ⟨ps', reworded, tokens, clean'⟩ := ih words.2 clean rest
          rcases first with rfl | ⟨identifier, rfl, rfl⟩
          · refine ⟨p :: ps', .cons (.inl rfl) reworded, ?_, ?_⟩
            · rw [items, hi]
              exact congrArg (List.cons t') tokens
            · rw [items, hi]
              exact clean'
          · obtain ⟨hp, here⟩ := word_of_item? hi identifier
            -- Neither word has a line break.
            have same : line + p.text.count '\n' = line + y.toList.count '\n' := by
              rw [count_newline_of_shaped (words.1 (by rw [hp])), count_newline_of_shaped shaped]
            refine ⟨⟨.word, y.toList⟩ :: ps', .cons (.inr ⟨hp, rfl⟩) reworded, ?_, ?_⟩
            · have token : { t with lexeme := y } =
                  (⟨.identifier, y, line + p.text.count '\n'⟩ : Token) := by rw [identifier, here]
              rw [items, item?_word plain, ← same, token]
              exact congrArg (List.cons _) tokens
            · rw [items, item?_word plain, ← same]
              exact clean'

end

end Scan

/-- A source with some of its words replaced. -/
def Rewords (x y : String) (source source' : String) : Prop :=
  List.Forall₂ (Scan.Reworded x.toList y.toList) (Scan.pieces source.toList)
    (Scan.pieces source'.toList)

/-- An identifier that is no keyword. -/
structure Identifier (y : String) : Prop where
  shaped : Scan.Shaped .word y.toList
  plain : Plain y

/-- Some identifiers of a source can be spelled differently. -/
theorem exists_rewords {x y source : String} (identifier : Identifier y)
    (clean : errorsOnly (scan source) = []) {ts : List Token}
    (h : List.Forall₂ (Token.Respelled x y) (okOnly (scan source)) ts) :
    ∃ source', Rewords x y source source' ∧ okOnly (scan source') = ts ∧
      errorsOnly (scan source') = [] := by
  have cuts := Scan.cuts_pieces source.toList
  obtain ⟨ps, reworded, tokens, errors⟩ :=
    Scan.exists_reworded identifier.shaped identifier.plain cuts.shaped_word clean h
  have again := Scan.pieces_reworded identifier.shaped (Scan.closed_of_errorsOnly clean) reworded
  refine ⟨String.ofList (ps.flatMap Scan.Piece.text), ?_, ?_, ?_⟩
  · rw [Rewords, String.toList_ofList, again]
    exact reworded
  · rw [scan, String.toList_ofList, again]
    exact tokens
  · rw [scan, String.toList_ofList, again]
    exact errors

end Lox
