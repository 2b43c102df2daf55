import Mathlib
import Lox.Proofs.Token.Rewording

/-!
# Tokens set apart anew

The tokens of a source can be written down again with other blanks and comments between them. They
are scanned as the same tokens, for what follows each of them stops it. The one exception is a slash
right before a comment, which then starts at this slash.
-/
namespace Lox

namespace Scan

/-! ## Trivia -/

/-- Blanks, and comments with the line break after each. -/
inductive Trivia : List Char → Prop where
  | nothing : Trivia []
  | blank {c : Char} {cs : List Char} (listed : c ∈ [' ', '\t', '\r', '\n']) (more : Trivia cs) :
      Trivia (c :: cs)
  | comment {body cs : List Char} (inside : '\n' ∉ body) (more : Trivia cs) :
      Trivia ('/' :: '/' :: body ++ '\n' :: cs)

theorem isBlank_of_mem {c : Char} (h : c ∈ [' ', '\t', '\r', '\n']) : isBlank c = true := by
  simp only [List.mem_cons, List.not_mem_nil, or_false] at h
  rcases h with rfl | rfl | rfl | rfl <;> rfl

/-- A comment is cut before the line break that ends it. -/
theorem cut_comment {body : List Char} (inside : '\n' ∉ body) (rest : List Char) :
    cut '/' ('/' :: body ++ '\n' :: rest) = (⟨.comment, '/' :: '/' :: body⟩, '\n' :: rest) := by
  have within : ∀ d ∈ '/' :: body, decide (d ≠ '\n') = true := by
    refine List.forall_mem_cons.mpr ⟨rfl, fun d hd => decide_eq_true ?_⟩
    rintro rfl
    exact inside hd
  have stop : Stops (· ≠ '\n') ('\n' :: rest) := by
    rintro _ ⟨⟩
    rfl
  have text := takeWhile_of_stops within stop
  have left := dropWhile_of_stops within stop
  rw [cut_of_other (by decide) (by decide) (by decide) (by decide)]
  show cutSymbol '/' .slash ('/' :: (body ++ '\n' :: rest)) = _
  rw [cutSymbol_comment]
  exact Prod.ext (congrArg (fun text => Piece.mk .comment ('/' :: text)) text) left

/-- Trivia say nothing, and only their line breaks count. -/
theorem items_trivia {gap : List Char} (h : Trivia gap) (line : Nat) (rest : List Char) :
    items line (pieces (gap ++ rest)) = items (line + gap.count '\n') (pieces rest) := by
  induction h generalizing line with
  | nothing => rfl
  | @blank c cs listed _ ih =>
    have piece : cut c (cs ++ rest) = (⟨.blank, [c]⟩, cs ++ rest) := by
      rw [cut, if_pos (isBlank_of_mem listed)]
    have line' : line + [c].count '\n' + cs.count '\n' = line + (c :: cs).count '\n' := by
      rw [Nat.add_assoc, ← List.count_append, List.singleton_append]
    rw [List.cons_append, pieces, piece, items]
    show items (line + [c].count '\n') _ = _
    rw [ih, line']
  | @comment body cs inside _ ih =>
    have newline : cut '\n' (cs ++ rest) = (⟨.blank, ['\n']⟩, cs ++ rest) := rfl
    have piece := cut_comment inside (cs ++ rest)
    have none : ('/' :: '/' :: body).count '\n' = 0 :=
      List.count_eq_zero.mpr (by simpa using inside)
    have line' : line + 1 + cs.count '\n' =
        line + ('/' :: '/' :: body ++ '\n' :: cs).count '\n' := by
      rw [List.count_append, none, List.count_cons_self]
      omega
    have text : '/' :: '/' :: body ++ '\n' :: cs ++ rest =
        '/' :: ('/' :: body ++ '\n' :: (cs ++ rest)) := by
      simp
    rw [text, pieces, piece, items, pieces, newline]
    show items (line + ('/' :: '/' :: body).count '\n') _ = _
    rw [none, Nat.add_zero, items]
    show items (line + 1) _ = _
    rw [ih, line']

/-! ## Tokens before trivia -/

/-- What is at the front ends a piece of this form: nothing more, a blank, or a comment unless the
piece is a slash. -/
def Ends (form : Form) (rest : List Char) : Prop :=
  ∀ c ∈ rest.head?, isBlank c = true ∨ c = '/' ∧ form ≠ .symbol .slash

section
variable {form : Form} {text rest : List Char}

theorem Ends.stops {p : Char → Bool} (h : Ends form rest)
    (outside : [' ', '\r', '\t', '\n', '/'].any p = false) : Stops p rest := by
  intro c hc
  refine Bool.eq_false_iff.mpr (List.any_eq_false.mp outside c ?_)
  rcases h c hc with blank | ⟨rfl, _⟩
  · simp only [isBlank, Bool.or_eq_true, decide_eq_true_eq] at blank
    simp only [List.mem_cons, List.not_mem_nil, or_false]
    tauto
  · decide

theorem Ends.no_fraction (h : Ends form rest) : ¬Fraction rest := by
  rintro ⟨d, ds, rfl, _⟩
  rcases h '.' rfl with blank | ⟨slash, _⟩
  · cases blank
  · cases slash

theorem Ends.no_comment (h : Ends (.symbol .slash) rest) : Stops (· = '/') rest := by
  intro c hc
  rcases h c hc with blank | ⟨_, other⟩
  · refine decide_eq_false ?_
    rintro rfl
    cases blank
  · exact absurd rfl other

/-- A symbol is one character, or one that an equals sign joins. -/
theorem spelling_cases (s : Symbol) : ∃ c u, symbol? c = some u ∧
    (s.spelling = [c] ∧ s = u ∨ s.spelling = [c, '='] ∧ withEqual? u = some s) := by
  cases s with
  | bangEqual => exact ⟨'!', .bang, rfl, .inr ⟨rfl, rfl⟩⟩
  | equalEqual => exact ⟨'=', .equal, rfl, .inr ⟨rfl, rfl⟩⟩
  | greaterEqual => exact ⟨'>', .greater, rfl, .inr ⟨rfl, rfl⟩⟩
  | lessEqual => exact ⟨'<', .less, rfl, .inr ⟨rfl, rfl⟩⟩
  | _ =>
    refine ⟨_, _, ?_, .inl ⟨rfl, rfl⟩⟩
    rfl

theorem cut_of_symbol? {c : Char} {s : Symbol} (h : symbol? c = some s) (cs : List Char) :
    cut c cs = cutSymbol c s cs := by
  have other : ¬isBlank c = true ∧ ¬isWordStart c = true ∧ ¬c.isDigit = true ∧ c ≠ '"' := by
    unfold symbol? at h
    split at h <;> first | exact (by decide) | cases h
  rw [cut_of_other other.1 other.2.1 other.2.2.1 other.2.2.2, h]

theorem cut_of_digit {c : Char} (h : c.isDigit = true) (cs : List Char) :
    cut c cs = (⟨.number, c :: (cutNumber cs).1⟩, (cutNumber cs).2) := by
  have first := start_digit ((digit_iff c).mpr h)
  rw [start] at first
  rw [cut]
  split
  · next blank => simp [blank] at first
  split
  · next blank letter => simp [blank, letter] at first
  · rfl

/-- A text of some form is cut from what ends it. -/
theorem cut_shaped {c : Char} {cs : List Char} (h : Shaped form (c :: cs)) (ends : Ends form rest)
    (told : form ≠ .comment) : cut c (cs ++ rest) = (⟨form, c :: cs⟩, rest) := by
  generalize ht : c :: cs = text at h
  cases h with
  | blank listed =>
    cases ht
    rw [List.nil_append, cut, if_pos]
    refine isBlank_of_mem ?_
    simp only [List.mem_cons, List.not_mem_nil, or_false] at listed ⊢
    tauto
  | comment => exact absurd rfl told
  | symbol s =>
    obtain ⟨d, u, hu, ⟨spelled, rfl⟩ | ⟨spelled, joins⟩⟩ := spelling_cases s
    · rw [spelled] at ht ⊢
      cases ht
      rw [cut_of_symbol? hu, List.nil_append]
      refine cutSymbol_single ?_ fun _ => ends.stops (by decide)
      rintro rfl
      exact ends.no_comment
    · rw [spelled] at ht ⊢
      cases ht
      rw [cut_of_symbol? hu]
      exact cutSymbol_joined _ joins rest
  | word first inside =>
    cases ht
    exact cut_word ((letter_iff _).mp first) (fun d hd => (wordPart_iff d).mp (inside d hd))
      (ends.stops (by decide))
  | whole digits =>
    cases ht
    have digits : ∀ d ∈ c :: cs, d.isDigit = true := fun d hd => (digit_iff d).mp (digits d hd)
    obtain ⟨first, digits⟩ := List.forall_mem_cons.mp digits
    rw [cut_of_digit first, cutNumber_whole digits (ends.stops (by decide)) ends.no_fraction]
  | @fraction _ d body more digits decimals =>
    cases ht
    have digits : ∀ e ∈ c :: body, e.isDigit = true := fun e he => (digit_iff e).mp (digits e he)
    have decimals : ∀ e ∈ d :: more, e.isDigit = true :=
      fun e he => (digit_iff e).mp (decimals e he)
    obtain ⟨first, digits⟩ := List.forall_mem_cons.mp digits
    obtain ⟨point, decimals⟩ := List.forall_mem_cons.mp decimals
    have number := cutNumber_fraction digits point decimals (ends.stops (by decide))
    show cut c (body ++ '.' :: d :: more ++ rest) = _
    rw [cut_of_digit first, number]
    rfl
  | @string body inside =>
    cases ht
    rw [List.append_assoc, List.singleton_append]
    refine cut_string fun d hd => ?_
    rintro rfl
    exact inside hd

end

/-- What a token of a source is cut from: a text of a form that is this token on every line. -/
def CutFrom (t : Token) (form : Form) : Prop :=
  Shaped form t.lexeme.toList ∧ form ≠ .comment ∧
    (form = .symbol .slash → t.kind = .symbol .slash) ∧
      ∀ line, (⟨form, t.lexeme.toList⟩ : Piece).item? line = some (.ok { t with line })

theorem cutFrom_of_item? {p : Piece} {cs : List Char} {line : Nat} {t : Token} (front : Front p cs)
    (h : p.item? line = some (.ok t)) : CutFrom t p.form := by
  cases front with
  | openString | unknown => cases h
  | shaped longest =>
    obtain ⟨form, text⟩ := p
    have shaped : Shaped form text := longest.shaped
    have chars : (String.ofList text).toList = text := String.toList_ofList
    cases form with
    | blank | comment | openString | unknown => cases h
    | symbol s =>
      cases h
      rw [CutFrom, chars]
      exact ⟨shaped, nofun, fun slash => congrArg TokenKind.symbol (Form.symbol.inj slash),
        fun _ => rfl⟩
    | word | number | string =>
      cases h
      rw [CutFrom, chars]
      exact ⟨shaped, nofun, nofun, fun _ => rfl⟩

theorem exists_cutFrom {cs : List Char} {ps : List Piece} (cuts : Cuts cs ps) (line : Nat) :
    ∀ t ∈ okOnly (items line ps), t.kind ≠ .endOfInput → ∃ form, CutFrom t form := by
  induction cuts generalizing line with
  | nil =>
    intro t ht inner
    cases List.mem_singleton.mp ht
    exact absurd rfl inner
  | @cons p rest ps front _ ih =>
    intro t ht inner
    rw [items] at ht
    split at ht
    · next item hi =>
      cases item with
      | error f => exact ih _ t ht inner
      | ok first =>
        rcases List.mem_cons.mp ht with rfl | ht
        · exact ⟨_, cutFrom_of_item? front hi⟩
        · exact ih _ t ht inner
    · exact ih _ t ht inner

/-- A token is scanned again before what ends it. -/
theorem items_token {t : Token} {form : Form} (h : CutFrom t form) {rest : List Char}
    (ends : Ends form rest) (line : Nat) :
    items line (pieces (t.lexeme.toList ++ rest)) =
      .ok { t with line := line + t.lexeme.toList.count '\n' } ::
        items (line + t.lexeme.toList.count '\n') (pieces rest) := by
  obtain ⟨shaped, told, _, item⟩ := h
  generalize t.lexeme.toList = text at shaped item
  cases text with
  | nil => exact absurd rfl shaped.ne_nil
  | cons c cs => rw [List.cons_append, pieces, cut_shaped shaped ends told, items, item]

end Scan

/-! ## Texts of tokens -/

/-- Tokens, each with what follows it, written one after another. -/
def spacedText (spaced : List (Token × List Char)) : List Char :=
  spaced.flatMap fun p => p.1.lexeme.toList ++ p.2

/-- The tokens with their lines in a text that goes on after `before`. -/
def relined (before : List Char) : List (Token × List Char) → List Token
  | [] => []
  | (t, gap) :: rest =>
    let upTo := before ++ t.lexeme.toList
    { t with line := 1 + upTo.count '\n' } :: relined (upTo ++ gap) rest

namespace Scan

theorem Trivia.head {gap : List Char} (h : Trivia gap) :
    ∀ c ∈ gap.head?, isBlank c = true ∨ c = '/' := by
  intro c hc
  cases h with
  | nothing => cases hc
  | blank listed =>
    cases hc
    exact .inl (isBlank_of_mem listed)
  | comment =>
    cases hc
    exact .inr rfl

/-- Trivia end a token, unless it is a slash and a comment comes next. -/
theorem ends_trivia {t : Token} {form : Form} (h : CutFrom t form) {gap rest : List Char}
    (trivia : Trivia gap) (apart : gap = [] → rest = [])
    (uncommented : t.kind = .symbol .slash → gap.head? ≠ some '/') : Ends form (gap ++ rest) := by
  obtain ⟨_, _, slash, _⟩ := h
  intro c hc
  cases gap with
  | nil =>
    rw [apart rfl] at hc
    cases hc
  | cons d gap =>
    refine (trivia.head c hc).imp_right fun here => ⟨here, fun hs => ?_⟩
    subst here
    exact uncommented (slash hs) hc

theorem items_spaced {spaced : List (Token × List Char)}
    (tokens : ∀ p ∈ spaced, ∃ form, CutFrom p.1 form) (trivia : ∀ p ∈ spaced, Trivia p.2)
    (apart : ∀ p ∈ spaced.dropLast, p.2 ≠ [])
    (uncommented : ∀ p ∈ spaced, p.1.kind = .symbol .slash → p.2.head? ≠ some '/')
    (before : List Char) :
    items (1 + before.count '\n') (pieces (spacedText spaced)) =
      (relined before spaced).map .ok ++
        [.ok ⟨.endOfInput, "", 1 + (before ++ spacedText spaced).count '\n'⟩] := by
  induction spaced generalizing before with
  | nil =>
    rw [spacedText, List.flatMap_nil, pieces, items, List.append_nil]
    rfl
  | cons p spaced ih =>
    obtain ⟨t, gap⟩ := p
    obtain ⟨⟨form, from'⟩, tokens⟩ := List.forall_mem_cons.mp tokens
    obtain ⟨trivial, trivia⟩ := List.forall_mem_cons.mp trivia
    obtain ⟨single, uncommented⟩ := List.forall_mem_cons.mp uncommented
    have last : gap = [] → spacedText spaced = [] := by
      cases spaced with
      | nil => exact fun _ => rfl
      | cons q spaced => exact fun none => absurd none (apart _ List.mem_cons_self)
    have apart : ∀ p ∈ spaced.dropLast, p.2 ≠ [] := by
      cases spaced with
      | nil => exact List.forall_mem_nil _
      | cons q spaced => exact fun p hp => apart p (List.mem_cons_of_mem _ hp)
    have rest := ih tokens trivia apart uncommented (before ++ t.lexeme.toList ++ gap)
    have text : spacedText ((t, gap) :: spaced) =
        t.lexeme.toList ++ (gap ++ spacedText spaced) := by
      rw [spacedText, List.flatMap_cons, List.append_assoc]
      rfl
    rw [text, items_token from' (ends_trivia from' trivial last single), items_trivia trivial]
    simp only [List.count_append, ← Nat.add_assoc] at rest ⊢
    rw [rest]
    simp only [relined, List.map_cons, List.cons_append, List.count_append, ← Nat.add_assoc]

end Scan

/-- Trivia before the first token, between each two tokens and after the last one make no difference
to what is scanned but for the lines, if no comment comes right after a slash. Nothing else in the
source is needed for it: faults and old trivia may be left out. -/
theorem respaced_tokens_scanned (source : String) {before : List Char}
    {spaced : List (Token × List Char)}
    (tokens : spaced.map Prod.fst =
      (okOnly (scan source)).filter fun t => decide (t.kind ≠ .endOfInput))
    (leading : Scan.Trivia before) (trivia : ∀ p ∈ spaced, Scan.Trivia p.2)
    (apart : ∀ p ∈ spaced.dropLast, p.2 ≠ [])
    (uncommented : ∀ p ∈ spaced, p.1.kind = .symbol .slash → p.2.head? ≠ some '/') :
    let text := before ++ spacedText spaced
    scan (String.ofList text) =
      (relined before spaced).map .ok ++ [.ok ⟨.endOfInput, "", 1 + text.count '\n'⟩] := by
  intro text
  have cuttable : ∀ p ∈ spaced, ∃ form, Scan.CutFrom p.1 form := by
    intro p hp
    have listed : p.1 ∈ spaced.map Prod.fst := List.mem_map_of_mem hp
    rw [tokens] at listed
    obtain ⟨scanned, inner⟩ := List.mem_filter.mp listed
    exact Scan.exists_cutFrom (Scan.cuts_pieces source.toList) 1 p.1 scanned
      (of_decide_eq_true inner)
  rw [scan, String.toList_ofList, Scan.items_trivia leading]
  exact Scan.items_spaced cuttable trivia apart uncommented before

/-- A string keeps its line break, and a comment and another line come between two tokens. -/
theorem lineBreaks_respaced :
    let source := "print\"x\ny\";"
    let spaced : List (Token × List Char) :=
      [(⟨.keyword .printWord, "print", 1⟩, [' ', '/', '/', 'p', '\n']),
        (⟨.string "x\ny", "\"x\ny\"", 2⟩, ['\n', '\t']), (⟨.symbol .semicolon, ";", 2⟩, [])]
    spaced.map Prod.fst = (okOnly (scan source)).filter (fun t => decide (t.kind ≠ .endOfInput)) ∧
      scan "print //p\n\"x\ny\"\n\t;" =
        [.ok ⟨.keyword .printWord, "print", 1⟩, .ok ⟨.string "x\ny", "\"x\ny\"", 3⟩,
          .ok ⟨.symbol .semicolon, ";", 4⟩, .ok ⟨.endOfInput, "", 4⟩] := by
  intro source spaced
  have tokens : spaced.map Prod.fst =
      (okOnly (scan source)).filter (fun t => decide (t.kind ≠ .endOfInput)) := by
    cbv
  have trivia : ∀ p ∈ spaced, Scan.Trivia p.2 := by
    refine List.forall_mem_cons.mpr ⟨?_, List.forall_mem_cons.mpr ⟨?_, ?_⟩⟩
    · exact .blank (by decide) (.comment (by decide : '\n' ∉ ['p']) .nothing)
    · exact .blank (by decide) (.blank (by decide) .nothing)
    · exact List.forall_mem_cons.mpr ⟨.nothing, List.forall_mem_nil _⟩
  have text : "print //p\n\"x\ny\"\n\t;" = String.ofList ([] ++ spacedText spaced) := rfl
  have scanned := respaced_tokens_scanned source tokens .nothing trivia (by decide) (by decide)
  exact ⟨tokens, (congrArg scan text).trans scanned⟩

/-- A comment right after a slash takes the slash with it. -/
theorem slash_lost_in_comment :
    let source := "a / b"
    let spaced : List (Token × List Char) :=
      [(⟨.identifier, "a", 1⟩, [' ']), (⟨.symbol .slash, "/", 1⟩, ['/', '/', '\n']),
        (⟨.identifier, "b", 1⟩, [])]
    spaced.map Prod.fst = (okOnly (scan source)).filter (fun t => decide (t.kind ≠ .endOfInput)) ∧
      (∀ p ∈ spaced, Scan.Trivia p.2) ∧ (∀ p ∈ spaced.dropLast, p.2 ≠ []) ∧
        scan (String.ofList (spacedText spaced)) =
          [.ok ⟨.identifier, "a", 1⟩, .ok ⟨.identifier, "b", 2⟩, .ok ⟨.endOfInput, "", 2⟩] ∧
        ¬ ∃ (ts : List Token) (last : Token),
          scan (String.ofList (spacedText spaced)) = ts.map .ok ++ [.ok last] ∧
            ts.map (fun t => (t.kind, t.lexeme)) = spaced.map fun p => (p.1.kind, p.1.lexeme) := by
  intro source spaced
  have scanned : scan (String.ofList (spacedText spaced)) =
      [.ok ⟨.identifier, "a", 1⟩, .ok ⟨.identifier, "b", 2⟩, .ok ⟨.endOfInput, "", 2⟩] := by
    cbv
  have tokens : spaced.map Prod.fst =
      (okOnly (scan source)).filter (fun t => decide (t.kind ≠ .endOfInput)) := by
    cbv
  have trivia : ∀ p ∈ spaced, Scan.Trivia p.2 := by
    refine List.forall_mem_cons.mpr ⟨?_, List.forall_mem_cons.mpr ⟨?_, ?_⟩⟩
    · exact .blank (by decide) .nothing
    · exact .comment (by decide : '\n' ∉ []) .nothing
    · exact List.forall_mem_cons.mpr ⟨.nothing, List.forall_mem_nil _⟩
  refine ⟨tokens, trivia, by decide, scanned, ?_⟩
  rintro ⟨ts, last, again, same⟩
  have fewer := congrArg List.length (scanned.symm.trans again)
  have more := congrArg List.length same
  simp [spaced] at fewer more
  omega

end Lox
