import Lox.Proofs.Token.Pieces
import Lox.Proofs.Token.Spelling

/-!
# The longest match

`Shaped` lists the forms of the language: blanks, comments, symbols, numbers, words and strings. A
text is cut into pieces, each of which is the longest prefix of what is left that has a form; where
no prefix has one, an open string takes all that is left and any other character stands alone. The
scanner cuts in this way and in no other, and says of each piece what its form says, with the line
on which the piece ends.

The forms are given by characters and do not use the functions that cut.
-/
namespace Lox

/-- How a symbol is written. -/
def Symbol.spelling : Symbol → List Char
  | leftParen => ['(']
  | rightParen => [')']
  | leftBrace => ['{']
  | rightBrace => ['}']
  | comma => [',']
  | dot => ['.']
  | minus => ['-']
  | plus => ['+']
  | semicolon => [';']
  | slash => ['/']
  | star => ['*']
  | bang => ['!']
  | bangEqual => ['!', '=']
  | equal => ['=']
  | equalEqual => ['=', '=']
  | greater => ['>']
  | greaterEqual => ['>', '=']
  | less => ['<']
  | lessEqual => ['<', '=']

namespace Scan

/-! ## Forms -/

def Letter (c : Char) : Prop := 'a' ≤ c ∧ c ≤ 'z' ∨ 'A' ≤ c ∧ c ≤ 'Z' ∨ c = '_'

def Digit (c : Char) : Prop := '0' ≤ c ∧ c ≤ '9'

/-- A text as a whole has a form. -/
inductive Shaped : Form → List Char → Prop where
  | blank {c : Char} (listed : c ∈ [' ', '\r', '\t', '\n']) : Shaped .blank [c]
  | comment {body : List Char} (inside : '\n' ∉ body) : Shaped .comment ('/' :: '/' :: body)
  | symbol (s : Symbol) : Shaped (.symbol s) s.spelling
  | word {c : Char} {body : List Char} (first : Letter c)
      (inside : ∀ d ∈ body, Letter d ∨ Digit d) : Shaped .word (c :: body)
  | whole {c : Char} {body : List Char} (digits : ∀ d ∈ c :: body, Digit d) :
      Shaped .number (c :: body)
  | fraction {c d : Char} {body more : List Char} (digits : ∀ e ∈ c :: body, Digit e)
      (decimals : ∀ e ∈ d :: more, Digit e) : Shaped .number (c :: body ++ '.' :: d :: more)
  | string {body : List Char} (inside : '"' ∉ body) : Shaped .string ('"' :: (body ++ ['"']))

/-- A piece is the longest prefix of a text that has a form. -/
structure Longest (p : Piece) (cs : List Char) : Prop where
  shaped : Shaped p.form p.text
  front : p.text <+: cs
  longest : ∀ form text, Shaped form text → text <+: cs → text.length ≤ p.text.length

def Unshaped (cs : List Char) : Prop := ∀ form text, Shaped form text → ¬text <+: cs

/-- The piece at the front of a text. -/
inductive Front : Piece → List Char → Prop where
  | shaped {p : Piece} {cs : List Char} (longest : Longest p cs) : Front p cs
  | openString {cs : List Char} (unshaped : Unshaped ('"' :: cs)) :
      Front ⟨.openString, '"' :: cs⟩ ('"' :: cs)
  | unknown {c : Char} {cs : List Char} (unshaped : Unshaped (c :: cs)) (other : c ≠ '"') :
      Front ⟨.unknown, [c]⟩ (c :: cs)

/-- A text is cut from its front to its end. -/
inductive Cuts : List Char → List Piece → Prop where
  | nil : Cuts [] []
  | cons {p : Piece} {rest : List Char} {ps : List Piece} (front : Front p (p.text ++ rest))
      (more : Cuts rest ps) : Cuts (p.text ++ rest) (p :: ps)

/-! ## What a piece says -/

/-- The kind of token that a piece is. -/
inductive Denotes : Piece → TokenKind → Prop where
  | symbol (s : Symbol) {text : List Char} : Denotes ⟨.symbol s, text⟩ (.symbol s)
  | keyword {text : List Char} {k : Keyword} (spelled : String.ofList text = k.text) :
      Denotes ⟨.word, text⟩ (.keyword k)
  | identifier {text : List Char} (plain : Plain (String.ofList text)) :
      Denotes ⟨.word, text⟩ .identifier
  | number {text : List Char} : Denotes ⟨.number, text⟩ (.number (numberValue text))
  | string {body : List Char} :
      Denotes ⟨.string, '"' :: (body ++ ['"'])⟩ (.string (String.ofList body))

/-- Blanks and comments say nothing, another piece is one token with its text or one fault. -/
inductive Tells (line : Nat) : Piece → List (Except Fault Token) → Prop where
  | blank {text : List Char} : Tells line ⟨.blank, text⟩ []
  | comment {text : List Char} : Tells line ⟨.comment, text⟩ []
  | token {p : Piece} {kind : TokenKind} (denotes : Denotes p kind) :
      Tells line p [.ok ⟨kind, String.ofList p.text, line⟩]
  | openString {text : List Char} :
      Tells line ⟨.openString, text⟩ [.error (.lex .unterminatedString line)]
  | unknown {text : List Char} :
      Tells line ⟨.unknown, text⟩ [.error (.lex .unexpectedCharacter line)]

/-- The line on which the last of the pieces ends. -/
def lineAfter (ps : List Piece) : Nat := 1 + (ps.flatMap Piece.text).count '\n'

/-! ## Characters -/

theorem digit_iff (c : Char) : Digit c ↔ c.isDigit = true := by
  simp only [Digit, Char.isDigit, Bool.and_eq_true, decide_eq_true_eq]
  exact Iff.rfl

theorem letter_iff (c : Char) : Letter c ↔ isWordStart c = true := by
  unfold Letter isWordStart
  delta Char.isAlpha Char.isUpper Char.isLower
  simp only [Bool.or_eq_true, Bool.and_eq_true, decide_eq_true_eq]
  constructor
  · rintro (h | h | h)
    · exact .inl (.inr h)
    · exact .inl (.inl h)
    · exact .inr h
  · rintro ((h | h) | h)
    · exact .inr (.inl h)
    · exact .inl h
    · exact .inr (.inr h)

theorem wordPart_iff (c : Char) : Letter c ∨ Digit c ↔ isWordPart c = true := by
  rw [letter_iff, digit_iff]
  simp only [isWordStart, isWordPart, Char.isAlphanum, Bool.or_eq_true]
  tauto

/-- What the first character of a piece tells of its form. -/
inductive Start where
  | blank
  | letter
  | digit
  | quote
  | symbol
  | other
  deriving DecidableEq

def start (c : Char) : Start :=
  if isBlank c then .blank
  else if isWordStart c then .letter
  else if c.isDigit then .digit
  else if c = '"' then .quote
  else if (symbol? c).isSome then .symbol
  else .other

def Form.start : Form → Start
  | .blank => .blank
  | .comment => .symbol
  | .symbol _ => .symbol
  | .word => .letter
  | .number => .digit
  | .string => .quote
  | .openString => .quote
  | .unknown => .other

/-- A letter or a digit is no blank, and a digit is no letter. -/
theorem start_letter {c : Char} (h : Letter c) : start c = .letter := by
  have blank : isBlank c = false := by
    by_contra hb
    simp only [isBlank, Bool.not_eq_false, Bool.or_eq_true, decide_eq_true_eq] at hb
    rcases hb with ((rfl | rfl) | rfl) | rfl <;> revert h <;> simp [Letter]
  rw [start, blank, (letter_iff c).mp h]
  rfl

theorem start_digit {c : Char} (h : Digit c) : start c = .digit := by
  have blank : isBlank c = false := by
    by_contra hb
    simp only [isBlank, Bool.not_eq_false, Bool.or_eq_true, decide_eq_true_eq] at hb
    rcases hb with ((rfl | rfl) | rfl) | rfl <;> revert h <;> simp [Digit]
  have letter : isWordStart c = false := by
    by_contra hl
    have hl := (letter_iff c).mpr (Bool.not_eq_false _ ▸ hl)
    rcases hl with hl | hl | rfl
    · exact absurd (Char.le_trans hl.1 h.2) (by decide)
    · exact absurd (Char.le_trans hl.1 h.2) (by decide)
    · exact absurd h.2 (by decide)
  rw [start, blank, letter, (digit_iff c).mp h]
  rfl

theorem spelling_cons (s : Symbol) :
    ∃ c rest, s.spelling = c :: rest ∧ start c = .symbol ∧
      (rest = [] ∨ rest = ['='] ∧ ∃ t, symbol? c = some t ∧ (withEqual? t).isSome = true) := by
  cases s <;> exact ⟨_, _, rfl, by decide, by decide⟩

/-- The form of a text has the start that the first character tells. -/
theorem Shaped.start_eq {form : Form} {c : Char} {body : List Char} (h : Shaped form (c :: body)) :
    start c = form.start := by
  generalize ht : c :: body = text at h
  cases h with
  | blank listed =>
    cases ht
    simp only [List.mem_cons, List.not_mem_nil, or_false] at listed
    rcases listed with rfl | rfl | rfl | rfl <;> decide
  | comment =>
    cases ht
    decide
  | symbol s =>
    obtain ⟨d, rest, hs, hd, _⟩ := spelling_cons s
    rw [hs] at ht
    cases ht
    exact hd
  | word first =>
    cases ht
    exact start_letter first
  | whole digits =>
    cases ht
    exact start_digit (digits _ List.mem_cons_self)
  | fraction digits =>
    cases ht
    exact start_digit (digits _ List.mem_cons_self)
  | string =>
    cases ht
    decide

theorem Shaped.ne_nil {form : Form} {text : List Char} (h : Shaped form text) : text ≠ [] := by
  cases h with
  | symbol s => cases s <;> exact List.cons_ne_nil _ _
  | _ => exact List.cons_ne_nil _ _

theorem spelling_injective {s t : Symbol} (h : s.spelling = t.spelling) : s = t := by
  have all : ∀ s ∈ Symbol.all, ∀ t ∈ Symbol.all, s.spelling = t.spelling → s = t := by decide
  have listed (s : Symbol) : s ∈ Symbol.all := by cases s <;> decide
  exact all s (listed s) t (listed t) h

theorem spelling_ne_comment (s : Symbol) (body : List Char) : s.spelling ≠ '/' :: '/' :: body := by
  intro h
  cases s <;> cases h

/-- A text has one form only. -/
theorem Shaped.unique {form form' : Form} {text : List Char} (h : Shaped form text)
    (h' : Shaped form' text) : form = form' := by
  have same : form.start = form'.start := by
    cases text with
    | nil => exact absurd rfl h.ne_nil
    | cons c body => rw [← h.start_eq, h'.start_eq]
  generalize ht : text = text' at h'
  cases h <;> cases h' <;> first
    | rfl
    | cases same
  · exact absurd ht.symm (spelling_ne_comment _ _)
  · exact absurd ht (spelling_ne_comment _ _)
  · rw [spelling_injective ht]

/-! ## Cutting takes the longest prefix -/

section
variable {form : Form} {text cs rest : List Char} {c : Char}

theorem Shaped.start_of_prefix (h : Shaped form text) (front : text <+: c :: cs) :
    form.start = start c := by
  cases text with
  | nil => exact absurd rfl h.ne_nil
  | cons d body =>
    obtain ⟨rfl, _⟩ := List.cons_prefix_cons.mp front
    exact h.start_eq.symm

theorem length_le_takeWhile {p : Char → Bool} {body : List Char} (inside : ∀ d ∈ body, p d = true)
    (front : body <+: cs) : body.length ≤ (cs.takeWhile p).length := by
  obtain ⟨rest, rfl⟩ := front
  rw [List.takeWhile_append_of_pos inside, List.length_append]
  exact Nat.le_add_right _ _

theorem longest_blank (h : isBlank c = true) : Longest ⟨.blank, [c]⟩ (c :: cs) where
  shaped := by
    refine .blank ?_
    simp only [isBlank, Bool.or_eq_true, decide_eq_true_eq] at h
    simp only [List.mem_cons, List.not_mem_nil, or_false]
    tauto
  front := ⟨cs, rfl⟩
  longest form text shaped front := by
    have same := shaped.start_of_prefix front
    rw [start, if_pos h] at same
    cases shaped with
    | blank => exact Nat.le_refl _
    | _ => cases same

theorem longest_word (h : isWordStart c = true) :
    Longest ⟨.word, c :: cs.takeWhile isWordPart⟩ (c :: cs) where
  shaped := .word ((letter_iff c).mpr h) fun d hd => (wordPart_iff d).mpr (List.mem_takeWhile_imp hd)
  front := List.cons_prefix_cons.mpr ⟨rfl, List.takeWhile_prefix _⟩
  longest form text shaped front := by
    have same := shaped.start_of_prefix front
    rw [start_letter ((letter_iff c).mpr h)] at same
    cases shaped with
    | word first inside =>
      obtain ⟨rfl, inner⟩ := List.cons_prefix_cons.mp front
      exact Nat.succ_le_succ
        (length_le_takeWhile (fun d hd => (wordPart_iff d).mp (inside d hd)) inner)
    | symbol s => cases same
    | _ => cases same

/-- A number goes on as long as there are digits, and over a point if a digit follows it. -/
theorem length_le_cutNumber {body : List Char} (digits : ∀ d ∈ body, Digit d)
    (front : body <+: cs) : body.length ≤ (cutNumber cs).1.length := by
  have le := length_le_takeWhile (fun d hd => (digit_iff d).mp (digits d hd)) front
  rcases cutNumber_cases cs with ⟨he, _⟩ | ⟨d, ds, _, he⟩
  · rw [he]
    exact le
  · rw [he, List.length_append]
    exact Nat.le_trans le (Nat.le_add_right _ _)

theorem length_le_cutNumber_fraction {body more : List Char} {d : Char}
    (digits : ∀ e ∈ body, Digit e) (decimals : ∀ e ∈ d :: more, Digit e)
    (front : body ++ '.' :: d :: more <+: cs) :
    (body ++ '.' :: d :: more).length ≤ (cutNumber cs).1.length := by
  obtain ⟨rest, rfl⟩ := front
  have hd : d.isDigit = true := (digit_iff d).mp (decimals d List.mem_cons_self)
  have more' : ∀ e ∈ more, e.isDigit = true :=
    fun e he => (digit_iff e).mp (decimals e (List.mem_cons_of_mem _ he))
  have point : Stops Char.isDigit ('.' :: d :: (more ++ rest)) := by
    rintro _ ⟨⟩
    rfl
  have body' : ∀ e ∈ body, e.isDigit = true := fun e he => (digit_iff e).mp (digits e he)
  rw [List.append_assoc, List.cons_append, List.cons_append]
  simp only [cutNumber, takeWhile_of_stops body' point, dropWhile_of_stops body' point, hd, if_true,
    List.takeWhile_append_of_pos more', List.length_append, List.length_cons]
  omega

theorem longest_number (h : c.isDigit = true) :
    Longest ⟨.number, c :: (cutNumber cs).1⟩ (c :: cs) where
  shaped := by
    have first := (digit_iff c).mpr h
    have digits (cs : List Char) : ∀ e ∈ cs.takeWhile Char.isDigit, Digit e :=
      fun e he => (digit_iff e).mpr (List.mem_takeWhile_imp he)
    rcases cutNumber_cases cs with ⟨he, _⟩ | ⟨d, ds, hd, he⟩
    · rw [he]
      exact .whole (List.forall_mem_cons.mpr ⟨first, digits cs⟩)
    · rw [he]
      exact .fraction (List.forall_mem_cons.mpr ⟨first, digits cs⟩)
        (List.forall_mem_cons.mpr ⟨(digit_iff d).mpr hd, digits ds⟩)
  front := List.cons_prefix_cons.mpr ⟨rfl, ⟨_, cutNumber_append cs⟩⟩
  longest form text shaped front := by
    have same := shaped.start_of_prefix front
    rw [start_digit ((digit_iff c).mpr h)] at same
    cases shaped with
    | whole digits =>
      obtain ⟨rfl, inner⟩ := List.cons_prefix_cons.mp front
      exact Nat.succ_le_succ (length_le_cutNumber (List.forall_mem_cons.mp digits).2 inner)
    | fraction digits decimals =>
      obtain ⟨rfl, inner⟩ := List.cons_prefix_cons.mp front
      exact Nat.succ_le_succ
        (length_le_cutNumber_fraction (List.forall_mem_cons.mp digits).2 decimals inner)
    | symbol s => cases same
    | _ => cases same

/-- A closed string is the text up to the next quote. -/
theorem takeWhile_of_string {body : List Char} (inside : '"' ∉ body)
    (front : body ++ ['"'] <+: cs) :
    cs.takeWhile (· ≠ '"') = body ∧ cs.dropWhile (· ≠ '"') ≠ [] := by
  obtain ⟨rest, rfl⟩ := front
  have within : ∀ d ∈ body, decide (d ≠ '"') = true :=
    fun d hd => decide_eq_true fun he => inside (he ▸ hd)
  have stop : Stops (· ≠ '"') ('"' :: rest) := by
    rintro _ ⟨⟩
    rfl
  rw [List.append_assoc]
  exact ⟨takeWhile_of_stops within stop, by
    rw [show ['"'] ++ rest = '"' :: rest from rfl, dropWhile_of_stops within stop]
    exact List.cons_ne_nil _ _⟩

theorem start_quote : start '"' = .quote := by decide

theorem longest_string {close : Char} (closed : cs.dropWhile (· ≠ '"') = close :: rest) :
    Longest ⟨.string, '"' :: cs.takeWhile (· ≠ '"') ++ [close]⟩ ('"' :: cs) := by
  have quote : close = '"' := by
    have h := stops_dropWhile (· ≠ '"') cs close (by rw [closed]; rfl)
    simpa using h
  subst quote
  refine ⟨.string fun hm => ?_, List.cons_prefix_cons.mpr ⟨rfl, rest, ?_⟩, ?_⟩
  · simpa using List.mem_takeWhile_imp hm
  · have whole := List.takeWhile_append_dropWhile (p := (· ≠ '"')) (l := cs)
    rw [closed] at whole
    exact (List.append_assoc _ _ _).trans whole
  · intro form text shaped front
    have same := shaped.start_of_prefix front
    rw [start_quote] at same
    cases shaped with
    | string inside =>
      rw [(takeWhile_of_string inside (List.cons_prefix_cons.mp front).2).1]
      exact Nat.le_refl _
    | symbol s => cases same
    | _ => cases same

theorem unshaped_openString (opened : cs.dropWhile (· ≠ '"') = []) : Unshaped ('"' :: cs) := by
  intro form text shaped front
  have same := shaped.start_of_prefix front
  rw [start_quote] at same
  cases shaped with
  | string inside =>
    exact (takeWhile_of_string inside (List.cons_prefix_cons.mp front).2).2 opened
  | symbol s => cases same
  | _ => cases same

theorem unshaped_unknown (other : start c = .other) : Unshaped (c :: cs) := by
  intro form text shaped front
  have same := shaped.start_of_prefix front
  rw [other] at same
  cases shaped with
  | symbol s => cases same
  | _ => cases same

theorem spelling_of_symbol? {s : Symbol} (h : symbol? c = some s) : s.spelling = [c] := by
  unfold symbol? at h
  split at h <;> cases h <;> rfl

theorem spelling_of_withEqual? {s joined : Symbol} (h : symbol? c = some s)
    (hj : withEqual? s = some joined) : joined.spelling = [c, '='] := by
  have spelled := spelling_of_symbol? h
  cases s <;> cases hj <;> cases spelled <;> rfl

theorem length_spelling_le (s : Symbol) : s.spelling.length ≤ 2 := by
  cases s <;> decide

/-- A symbol that starts a text has one character, unless an equals sign may join it. -/
theorem length_spelling_of_prefix {s t : Symbol} (h : symbol? c = some s)
    (equal : (withEqual? s).isSome = true → Stops (· = '=') cs) (front : t.spelling <+: c :: cs) :
    t.spelling.length ≤ 1 := by
  obtain ⟨d, more, spelled, _, single | ⟨double, u, hu, joins⟩⟩ := spelling_cons t
  · rw [spelled, single]
    exact Nat.le_refl _
  · rw [spelled, double] at front
    obtain ⟨rfl, inner⟩ := List.cons_prefix_cons.mp front
    obtain rfl : u = s := Option.some.inj (hu.symm.trans h)
    obtain ⟨ds, rfl⟩ := inner
    exact absurd (equal joins '=' rfl) (by decide)

theorem front_cutSymbol {s : Symbol} (symbolic : start c = .symbol) (h : symbol? c = some s) :
    Longest (cutSymbol c s cs).1 (c :: cs) := by
  have spelled := spelling_of_symbol? h
  have front : (cutSymbol c s cs).1.text <+: c :: cs := ⟨_, cutSymbol_append c s cs⟩
  rcases cutSymbol_cases c s cs with ⟨he, slash, equal⟩ | ⟨ds, rfl, rfl⟩ | ⟨joined, ds, hj, rfl⟩
  · rw [he] at front ⊢
    refine ⟨spelled ▸ .symbol s, front, fun form text shaped front => ?_⟩
    have same := shaped.start_of_prefix front
    rw [symbolic] at same
    cases shaped with
    | symbol t => exact length_spelling_of_prefix h equal front
    | comment =>
      obtain ⟨rfl, inner⟩ := List.cons_prefix_cons.mp front
      obtain ⟨ds, rfl⟩ := inner
      cases h
      exact absurd (slash rfl '/' rfl) (by decide)
    | _ => cases same
  · obtain rfl : '/' = c := (List.cons.inj spelled).1
    rw [cutSymbol_comment] at front ⊢
    have inside : '\n' ∉ ds.takeWhile (· ≠ '\n') := fun hm => by
      simpa using List.mem_takeWhile_imp hm
    refine ⟨.comment inside, front, fun form text shaped front => ?_⟩
    · have same := shaped.start_of_prefix front
      rw [symbolic] at same
      cases shaped with
      | symbol t => exact Nat.le_trans (length_spelling_le t) (Nat.le_add_left 2 _)
      | comment inside =>
        have within := (List.cons_prefix_cons.mp (List.cons_prefix_cons.mp front).2).2
        exact Nat.succ_le_succ (Nat.succ_le_succ (length_le_takeWhile
          (fun d hd => decide_eq_true fun he => inside (he ▸ hd)) within))
      | _ => cases same
  · rw [cutSymbol_joined c hj] at front ⊢
    refine ⟨spelling_of_withEqual? h hj ▸ .symbol joined, front, fun form text shaped front => ?_⟩
    have same := shaped.start_of_prefix front
    rw [symbolic] at same
    cases shaped with
    | symbol t => exact length_spelling_le t
    | comment =>
      have second := (List.cons_prefix_cons.mp (List.cons_prefix_cons.mp front).2).1
      exact absurd second (by decide)
    | _ => cases same

/-- What is cut is the piece at the front. -/
theorem front_cut (c : Char) (cs : List Char) : Front (cut c cs).1 (c :: cs) := by
  unfold cut
  split
  · next blank => exact .shaped (longest_blank blank)
  next blank =>
  split
  · next letter => exact .shaped (longest_word letter)
  next letter =>
  split
  · next digit => exact .shaped (longest_number digit)
  next digit =>
  split
  · next quote =>
    subst quote
    split
    · next opened => exact .openString (unshaped_openString opened)
    · next closed => exact .shaped (longest_string closed)
  next quote =>
  split
  · next s hs =>
    refine .shaped (front_cutSymbol ?_ hs)
    rw [start, if_neg blank, if_neg letter, if_neg digit, if_neg quote, hs]
    rfl
  · next hs =>
    refine .unknown (unshaped_unknown ?_) quote
    rw [start, if_neg blank, if_neg letter, if_neg digit, if_neg quote, hs]
    rfl

/-! ## There is one way to cut -/

theorem Longest.text_eq {p q : Piece} (h : Longest p cs) (h' : Longest q cs) : p.text = q.text :=
  List.IsPrefix.eq_of_length (List.prefix_of_prefix_length_le h.front h'.front
    (h'.longest _ _ h.shaped h.front))
    (Nat.le_antisymm (h'.longest _ _ h.shaped h.front) (h.longest _ _ h'.shaped h'.front))

/-- One piece is at the front of a text. -/
theorem Front.unique {p q : Piece} (h : Front p cs) (h' : Front q cs) : p = q := by
  cases h with
  | shaped longest =>
    cases h' with
    | shaped longest' =>
      obtain ⟨form, text⟩ := p
      obtain ⟨form', text'⟩ := q
      obtain rfl : text = text' := longest.text_eq longest'
      obtain rfl : form = form' := longest.shaped.unique longest'.shaped
      rfl
    | openString unshaped => exact absurd longest.front (unshaped _ _ longest.shaped)
    | unknown unshaped => exact absurd longest.front (unshaped _ _ longest.shaped)
  | openString unshaped =>
    cases h' with
    | shaped longest => exact absurd longest.front (unshaped _ _ longest.shaped)
    | openString => rfl
    | unknown _ other => exact absurd rfl other
  | unknown unshaped other =>
    cases h' with
    | shaped longest => exact absurd longest.front (unshaped _ _ longest.shaped)
    | openString => exact absurd rfl other
    | unknown => rfl

theorem Front.ne_nil {p : Piece} (h : Front p cs) : cs ≠ [] := by
  cases h with
  | shaped longest =>
    rintro rfl
    exact longest.shaped.ne_nil (List.prefix_nil.mp longest.front)
  | openString => exact List.cons_ne_nil _ _
  | unknown => exact List.cons_ne_nil _ _

theorem cuts_pieces (cs : List Char) : Cuts cs (pieces cs) := by
  induction cs using pieces.induct with
  | case1 =>
    rw [pieces]
    exact .nil
  | case2 c cs ih =>
    have whole := cut_append c cs
    have front := front_cut c cs
    rw [← whole] at front
    rw [pieces]
    have cuts := Cuts.cons front ih
    rw [whole] at cuts
    exact cuts

/-- The pieces of a text are the only ones that are cut by the longest match. -/
theorem Cuts.eq_pieces {ps : List Piece} (h : Cuts cs ps) : ps = pieces cs := by
  induction h with
  | nil => rw [pieces]
  | @cons p rest ps front _ ih =>
    cases he : p.text ++ rest with
    | nil => exact absurd he front.ne_nil
    | cons c cs =>
      rw [he] at front
      obtain rfl := front.unique (front_cut c cs)
      have left : rest = (cut c cs).2 :=
        List.append_cancel_left (he.trans (cut_append c cs).symm)
      rw [pieces, ih, left]

end

/-! ## What is scanned -/

theorem denotes_wordKind (text : List Char) : Denotes ⟨.word, text⟩ (wordKind text) := by
  unfold wordKind
  split
  · next k hk => exact .keyword (Keyword.text_of_ofText? hk)
  · next hk => exact .identifier (Keyword.ne_text_of_ofText? hk)

theorem tells_item? {p : Piece} {cs : List Char} (h : Front p cs) (line : Nat) :
    Tells line p (p.item? line).toList := by
  cases h with
  | openString => exact .openString
  | unknown => exact .unknown
  | shaped longest =>
    obtain ⟨form, text⟩ := p
    cases longest.shaped with
    | blank => exact .blank
    | comment => exact .comment
    | symbol s => exact .token (.symbol s)
    | word => exact .token (denotes_wordKind _)
    | whole => exact .token .number
    | fraction => exact .token .number
    | @string body =>
      have inner : ('"' :: (body ++ ['"'])).drop 1 = body ++ ['"'] := rfl
      simp only [Piece.item?, inner, List.dropLast_concat, Option.toList_some]
      exact .token .string

/-- The items found in a list of pieces that come after others. -/
def itemsAfter (before : List Piece) : List Piece → List (List (Except Fault Token))
  | [] => []
  | p :: ps => (p.item? (lineAfter (before ++ [p]))).toList :: itemsAfter (before ++ [p]) ps

theorem length_itemsAfter (before ps : List Piece) : (itemsAfter before ps).length = ps.length := by
  induction ps generalizing before with
  | nil => rfl
  | cons p ps ih => exact congrArg (· + 1) (ih _)

theorem lineAfter_snoc (before : List Piece) (p : Piece) :
    lineAfter (before ++ [p]) = lineAfter before + p.text.count '\n' := by
  simp [lineAfter, List.flatMap_append, List.count_append, Nat.add_assoc]

theorem items_append (before ps qs : List Piece) :
    items (lineAfter before) (ps ++ qs) =
      (itemsAfter before ps).flatten ++ items (lineAfter (before ++ ps)) qs := by
  induction ps generalizing before with
  | nil => rw [itemsAfter, List.append_nil, List.flatten_nil, List.nil_append, List.nil_append]
  | cons p ps ih =>
    have rest := ih (before ++ [p])
    rw [List.append_assoc, List.singleton_append, lineAfter_snoc] at rest
    rw [List.cons_append, items, itemsAfter, lineAfter_snoc, List.flatten_cons, List.append_assoc,
      ← rest]
    cases p.item? (lineAfter before + p.text.count '\n') <;> rfl

theorem items_lineAfter (before ps : List Piece) :
    items (lineAfter before) ps =
      (itemsAfter before ps).flatten ++ [.ok ⟨.endOfInput, "", lineAfter (before ++ ps)⟩] := by
  have all := items_append before ps []
  rwa [List.append_nil, items] at all

theorem Cuts.tells {cs : List Char} {ps : List Piece} (h : Cuts cs ps) (before : List Piece) :
    ∀ earlier p later, ps = earlier ++ p :: later → ∃ found,
      (itemsAfter before ps)[earlier.length]? = some found ∧
        Tells (lineAfter (before ++ earlier ++ [p])) p found := by
  induction h generalizing before with
  | nil =>
    intro earlier p later he
    exact absurd he.symm (List.append_ne_nil_of_right_ne_nil _ (List.cons_ne_nil _ _))
  | @cons first rest ps front _ ih =>
    intro earlier p later he
    cases earlier with
    | nil =>
      cases he
      exact ⟨_, rfl, by rw [List.append_nil]; exact tells_item? front _⟩
    | cons _ earlier =>
      cases he
      obtain ⟨found, hf, tells⟩ := ih (before ++ [first]) earlier p later rfl
      refine ⟨found, hf, ?_⟩
      rw [List.append_assoc before, List.singleton_append] at tells
      exact tells

/-- No piece says that the input ends. -/
theorem Tells.not_end {line : Nat} {p : Piece} {found : List (Except Fault Token)}
    (h : Tells line p found) : ∀ t : Token, .ok t ∈ found → t.kind ≠ .endOfInput := by
  intro t ht
  cases h with
  | token denotes =>
    cases List.mem_singleton.mp ht
    cases denotes <;> nofun
  | blank | comment => cases ht
  | openString | unknown => cases List.mem_singleton.mp ht

/-- If no piece tells of an end of input, there is none among their items. -/
theorem not_end_of_tells {ps : List Piece} {found : List (List (Except Fault Token))}
    (counted : found.length = ps.length)
    (tells : ∀ before p after, ps = before ++ p :: after → ∃ items,
      found[before.length]? = some items ∧ Tells (lineAfter (before ++ [p])) p items) :
    ∀ t : Token, .ok t ∈ found.flatten → t.kind ≠ .endOfInput := by
  intro t ht
  obtain ⟨items, hi, ht⟩ := List.mem_flatten.mp ht
  obtain ⟨k, hk, rfl⟩ := List.mem_iff_getElem.mp hi
  have hp : k < ps.length := counted ▸ hk
  obtain ⟨items, hf, told⟩ := tells (ps.take k) ps[k] (ps.drop (k + 1)) (by simp)
  rw [List.length_take_of_le hp.le, List.getElem?_eq_getElem hk] at hf
  cases hf
  exact told.not_end t ht

theorem end_iff {items : List (Except Fault Token)} {last : Token} (ends : last.kind = .endOfInput)
    (inner : ∀ t : Token, .ok t ∈ items → t.kind ≠ .endOfInput) (n : Nat) :
    (∃ t : Token, (items ++ [.ok last])[n]? = some (.ok t) ∧ t.kind = .endOfInput) ↔
      n = items.length := by
  constructor
  · rintro ⟨t, ht, kind⟩
    rw [List.getElem?_append] at ht
    split at ht
    · exact absurd kind (inner t (List.mem_of_getElem? ht))
    · next le =>
      rw [List.getElem?_singleton] at ht
      split at ht
      · omega
      · cases ht
  · rintro rfl
    exact ⟨last, by simp, ends⟩

end Scan

/-- A source is cut by the longest match, and in one way only. Its items are what the pieces tell,
each with the line on which its piece ends, then there is one end of input and nothing after it. -/
theorem scan_longest (source : String) :
    ∃ (ps : List Scan.Piece) (found : List (List (Except Fault Token))),
      (∀ qs, Scan.Cuts source.toList qs ↔ qs = ps) ∧
        ps.flatMap Scan.Piece.text = source.toList ∧
        found.length = ps.length ∧
        (∀ before p after, ps = before ++ p :: after → ∃ items,
          found[before.length]? = some items ∧
            Scan.Tells (Scan.lineAfter (before ++ [p])) p items) ∧
        scan source = found.flatten ++ [.ok ⟨.endOfInput, "", 1 + source.toList.count '\n'⟩] ∧
        (∀ n, (∃ t : Token, (scan source)[n]? = some (.ok t) ∧ t.kind = .endOfInput) ↔
          n = found.flatten.length) ∧
        ∀ n, found.flatten.length < n → (scan source)[n]? = none := by
  have cuts := Scan.cuts_pieces source.toList
  have whole := Scan.flatMap_text_pieces source.toList
  have tells := cuts.tells []
  have counted := Scan.length_itemsAfter [] (Scan.pieces source.toList)
  have scanned := Scan.items_lineAfter [] (Scan.pieces source.toList)
  rw [List.nil_append, show Scan.lineAfter (Scan.pieces source.toList) = _ from
    congrArg (fun text => 1 + List.count '\n' text) whole] at scanned
  generalize Scan.itemsAfter [] (Scan.pieces source.toList) = found at tells counted scanned
  have scanned : scan source = _ := scanned
  refine ⟨Scan.pieces source.toList, found, fun qs => ⟨Scan.Cuts.eq_pieces, fun he => he ▸ cuts⟩,
    whole, counted, tells, scanned, ?_, fun n hn => ?_⟩
  · rw [scanned]
    exact Scan.end_iff rfl (Scan.not_end_of_tells counted tells)
  · rw [scanned, List.getElem?_eq_none_iff, List.length_append]
    exact hn

end Lox
