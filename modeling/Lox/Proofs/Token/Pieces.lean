import Lox.Token.Scan
import Mathlib.Data.List.Forall2
import Mathlib.Data.List.TakeWhile

/-!
# Pieces of texts that differ

How far a piece goes is decided by the next two characters at most. So a text may be changed after
a piece without changing the piece, as long as what stopped it still does. From this follows how a
text is cut that was put together from two, and one in which words were replaced by others.
-/
namespace Lox.Scan

/-! ## What stops a piece -/

/-- No such character is at the front. -/
def Stops (p : Char → Bool) (rest : List Char) : Prop := ∀ c ∈ rest.head?, p c = false

theorem stops_dropWhile (p : Char → Bool) (cs : List Char) : Stops p (cs.dropWhile p) := by
  intro c hc
  have h := List.head?_dropWhile_not p cs
  rw [Option.mem_def.mp hc] at h
  exact h

section
variable {p : Char → Bool} {body rest : List Char}

theorem takeWhile_of_stops (inside : ∀ c ∈ body, p c = true) (h : Stops p rest) :
    (body ++ rest).takeWhile p = body := by
  rw [List.takeWhile_append_of_pos inside]
  cases rest with
  | nil => exact List.append_nil _
  | cons c rest => rw [List.takeWhile_cons, h c rfl, if_neg Bool.false_ne_true, List.append_nil]

theorem dropWhile_of_stops (inside : ∀ c ∈ body, p c = true) (h : Stops p rest) :
    (body ++ rest).dropWhile p = rest := by
  rw [List.dropWhile_append_of_pos inside]
  cases rest with
  | nil => rfl
  | cons c rest => rw [List.dropWhile_cons, h c rfl, if_neg Bool.false_ne_true]

end

/-- A point and a digit are at the front. -/
def Fraction (rest : List Char) : Prop := ∃ d ds, rest = '.' :: d :: ds ∧ d.isDigit = true

/-- What stops a piece before one text stops it before the other. -/
structure Continues (rest rest' : List Char) : Prop where
  word : Stops isWordPart rest → Stops isWordPart rest'
  digit : Stops Char.isDigit rest → Stops Char.isDigit rest'
  line : Stops (· ≠ '\n') rest → Stops (· ≠ '\n') rest'
  equal : Stops (· = '=') rest → Stops (· = '=') rest'
  slash : Stops (· = '/') rest → Stops (· = '/') rest'
  fraction : ¬Fraction rest → ¬Fraction rest'

/-! ## Cutting again -/

variable {cs rest : List Char}

theorem cutNumber_whole {whole : List Char} (digits : ∀ c ∈ whole, c.isDigit = true)
    (digit : Stops Char.isDigit rest) (fraction : ¬Fraction rest) :
    cutNumber (whole ++ rest) = (whole, rest) := by
  unfold cutNumber
  rw [takeWhile_of_stops digits digit, dropWhile_of_stops digits digit]
  split
  · next d ds =>
    split
    · next hd => exact absurd ⟨d, ds, rfl, hd⟩ fraction
    · rfl
  · rfl

theorem cutNumber_fraction {whole more : List Char} {d : Char}
    (digits : ∀ c ∈ whole, c.isDigit = true) (hd : d.isDigit = true)
    (digits' : ∀ c ∈ more, c.isDigit = true) (digit : Stops Char.isDigit rest) :
    cutNumber (whole ++ '.' :: d :: more ++ rest) = (whole ++ '.' :: d :: more, rest) := by
  have point : Stops Char.isDigit ('.' :: d :: (more ++ rest)) := by
    rintro _ ⟨⟩
    rfl
  rw [List.append_assoc, List.cons_append, List.cons_append]
  simp only [cutNumber, takeWhile_of_stops digits point, dropWhile_of_stops digits point, hd,
    if_true, takeWhile_of_stops digits' digit, dropWhile_of_stops digits' digit]

/-- A number is its digits, or its digits, a point and more digits. -/
theorem cutNumber_cases (cs : List Char) :
    (cutNumber cs = (cs.takeWhile Char.isDigit, cs.dropWhile Char.isDigit) ∧
      ¬Fraction (cs.dropWhile Char.isDigit)) ∨
    ∃ (d : Char) (ds : List Char), d.isDigit = true ∧
      cutNumber cs = (cs.takeWhile Char.isDigit ++ '.' :: d :: ds.takeWhile Char.isDigit,
        ds.dropWhile Char.isDigit) := by
  unfold cutNumber
  split
  · next d ds he =>
    by_cases hd : d.isDigit = true
    · exact .inr ⟨d, ds, hd, if_pos hd⟩
    · refine .inl ⟨(if_neg hd).trans (by rw [he]), ?_⟩
      rw [he]
      rintro ⟨_, _, ⟨⟩, digit⟩
      exact hd digit
  · next other =>
    refine .inl ⟨rfl, ?_⟩
    rintro ⟨d, ds, he, _⟩
    exact other d ds he

theorem cutNumber_continues (h : Continues (cutNumber cs).2 rest) :
    cutNumber ((cutNumber cs).1 ++ rest) = ((cutNumber cs).1, rest) := by
  have digits (cs : List Char) : ∀ c ∈ cs.takeWhile Char.isDigit, c.isDigit = true :=
    fun c hc => List.mem_takeWhile_imp hc
  rcases cutNumber_cases cs with ⟨he, fraction⟩ | ⟨d, ds, hd, he⟩
  · rw [he] at h ⊢
    exact cutNumber_whole (digits cs) (h.digit (stops_dropWhile _ cs)) (h.fraction fraction)
  · rw [he] at h ⊢
    exact cutNumber_fraction (digits cs) hd (digits ds) (h.digit (stops_dropWhile _ ds))

theorem cutSymbol_single {c : Char} {s : Symbol} (slash : s = .slash → Stops (· = '/') rest)
    (equal : (withEqual? s).isSome = true → Stops (· = '=') rest) :
    cutSymbol c s rest = (⟨.symbol s, [c]⟩, rest) := by
  unfold cutSymbol
  split
  · exact absurd (slash rfl '/' rfl) (by decide)
  · next more _ =>
    split
    · next joined hj => exact absurd (equal (by rw [hj]; rfl) '=' rfl) (by decide)
    · rfl
  · rfl

theorem cutSymbol_comment (c : Char) (ds : List Char) :
    cutSymbol c .slash ('/' :: ds) =
      (⟨.comment, c :: ('/' :: ds).takeWhile (· ≠ '\n')⟩, ('/' :: ds).dropWhile (· ≠ '\n')) :=
  rfl

theorem cutSymbol_joined (c : Char) {s joined : Symbol} (h : withEqual? s = some joined)
    (ds : List Char) : cutSymbol c s ('=' :: ds) = (⟨.symbol joined, [c, '=']⟩, ds) := by
  have other : s ≠ .slash := by
    rintro rfl
    cases h
  simp only [cutSymbol, h]

/-- A symbol is its first character, or the start of a comment, or joined with an equals sign. -/
theorem cutSymbol_cases (c : Char) (s : Symbol) (cs : List Char) :
    (cutSymbol c s cs = (⟨.symbol s, [c]⟩, cs) ∧ (s = .slash → Stops (· = '/') cs) ∧
      ((withEqual? s).isSome = true → Stops (· = '=') cs)) ∨
    (∃ ds, s = .slash ∧ cs = '/' :: ds) ∨
    ∃ joined ds, withEqual? s = some joined ∧ cs = '=' :: ds := by
  cases cs with
  | nil =>
    have stops (p : Char → Bool) : Stops p [] := nofun
    exact .inl ⟨cutSymbol_single (fun _ => stops _) (fun _ => stops _), fun _ => stops _,
      fun _ => stops _⟩
  | cons d ds =>
    by_cases slash : s = .slash ∧ d = '/'
    · exact .inr (.inl ⟨ds, slash.1, by rw [slash.2]⟩)
    by_cases equal : (withEqual? s).isSome = true ∧ d = '='
    · obtain ⟨joined, hj⟩ := Option.isSome_iff_exists.mp equal.1
      exact .inr (.inr ⟨joined, ds, hj, by rw [equal.2]⟩)
    have slash' (hs : s = .slash) : Stops (· = '/') (d :: ds) := by
      rintro _ ⟨⟩
      exact decide_eq_false fun hd => slash ⟨hs, hd⟩
    have equal' (hs : (withEqual? s).isSome = true) : Stops (· = '=') (d :: ds) := by
      rintro _ ⟨⟩
      exact decide_eq_false fun hd => equal ⟨hs, hd⟩
    exact .inl ⟨cutSymbol_single slash' equal', slash', equal'⟩

theorem cutSymbol_continues (c : Char) (s : Symbol) (h : Continues (cutSymbol c s cs).2 rest) :
    cutSymbol c s ((cutSymbol c s cs).1.text.tail ++ rest) = ((cutSymbol c s cs).1, rest) := by
  rcases cutSymbol_cases c s cs with ⟨he, slash, equal⟩ | ⟨ds, rfl, rfl⟩ | ⟨joined, ds, hj, rfl⟩
  · rw [he] at h ⊢
    exact cutSymbol_single (fun hs => h.slash (slash hs)) fun hs => h.equal (equal hs)
  · have body : ∀ d ∈ ('/' :: ds).takeWhile (· ≠ '\n'), decide (d ≠ '\n') = true :=
      fun d hd => List.mem_takeWhile_imp (p := (· ≠ '\n')) hd
    have stop : Stops (· ≠ '\n') rest := h.line (stops_dropWhile _ ('/' :: ds))
    have text := takeWhile_of_stops body stop
    have left := dropWhile_of_stops body stop
    rw [cutSymbol_comment]
    show cutSymbol c .slash ('/' :: (ds.takeWhile (· ≠ '\n') ++ rest)) = _
    rw [cutSymbol_comment]
    exact Prod.ext (congrArg (fun body => Piece.mk .comment (c :: body)) text) left
  · rw [cutSymbol_joined c hj]
    exact cutSymbol_joined c hj rest

/-- A closed string is cut at its second quote. -/
theorem cut_at_quote (cs : List Char) :
    cut '"' cs = match cs.dropWhile (· ≠ '"') with
      | [] => (⟨.openString, '"' :: cs⟩, [])
      | close :: rest => (⟨.string, '"' :: cs.takeWhile (· ≠ '"') ++ [close]⟩, rest) := by
  rfl

theorem cut_string {body rest : List Char} (inside : ∀ d ∈ body, d ≠ '"') :
    cut '"' (body ++ '"' :: rest) = (⟨.string, '"' :: (body ++ ['"'])⟩, rest) := by
  have inside' : ∀ d ∈ body, decide (d ≠ '"') = true := fun d hd => decide_eq_true (inside d hd)
  have stop : Stops (· ≠ '"') ('"' :: rest) := by
    rintro _ ⟨⟩
    rfl
  rw [cut_at_quote, dropWhile_of_stops inside' stop, takeWhile_of_stops inside' stop]
  rfl

/-- A string that was cut, or a quote that is never closed. -/
theorem cut_quote (cs : List Char) :
    (cut '"' cs).1.form = .openString ∨
      ∃ body rest, (∀ d ∈ body, d ≠ '"') ∧ cs = body ++ '"' :: rest := by
  have whole := List.takeWhile_append_dropWhile (p := (· ≠ '"')) (l := cs)
  cases hd : cs.dropWhile (· ≠ '"') with
  | nil =>
    left
    rw [cut_at_quote, hd]
  | cons close rest =>
    right
    have stop := stops_dropWhile (· ≠ '"') cs close (by rw [hd]; rfl)
    obtain rfl : close = '"' := by simpa using stop
    refine ⟨cs.takeWhile (· ≠ '"'), rest, fun d hd => ?_, by rw [← hd, whole]⟩
    exact of_decide_eq_true (List.mem_takeWhile_imp (p := (· ≠ '"')) hd)

theorem cut_of_other {c : Char} (blank : ¬isBlank c = true) (word : ¬isWordStart c = true)
    (digit : ¬c.isDigit = true) (quote : c ≠ '"') (cs : List Char) :
    cut c cs = match symbol? c with
      | some s => cutSymbol c s cs
      | none => (⟨.unknown, [c]⟩, cs) := by
  rw [cut]
  exact (if_neg blank).trans ((if_neg word).trans ((if_neg digit).trans (if_neg quote)))

/-- A piece starts with the first character. -/
theorem cut_tail (c : Char) (cs : List Char) : (cut c cs).1.text.tail ++ (cut c cs).2 = cs := by
  have whole := cut_append c cs
  have shorter := length_cut_le c cs
  cases ht : (cut c cs).1.text with
  | nil =>
    rw [ht, List.nil_append] at whole
    rw [whole, List.length_cons] at shorter
    omega
  | cons d text =>
    rw [ht] at whole
    exact (List.cons.inj whole).2

/-- What follows a piece may be replaced by what stops it as well. -/
theorem cut_continues {c : Char} (h : Continues (cut c cs).2 rest)
    (closed : (cut c cs).1.form ≠ .openString) :
    cut c ((cut c cs).1.text.tail ++ rest) = ((cut c cs).1, rest) := by
  by_cases blank : isBlank c = true
  · simp only [cut, blank, if_true]
    rfl
  by_cases word : isWordStart c = true
  · have inside : ∀ d ∈ cs.takeWhile isWordPart, isWordPart d = true :=
      fun d hd => List.mem_takeWhile_imp hd
    simp only [cut, blank, word, if_true, if_false, Bool.false_eq_true] at h ⊢
    have stop := h.word (stops_dropWhile _ cs)
    simp only [List.tail_cons, takeWhile_of_stops inside stop, dropWhile_of_stops inside stop]
  by_cases digit : c.isDigit = true
  · simp only [cut, blank, word, digit, if_true, if_false, Bool.false_eq_true] at h ⊢
    rw [List.tail_cons, cutNumber_continues h]
  by_cases quote : c = '"'
  · subst quote
    rcases cut_quote cs with opened | ⟨body, after, inside, rfl⟩
    · exact absurd opened closed
    · rw [cut_string inside]
      show cut '"' (body ++ ['"'] ++ rest) = _
      rw [List.append_assoc, List.singleton_append, cut_string inside]
  · have other := cut_of_other blank word digit quote
    rw [other] at h ⊢
    rw [other]
    cases hs : symbol? c with
    | none => rfl
    | some s =>
      simp only [hs] at h
      exact cutSymbol_continues c s h

end Lox.Scan
