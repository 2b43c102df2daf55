import Lox.Numeral.Text
import Lox.Proofs.Numeral.Bits
import Lox.Proofs.Numeral.Written
import Lox.Proofs.Token.Lexemes
import Lox.Store
import Lox.Tree.Text

/-!
# Numbers that are written and scanned again

Each of the three forms in which a number is written, given to the scanner as a source, is scanned as
one token, and its value is the number with all its bits. So a form never takes the wrong branch for
a number: integers are exact, the cast to an integer of 64 bits is made only where it is exact, and
the text of a number token can always be parsed.
-/
namespace Lox

namespace Numeral

section
variable {x : Float} {p : Nat}

theorem signed_of_clear (clear : negative x = false) (text : List Char) :
    signed x text = String.ofList text := by
  rw [signed, clear]
  rfl

theorem finite_of_classify (finite : classify x = .finite p) :
    p < infinitePattern ∧ p = pattern x := by
  unfold classify at finite
  split at finite
  · next less =>
    cases finite
    exact ⟨less, rfl⟩
  · split at finite <;> cases finite

theorem integral_zero : integral 0 = true := by decide +kernel

/-- A pattern that is no integer is not that of zero, and its shortest decimal reads back. -/
theorem reads_shortest (tie : Tie) (broken : integral p ≠ true) (finite : p < infinitePattern) :
    Reads (shortest tie p).plain p := by
  have positive : 0 < p := by
    refine Nat.pos_of_ne_zero ?_
    rintro rfl
    exact broken integral_zero
  obtain ⟨units, back, counts, _⟩ := shortest_found tie positive
  exact (reads_plain counts back finite).1

/-- The shortest decimal of a large pattern has no digit after the point. -/
theorem reads_large (tie : Tie) (large : Nat.pow 2 63 * one ≤ magnitude p)
    (finite : p < infinitePattern) : Reads ((shortest tie p).plain ++ ['.', '0']) p := by
  have positive : 0 < p := by
    refine Nat.pos_of_ne_zero ?_
    rintro rfl
    have small : ¬Nat.pow 2 63 * one ≤ magnitude 0 := by decide +kernel
    exact small large
  obtain ⟨units, back, counts, above⟩ := shortest_found tie positive
  obtain ⟨k, long, bound⟩ : ∃ k, k = 367 ∧ 10 ^ k ≤ Nat.pow 2 63 * fine :=
    ⟨367, rfl, by decide +kernel⟩
  have digits : 10 ^ k ≤ magnitude p * fine / one := by
    rw [Nat.le_div_iff_mul_le one_pos]
    calc 10 ^ k * one ≤ Nat.pow 2 63 * fine * one := Nat.mul_le_mul_right one bound
      _ = Nat.pow 2 63 * one * fine := Nat.mul_right_comm _ _ _
      _ ≤ magnitude p * fine := Nat.mul_le_mul_right fine large
  have length := length_of_pow_le digits (by omega)
  exact (reads_plain counts back finite).2 (by omega)

/-! ## The three forms -/

/-- What a program prints. -/
theorem reads_display (finite : classify x = .finite p) (clear : negative x = false) :
    Reads (display x).toList p := by
  obtain ⟨less, _⟩ := finite_of_classify finite
  simp only [display, finite, signed_of_clear clear, String.toList_ofList]
  split
  · next whole => exact (reads_wholeDigits whole less).1
  · next broken => exact reads_shortest .up broken less

/-- What stands in the text of a syntax tree, behind its sign. -/
theorem pointed_signed (finite : classify x = .finite p) :
    ∃ text, pointed x = signed x text ∧ Reads text p := by
  obtain ⟨less, _⟩ := finite_of_classify finite
  simp only [pointed, finite]
  split
  · next whole => exact ⟨_, rfl, (reads_wholeDigits whole less).2⟩
  · next broken => exact ⟨_, rfl, reads_shortest .up broken less⟩

theorem reads_pointed (finite : classify x = .finite p) (clear : negative x = false) :
    Reads (pointed x).toList p := by
  obtain ⟨text, written, reads⟩ := pointed_signed finite
  rwa [written, signed_of_clear clear, String.toList_ofList]

/-- What stands beside the lexeme of a token. -/
theorem reads_literal (finite : classify x = .finite p) (clear : negative x = false) :
    Reads (literal x).toList p := by
  obtain ⟨less, _⟩ := finite_of_classify finite
  simp only [literal, finite, signed_of_clear clear]
  split
  · next zero =>
    have digits : "0.0".toList = wholeDigits p ++ ['.', '0'] := by
      subst zero
      decide +kernel
    rw [digits]
    exact (reads_wholeDigits (zero ▸ integral_zero) less).2
  · split
    · next whole =>
      split
      · rw [String.toList_ofList]
        exact (reads_wholeDigits whole less).2
      · next large =>
        rw [String.toList_ofList]
        exact reads_large .up (Nat.le_of_not_lt large) less
    · next broken =>
      rw [String.toList_ofList]
      exact reads_shortest .up broken less

/-- A text is scanned as a number alone, and the number has the bits of `x`. -/
def ScansAs (text : String) (x : Float) : Prop :=
  ∃ y : Float, scan text = [.ok ⟨.number y, text, 1⟩, .ok ⟨.endOfInput, "", 1⟩] ∧
    y.toBits = x.toBits

theorem scansAs_of_reads {text : String} (finite : classify x = .finite p)
    (clear : negative x = false) (reads : Reads text.toList p) : ScansAs text x := by
  have scanned := scan_of_reads reads
  rw [String.ofList_toList] at scanned
  refine ⟨_, scanned, ?_⟩
  rw [(finite_of_classify finite).2, ofPattern_pattern clear]

/-! ## The cast to an integer -/

/-- The cast of a double to a signed integer of 64 bits: what is behind the point is dropped, and
what is out of range becomes the end of the range. -/
def toSigned (x : Float) : Int :=
  match classify x with
  | .notANumber => 0
  | .infinite => if negative x then -2 ^ 63 else 2 ^ 63 - 1
  | .finite p =>
    if negative x then max (-2 ^ 63) (-(magnitude p / one : Nat))
    else min (2 ^ 63 - 1) (magnitude p / one : Nat)

/-- Where the cast is made it is exact. -/
theorem toSigned_exact (finite : classify x = .finite p) (clear : negative x = false)
    (whole : integral p = true) (small : magnitude p < Nat.pow 2 63 * one) :
    ∃ n : Nat, toSigned x = n ∧ n * one = magnitude p ∧ n < 2 ^ 63 := by
  have exact_division : magnitude p / one * one = magnitude p :=
    Nat.div_mul_cancel (Nat.dvd_of_mod_eq_zero (of_decide_eq_true whole))
  have bounded : magnitude p / one < Nat.pow 2 63 := (Nat.div_lt_iff_lt_mul one_pos).mpr small
  rw [Nat.pow_eq] at bounded
  refine ⟨magnitude p / one, ?_, exact_division, bounded⟩
  simp only [toSigned, finite, clear]
  exact Int.min_eq_right (by omega)

/-- The form beside a token is that of the cast. -/
theorem literal_of_small (finite : classify x = .finite p) (clear : negative x = false)
    (whole : integral p = true) (small : magnitude p < Nat.pow 2 63 * one) {n : Nat}
    (same : n * one = magnitude p) : literal x = toString n ++ ".0" := by
  have digits : String.ofList (wholeDigits p ++ ['.', '0']) = toString n ++ ".0" := by
    rw [wholeDigits, ← same, Nat.mul_div_cancel n one_pos, String.ofList_append]
    rfl
  simp only [literal, finite, signed_of_clear clear, whole, small, if_true]
  split
  · next zero =>
    rw [← digits]
    subst zero
    decide +kernel
  · exact digits

end

/-! ## The text of a number token -/

/-- A decimal without sign and exponent as it is parsed: there is a digit at least, and at most one
point. -/
def parsed? (text : List Char) : Option Float :=
  let whole := text.takeWhile Char.isDigit
  match text.dropWhile Char.isDigit with
  | [] => if whole.isEmpty then none else some (ofDecimal whole [])
  | '.' :: fraction =>
    if fraction.all Char.isDigit && !(whole ++ fraction).isEmpty then
      some (ofDecimal whole fraction)
    else none
  | _ => none

theorem parsed?_written {whole fraction : List Char} (some_digit : whole ≠ [])
    (digits : ∀ c ∈ whole, c.isDigit = true) (digits' : ∀ c ∈ fraction, c.isDigit = true) :
    parsed? (written whole fraction) = some (ofDecimal whole fraction) := by
  have parts := split_written fraction digits
  rw [parsed?, parts.1, parts.2]
  cases fraction with
  | nil => simp [written, some_digit]
  | cons d fraction =>
    have all : (d :: fraction).all Char.isDigit = true := List.all_eq_true.mpr digits'
    simp only [written, List.nil_append, all]
    simp

theorem parsed?_of_shaped {text : List Char} (h : Scan.Shaped .number text) :
    parsed? text = some (Scan.numberValue text) := by
  have digit {cs : List Char} (inside : ∀ c ∈ cs, Scan.Digit c) : ∀ c ∈ cs, c.isDigit = true :=
    fun c hc => (Scan.digit_iff c).mp (inside c hc)
  have numeral {whole fraction : List Char} (some_digit : whole ≠ [])
      (digits : ∀ c ∈ whole, Scan.Digit c) (digits' : ∀ c ∈ fraction, Scan.Digit c) :
      parsed? (written whole fraction) = some (Scan.numberValue (written whole fraction)) := by
    rw [numberValue_written (digit digits)]
    exact parsed?_written some_digit (digit digits) (digit digits')
  cases h with
  | whole digits =>
    have same := numeral (List.cons_ne_nil _ _) digits (List.forall_mem_nil _)
    exact same
  | fraction digits decimals =>
    have same := numeral (List.cons_ne_nil _ _) digits decimals
    exact same

end Numeral

/-- Every number token of every source has a lexeme that is parsed, as the value of the token. -/
theorem number_parsed {source : String} {t : Token} {v : Float} (ht : t ∈ okOnly (scan source))
    (number : t.kind = .number v) : Numeral.parsed? t.lexeme.toList = some v := by
  have inner : t.kind ≠ .endOfInput := by
    rw [number]
    rintro ⟨⟩
  obtain ⟨shaped, rfl⟩ := (cut_of_scan ht inner).number number
  exact Numeral.parsed?_of_shaped shaped

/-- Whatever finite number without a sign is printed, written in the text of a syntax tree or beside
a token, its text is scanned as that number and nothing else. The cast to an integer is exact where
it is made, and the text of every number token is parsed. -/
theorem numbers_scan_back {x : Float} {p : Nat} (finite : Numeral.classify x = .finite p)
    (clear : Numeral.negative x = false) :
    (∀ σ : Store, Numeral.ScansAs (σ.display (.number x)) x) ∧
      Numeral.ScansAs (Expr.literal (.number x)).text x ∧
      Numeral.ScansAs (TokenKind.number x).literal x ∧
      (Numeral.integral p = true → Numeral.magnitude p < Nat.pow 2 63 * Numeral.one →
        ∃ n : Nat, Numeral.toSigned x = n ∧ n * Numeral.one = Numeral.magnitude p ∧ n < 2 ^ 63 ∧
          (TokenKind.number x).literal = toString n ++ ".0") ∧
      ∀ (source : String) (t : Token) (v : Float), t ∈ okOnly (scan source) →
        t.kind = .number v → Numeral.parsed? t.lexeme.toList = some v := by
  refine ⟨fun σ => ?_, ?_, ?_, fun whole small => ?_, fun source t v ht => number_parsed ht⟩
  · exact Numeral.scansAs_of_reads finite clear (Numeral.reads_display finite clear)
  · have text : (Expr.literal (.number x)).text = Numeral.pointed x := by
      rw [Expr.text, Literal.text]
    rw [text]
    exact Numeral.scansAs_of_reads finite clear (Numeral.reads_pointed finite clear)
  · exact Numeral.scansAs_of_reads finite clear (Numeral.reads_literal finite clear)
  · obtain ⟨n, cast, same, less⟩ := Numeral.toSigned_exact finite clear whole small
    exact ⟨n, cast, same, less, Numeral.literal_of_small finite clear whole small same⟩

/-- One and a half, which is no integer, and what is scanned from the text of it. -/
theorem oneAndHalf_scans_back :
    Numeral.ScansAs (TokenKind.number (Numeral.ofPattern 0x3FF8000000000000)).literal
      (Numeral.ofPattern 0x3FF8000000000000) := by
  have finite : Numeral.classify (Numeral.ofPattern 0x3FF8000000000000) =
      .finite 0x3FF8000000000000 := by
    decide +kernel
  have clear : Numeral.negative (Numeral.ofPattern 0x3FF8000000000000) = false := by
    decide +kernel
  exact (numbers_scan_back finite clear).2.2.1

end Lox
