import Lox.Numeral.Text
import Lox.Proofs.Numeral.Shortest
import Lox.Proofs.Token.Respacing

/-!
# Numerals as they are written

A numeral is digits, or digits, a point and more digits. It reads as a pattern if its value is
nearest to it, and it is then scanned as one token, the number with this pattern. The digits of an
integral pattern read as it, and so does its shortest decimal without an exponent.
-/
namespace Lox.Numeral

/-- Digits before a point and after it. The point is left out if nothing follows it. -/
def written (whole : List Char) : List Char → List Char
  | [] => whole
  | d :: fraction => whole ++ '.' :: d :: fraction

/-- A text is a numeral whose value is nearest to a pattern. -/
def Reads (text : List Char) (pattern : Nat) : Prop :=
  ∃ whole fraction, text = written whole fraction ∧ whole ≠ [] ∧
    (∀ c ∈ whole, c.isDigit = true) ∧ (∀ c ∈ fraction, c.isDigit = true) ∧
    nearest (Nat.ofDigitChars 10 (whole ++ fraction) 0) (Nat.pow 10 fraction.length) = pattern

/-! ## Scanning -/

section
variable {whole fraction : List Char}

theorem written_of_ne_nil (h : fraction ≠ []) :
    written whole fraction = whole ++ '.' :: fraction := by
  cases fraction with
  | nil => exact absurd rfl h
  | cons d fraction => rfl

theorem stops_nil (p : Char → Bool) : Scan.Stops p [] := fun _ h => absurd h (Option.not_mem_none _)

theorem cutNumber_written (digits : ∀ c ∈ whole, c.isDigit = true)
    (digits' : ∀ c ∈ fraction, c.isDigit = true) :
    Scan.cutNumber (written whole fraction) = (written whole fraction, []) := by
  cases fraction with
  | nil =>
    have ends : ¬Scan.Fraction [] := by
      rintro ⟨_, _, ⟨⟩, _⟩
    have cut := Scan.cutNumber_whole digits (stops_nil _) ends
    rwa [List.append_nil] at cut
  | cons d fraction =>
    obtain ⟨first, rest⟩ := List.forall_mem_cons.mp digits'
    have cut := Scan.cutNumber_fraction digits first rest (stops_nil _)
    rwa [List.append_nil] at cut

/-- The digits before the point end where the numeral without them starts. -/
theorem split_written (fraction : List Char) (digits : ∀ c ∈ whole, c.isDigit = true) :
    (written whole fraction).takeWhile Char.isDigit = whole ∧
      (written whole fraction).dropWhile Char.isDigit = written [] fraction := by
  have stops : Scan.Stops Char.isDigit (written [] fraction) := by
    cases fraction with
    | nil => exact stops_nil _
    | cons d fraction =>
      rintro _ ⟨⟩
      rfl
  have whole_eq : written whole fraction = whole ++ written [] fraction := by
    cases fraction with
    | nil => exact (List.append_nil _).symm
    | cons d fraction => rfl
  rw [whole_eq]
  exact ⟨Scan.takeWhile_of_stops digits stops, Scan.dropWhile_of_stops digits stops⟩

theorem drop_written (fraction : List Char) : (written [] fraction).drop 1 = fraction := by
  cases fraction <;> rfl

theorem numberValue_written (digits : ∀ c ∈ whole, c.isDigit = true) :
    Scan.numberValue (written whole fraction) = ofDecimal whole fraction := by
  have parts := split_written fraction digits
  rw [Scan.numberValue, parts.1, parts.2, drop_written]

theorem count_newline_written (digits : ∀ c ∈ whole, c.isDigit = true)
    (digits' : ∀ c ∈ fraction, c.isDigit = true) :
    (written whole fraction).count '\n' = 0 := by
  have absent {cs : List Char} (inside : ∀ c ∈ cs, c.isDigit = true) : '\n' ∉ cs :=
    fun newline => by cases inside _ newline
  refine List.count_eq_zero.mpr ?_
  cases fraction with
  | nil => exact absent digits
  | cons d fraction =>
    rw [written, List.mem_append, List.mem_cons]
    rintro (before | point | after)
    · exact absent digits before
    · cases point
    · exact absent digits' after

end

/-- A numeral is scanned as one token, the number that is nearest to it. -/
theorem scan_of_reads {text : List Char} {pattern : Nat} (h : Reads text pattern) :
    scan (String.ofList text) = [.ok ⟨.number (ofPattern pattern), String.ofList text, 1⟩,
      .ok ⟨.endOfInput, "", 1⟩] := by
  obtain ⟨whole, fraction, rfl, some_digit, digits, digits', rfl⟩ := h
  obtain ⟨c, cs, rfl⟩ := List.exists_cons_of_ne_nil some_digit
  obtain ⟨first, rest⟩ := List.forall_mem_cons.mp digits
  have value : Scan.numberValue (written (c :: cs) fraction) = ofDecimal (c :: cs) fraction :=
    numberValue_written digits
  have newlines := count_newline_written digits digits'
  have starts : written (c :: cs) fraction = c :: written cs fraction := by
    cases fraction <;> rfl
  have pieces : Scan.pieces (written (c :: cs) fraction) =
      [⟨.number, written (c :: cs) fraction⟩] := by
    rw [starts, Scan.pieces, Scan.cut_of_digit first, cutNumber_written rest digits', Scan.pieces]
  rw [scan, String.toList_ofList, pieces, Scan.items, newlines]
  show (.ok ⟨.number (Scan.numberValue (written (c :: cs) fraction)), _, 1⟩ :
    Except Fault Token) :: Scan.items 1 [] = _
  rw [value]
  rfl

/-! ## Digits -/

section
variable {p : Nat}

/-- A numeral is in the cell of a pattern. -/
theorem reads_of_cell {whole : List Char} (fraction : List Char) (some_digit : whole ≠ [])
    (digits : ∀ c ∈ whole, c.isDigit = true) (digits' : ∀ c ∈ fraction, c.isDigit = true)
    (cell : Cell p (Nat.ofDigitChars 10 (whole ++ fraction) 0 * one) (10 ^ fraction.length))
    (finite : p < infinitePattern) : Reads (written whole fraction) p :=
  ⟨whole, fraction, rfl, some_digit, digits, digits',
    nearest_of_cell cell finite (Nat.pow_pos (by decide))⟩

theorem digit_of_toDigits (n : Nat) : ∀ c ∈ Nat.toDigits 10 n, c.isDigit = true :=
  fun _ => Nat.isDigit_of_mem_toDigits (by decide) (by decide)

theorem digit_of_zeros (n : Nat) : ∀ c ∈ zeros n, c.isDigit = true := by
  intro c hc
  rw [List.eq_of_mem_replicate hc]
  rfl

theorem digit_append {cs ds : List Char} (h : ∀ c ∈ cs, c.isDigit = true)
    (h' : ∀ c ∈ ds, c.isDigit = true) : ∀ c ∈ cs ++ ds, c.isDigit = true :=
  List.forall_mem_append.mpr ⟨h, h'⟩

/-- A zero after the point changes no number. -/
theorem reads_point {whole : List Char} (some_digit : whole ≠ [])
    (digits : ∀ c ∈ whole, c.isDigit = true)
    (cell : Cell p (Nat.ofDigitChars 10 whole 0 * one) 1) (finite : p < infinitePattern) :
    Reads whole p ∧ Reads (whole ++ ['.', '0']) p := by
  constructor
  · refine reads_of_cell [] some_digit digits (List.forall_mem_nil _) ?_ finite
    rw [List.append_nil]
    exact cell
  · refine reads_of_cell ['0'] some_digit digits (by simp) ?_ finite
    have value : Nat.ofDigitChars 10 (whole ++ ['0']) 0 = 10 * Nat.ofDigitChars 10 whole 0 := by
      rw [Nat.ofDigitChars_append]
      exact Nat.ofDigitChars_replicate_zero (n := 1)
    rw [value]
    refine cell.congr (by decide) (by decide) ?_
    show _ * 10 = _ * 1
    ring

/-- The digits of an integral pattern, without a point and with a zero after it. -/
theorem reads_wholeDigits (whole : integral p = true) (finite : p < infinitePattern) :
    Reads (wholeDigits p) p ∧ Reads (wholeDigits p ++ ['.', '0']) p := by
  refine reads_point Nat.toDigits_ne_nil (digit_of_toDigits _) ?_ finite
  rw [wholeDigits, Nat.ofDigitChars_ten_toDigits,
    Nat.div_mul_cancel (Nat.dvd_of_mod_eq_zero (of_decide_eq_true whole))]
  exact cell_magnitude p

theorem value_digits_zeros (digits n : Nat) :
    Nat.ofDigitChars 10 (Nat.toDigits 10 digits ++ zeros n) 0 = digits * 10 ^ n := by
  rw [Nat.ofDigitChars_append, Nat.ofDigitChars_ten_toDigits, zeros,
    Nat.ofDigitChars_replicate_zero, Nat.mul_comm]

theorem value_zeros_digits (digits n : Nat) :
    Nat.ofDigitChars 10 (zeros n ++ Nat.toDigits 10 digits) 0 = digits := by
  rw [Nat.ofDigitChars_append, zeros, Nat.ofDigitChars_replicate_zero, Nat.mul_zero,
    Nat.ofDigitChars_ten_toDigits]

/-! ## Shortest decimals -/

/-- Zeros at the end. -/
theorem reads_padded {digits n : Nat} (cell : Cell p (digits * 10 ^ n * one) 1)
    (finite : p < infinitePattern) :
    Reads (Nat.toDigits 10 digits ++ zeros n) p ∧
      Reads (Nat.toDigits 10 digits ++ zeros n ++ ['.', '0']) p := by
  refine reads_point (List.append_ne_nil_of_left_ne_nil Nat.toDigits_ne_nil _)
    (digit_append (digit_of_toDigits digits) (digit_of_zeros n)) ?_ finite
  rw [value_digits_zeros]
  exact cell

/-- A point among the digits. -/
theorem reads_split {digits places : Nat} (cell : Cell p (digits * one) (10 ^ (places + 1)))
    (inside : places + 1 < (Nat.toDigits 10 digits).length) (finite : p < infinitePattern) :
    Reads ((Nat.toDigits 10 digits).take ((Nat.toDigits 10 digits).length - (places + 1)) ++
      '.' :: (Nat.toDigits 10 digits).drop
        ((Nat.toDigits 10 digits).length - (places + 1))) p := by
  have counted : ((Nat.toDigits 10 digits).drop
      ((Nat.toDigits 10 digits).length - (places + 1))).length = places + 1 := by
    rw [List.length_drop]
    omega
  rw [← written_of_ne_nil (List.ne_nil_of_length_eq_add_one counted)]
  refine reads_of_cell _ ?_ ?_ ?_ ?_ finite
  · refine List.ne_nil_of_length_pos ?_
    rw [List.length_take]
    omega
  · exact fun c hc => digit_of_toDigits _ c (List.mem_of_mem_take hc)
  · exact fun c hc => digit_of_toDigits _ c (List.mem_of_mem_drop hc)
  · rw [List.take_append_drop, Nat.ofDigitChars_ten_toDigits, counted]
    exact cell

/-- A point before all digits, with zeros between. -/
theorem reads_leading {digits places : Nat} (cell : Cell p (digits * one) (10 ^ (places + 1)))
    (outside : (Nat.toDigits 10 digits).length ≤ places + 1) (finite : p < infinitePattern) :
    Reads ('0' :: '.' :: zeros (places + 1 - (Nat.toDigits 10 digits).length) ++
      Nat.toDigits 10 digits) p := by
  have counted : (zeros (places + 1 - (Nat.toDigits 10 digits).length) ++
      Nat.toDigits 10 digits).length = places + 1 := by
    rw [List.length_append, zeros, List.length_replicate]
    omega
  rw [List.cons_append, List.cons_append, ← List.singleton_append,
    ← written_of_ne_nil (List.ne_nil_of_length_eq_add_one counted)]
  refine reads_of_cell _ (List.cons_ne_nil _ _) (by simp)
    (digit_append (digit_of_zeros _) (digit_of_toDigits _)) ?_ finite
  have value : Nat.ofDigitChars 10 ('0' :: (zeros (places + 1 -
      (Nat.toDigits 10 digits).length) ++ Nat.toDigits 10 digits)) 0 = digits :=
    value_zeros_digits digits (_ + 1)
  rw [List.singleton_append, value, counted]
  exact cell

/-- The power is too long to be written out, so its exponent is given beside it. -/
theorem exists_fine : ∃ units, units = 350 ∧ fine = 10 ^ units := by
  refine ⟨350, rfl, ?_⟩
  decide +kernel

/-- A decimal that reads back, written without an exponent. Where the exponent is not negative the
text has no point. -/
theorem reads_plain {d : Decimal} {point : Nat} (counts : d.Counts point)
    (back : readsBack p point = true) (finite : p < infinitePattern) :
    Reads d.plain p ∧ (0 ≤ d.exponent → Reads (d.plain ++ ['.', '0']) p) := by
  obtain ⟨places, exponent, same⟩ := counts
  obtain ⟨units, all, fine_eq⟩ := exists_fine
  have cell := cell_of_readsBack back
  rw [fine_eq] at cell
  have positive : 0 < 10 ^ units := Nat.pow_pos (by decide)
  rw [Decimal.plain]
  split
  · next n hn =>
    have enough : places = n + units := by
      have whole : d.exponent = (n : Int) := hn
      omega
    have value : point * one * 1 = d.digits * 10 ^ n * one * 10 ^ units := by
      rw [← same, enough, Nat.pow_add]
      ring
    have both := reads_padded (cell.congr positive Nat.one_pos value) finite
    exact ⟨both.1, fun _ => both.2⟩
  · next n hn =>
    have part : d.exponent = -((n : Int) + 1) := hn
    have few : units = places + (n + 1) := by omega
    have value : point * one * 10 ^ (n + 1) = d.digits * one * 10 ^ units := by
      rw [← same, few, Nat.pow_add]
      ring
    have fraction := cell.congr positive (Nat.pow_pos (by decide)) value
    refine ⟨?_, fun whole => absurd whole (by omega)⟩
    simp only
    split
    · next inside => exact reads_split fraction inside finite
    · next outside => exact reads_leading fraction (Nat.le_of_not_lt outside) finite

end

end Lox.Numeral
