import Lox.Proofs.Numeral.RoundTrip

/-!
# Numbers in the text of a tree

The text of a finite number decides the number. It starts with a digit or a sign, and there is
nothing in it but digits, a sign and a point.
-/
namespace Lox.Numeral

variable {x y : Float} {p q : Nat} {text : List Char}

/-- A numeral is nearest to one pattern. -/
theorem Reads.unique (h : Reads text p) (h' : Reads text q) : p = q := by
  obtain ⟨whole, fraction, rfl, _, digits, _, rfl⟩ := h
  obtain ⟨whole', fraction', same, _, digits', _, rfl⟩ := h'
  have parts := split_written fraction digits
  have parts' := split_written fraction' digits'
  rw [same] at parts
  have fractions : fraction = fraction' := by
    rw [← drop_written fraction, ← parts.2, parts'.2, drop_written]
  rw [fractions, parts.1.symm.trans parts'.1]

theorem Reads.cons (h : Reads text p) : ∃ c cs, text = c :: cs ∧ c.isDigit = true := by
  obtain ⟨whole, fraction, rfl, some_digit, digits, _⟩ := h
  obtain ⟨c, cs, rfl⟩ := List.exists_cons_of_ne_nil some_digit
  refine ⟨c, written cs fraction, ?_, digits c List.mem_cons_self⟩
  cases fraction <;> rfl

theorem Reads.digit_or_point (h : Reads text p) : ∀ c ∈ text, c.isDigit = true ∨ c = '.' := by
  obtain ⟨whole, fraction, rfl, _, digits, digits', _⟩ := h
  intro c hc
  cases fraction with
  | nil => exact .inl (digits c hc)
  | cons d fraction =>
    rw [written, List.mem_append, List.mem_cons] at hc
    rcases hc with before | point | after
    · exact .inl (digits c before)
    · exact .inr point
    · exact .inl (digits' c after)

theorem toList_signed (x : Float) (text : List Char) :
    (signed x text).toList = if negative x then '-' :: text else text := by
  rw [signed, String.toList_ofList]

theorem negative_of_signed {text' : List Char} (h : Reads text p) (h' : Reads text' q)
    (same : signed x text = signed y text') : negative x = negative y ∧ text = text' := by
  have same := congrArg String.toList same
  obtain ⟨c, cs, rfl, digit⟩ := h.cons
  obtain ⟨c', cs', rfl, digit'⟩ := h'.cons
  have sign (c : Char) (hc : c.isDigit = true) : c ≠ '-' := by
    rintro rfl
    cases hc
  rw [toList_signed, toList_signed] at same
  cases hx : negative x <;> cases hy : negative y <;> rw [hx, hy] at same
  · exact ⟨rfl, same⟩
  · exact absurd (List.cons.inj same).1 (sign c digit)
  · exact absurd (List.cons.inj same).1.symm (sign c' digit')
  · exact ⟨rfl, (List.cons.inj same).2⟩

/-- A double is its sign and its pattern. -/
theorem eq_of_pattern (sign : negative x = negative y) (same : pattern x = pattern y) : x = y := by
  have whole : x.toBits.toNat = y.toBits.toNat := by
    have below := x.toBits.toNat_lt
    have below' := y.toBits.toNat_lt
    simp only [negative, decide_eq_decide, pattern] at sign same
    simp only [Nat.pow_eq] at sign same
    omega
  rw [← ofBits_toBits x, ← ofBits_toBits y, UInt64.toNat_inj.mp whole]

/-- The text of a finite number in a syntax tree decides the number. -/
theorem pointed_injective (finite : classify x = .finite p) (finite' : classify y = .finite q)
    (same : pointed x = pointed y) : x = y := by
  obtain ⟨text, written, reads⟩ := pointed_signed finite
  obtain ⟨text', written', reads'⟩ := pointed_signed finite'
  rw [written, written'] at same
  obtain ⟨sign, rfl⟩ := negative_of_signed reads reads' same
  obtain rfl := reads.unique reads'
  have pattern_eq := (finite_of_classify finite).2.symm.trans (finite_of_classify finite').2
  exact eq_of_pattern sign pattern_eq

/-- How the text of a number starts. -/
theorem pointed_cons (finite : classify x = .finite p) :
    ∃ c cs, (pointed x).toList = c :: cs ∧ (c.isDigit = true ∨ c = '-') := by
  obtain ⟨text, written, reads⟩ := pointed_signed finite
  obtain ⟨c, cs, rfl, digit⟩ := reads.cons
  rw [written, toList_signed]
  split
  · exact ⟨_, _, rfl, .inr rfl⟩
  · exact ⟨_, _, rfl, .inl digit⟩

theorem mem_pointed (finite : classify x = .finite p) :
    ∀ c ∈ (pointed x).toList, c.isDigit = true ∨ c = '.' ∨ c = '-' := by
  obtain ⟨text, written, reads⟩ := pointed_signed finite
  have inside := reads.digit_or_point
  intro c hc
  rw [written, toList_signed] at hc
  split at hc
  · rcases List.mem_cons.mp hc with rfl | hc
    · exact .inr (.inr rfl)
    · exact (inside c hc).imp_right .inl
  · exact (inside c hc).imp_right .inl

end Lox.Numeral
