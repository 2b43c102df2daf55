import Lox.Numeral.Binary
import Mathlib.Order.Monotone.Basic
import Mathlib.Tactic.Ring

/-!
# The numbers nearest to a pattern

The numbers that are nearer to a pattern than to any other are its cell. It ends halfway to the
patterns on both sides, and an end belongs to the even pattern. `nearest` gives the pattern whose
cell a number is in: counted in steps of the scale that it takes, a number is rounded to an integer
of 53 bits at most, and the integers around that one are at least as far apart as their patterns.
-/
namespace Lox.Numeral

/-! ## Steps between patterns -/

/-- How far the next pattern is. -/
def gap (pattern : Nat) : Nat := 2 ^ (pattern / 2 ^ 52 - 1)

theorem gap_pos (pattern : Nat) : 0 < gap pattern := Nat.two_pow_pos _

/-- A pattern by a scale and by how many steps of that scale it denotes. The last number of steps
is that of the first pattern of the next scale as well. -/
theorem magnitude_at {scale steps : Nat} (normal : scale = 0 ∨ 2 ^ 52 ≤ steps)
    (most : steps ≤ 2 ^ 53) : magnitude (scale * 2 ^ 52 + steps) = steps * 2 ^ scale := by
  rw [magnitude]
  simp only [Nat.pow_eq]
  split
  · next subnormal =>
    have least : scale = 0 := by omega
    rw [least]
    omega
  · rcases Nat.lt_or_eq_of_le most with less | rfl
    · have quotient : (scale * 2 ^ 52 + steps) / 2 ^ 52 = scale + 1 := by omega
      have remainder : 2 ^ 52 + (scale * 2 ^ 52 + steps) % 2 ^ 52 = steps := by omega
      rw [quotient, remainder, Nat.add_sub_cancel]
    · have quotient : (scale * 2 ^ 52 + 2 ^ 53) / 2 ^ 52 = scale + 2 := by omega
      have remainder : 2 ^ 52 + (scale * 2 ^ 52 + 2 ^ 53) % 2 ^ 52 = 2 ^ 52 := by omega
      rw [quotient, remainder, show scale + 2 - 1 = scale + 1 from rfl]
      ring

theorem gap_at {scale steps : Nat} (normal : scale = 0 ∨ 2 ^ 52 ≤ steps) (less : steps < 2 ^ 53) :
    gap (scale * 2 ^ 52 + steps) = 2 ^ scale := by
  have quotient : (scale * 2 ^ 52 + steps) / 2 ^ 52 - 1 = scale := by omega
  rw [gap, quotient]

theorem exists_scale (pattern : Nat) : ∃ scale steps, pattern = scale * 2 ^ 52 + steps ∧
    (scale = 0 ∨ 2 ^ 52 ≤ steps) ∧ steps < 2 ^ 53 := by
  refine ⟨pattern / 2 ^ 52 - 1, pattern - (pattern / 2 ^ 52 - 1) * 2 ^ 52, ?_, ?_, ?_⟩ <;> omega

theorem magnitude_succ (pattern : Nat) :
    magnitude (pattern + 1) = magnitude pattern + gap pattern := by
  obtain ⟨scale, steps, rfl, normal, less⟩ := exists_scale pattern
  have next : magnitude (scale * 2 ^ 52 + (steps + 1)) = (steps + 1) * 2 ^ scale :=
    magnitude_at (normal.imp_right Nat.le_succ_of_le) less
  rw [Nat.add_assoc, next, magnitude_at normal (Nat.le_of_lt less), gap_at normal less]
  ring

theorem magnitude_strictMono : StrictMono magnitude :=
  strictMono_nat_of_lt_succ fun p => by
    rw [magnitude_succ]
    exact Nat.lt_add_of_pos_right (gap_pos p)

/-! ## Cells -/

/-- A quotient, counted in least subnormals, lies between the halves of the steps before and after
a pattern. -/
structure Cell (pattern num den : Nat) : Prop where
  low : (magnitude (pattern - 1) + magnitude pattern) * den ≤ 2 * num
  high : 2 * num ≤ (magnitude pattern + magnitude (pattern + 1)) * den
  ends : pattern % 2 = 1 → (magnitude (pattern - 1) + magnitude pattern) * den ≠ 2 * num ∧
    2 * num ≠ (magnitude pattern + magnitude (pattern + 1)) * den

section
variable {p q num den : Nat}

theorem Cell.not_lt (h : Cell p num den) (h' : Cell q num den) (positive : 0 < den) :
    ¬p < q := by
  intro less
  have before : p ≤ q - 1 := by omega
  have first := magnitude_strictMono.monotone before
  have second : magnitude (p + 1) ≤ magnitude q := magnitude_strictMono.monotone less
  have sums : magnitude p + magnitude (p + 1) ≤ magnitude (q - 1) + magnitude q :=
    Nat.add_le_add first second
  have between := Nat.mul_le_mul_right den sums
  -- both cells end here, so the two patterns follow one another
  have here := Nat.le_antisymm between (Nat.le_trans h'.low h.high)
  have same := Nat.eq_of_mul_eq_mul_right positive here
  have next : p + 1 = q := magnitude_strictMono.injective (by omega)
  rcases Nat.mod_two_eq_zero_or_one p with even | odd
  · have odd' : q % 2 = 1 := by omega
    exact (h'.ends odd').1 (Nat.le_antisymm h'.low (here ▸ h.high))
  · exact (h.ends odd).2 (Nat.le_antisymm h.high (here ▸ h'.low))

theorem Cell.unique (h : Cell p num den) (h' : Cell q num den) (positive : 0 < den) : p = q :=
  Nat.le_antisymm (Nat.le_of_not_lt (h'.not_lt h positive)) (Nat.le_of_not_lt (h.not_lt h' positive))

/-- A number is in its own cell. -/
theorem cell_magnitude (p : Nat) : Cell p (magnitude p) 1 := by
  have before := magnitude_strictMono.monotone (Nat.sub_le p 1)
  have after : magnitude p < magnitude (p + 1) := magnitude_strictMono p.lt_add_one
  refine ⟨by omega, by omega, fun odd => ⟨?_, by omega⟩⟩
  have strict : magnitude (p - 1) < magnitude p := magnitude_strictMono (by omega)
  omega

/-- Only the quotient counts. -/
theorem Cell.congr {num' den' : Nat} (h : Cell p num den) (positive : 0 < den)
    (positive' : 0 < den') (same : num * den' = num' * den) : Cell p num' den' := by
  have expand (a : Nat) : a * den * den' = a * den' * den := by ring
  have twice : 2 * num * den' = 2 * num' * den := by rw [Nat.mul_assoc, same, Nat.mul_assoc]
  have below (a : Nat) : a * den ≤ 2 * num ↔ a * den' ≤ 2 * num' := by
    rw [← Nat.mul_le_mul_right_iff positive', expand, twice, Nat.mul_le_mul_right_iff positive]
  have above (a : Nat) : 2 * num ≤ a * den ↔ 2 * num' ≤ a * den' := by
    rw [← Nat.mul_le_mul_right_iff positive', expand, twice, Nat.mul_le_mul_right_iff positive]
  have equal (a : Nat) : a * den = 2 * num ↔ a * den' = 2 * num' := by
    rw [Nat.le_antisymm_iff, below, above, ← Nat.le_antisymm_iff]
  refine ⟨(below _).mp h.low, (above _).mp h.high, fun odd => ⟨?_, ?_⟩⟩
  · exact fun he => (h.ends odd).1 ((equal _).mpr he)
  · exact fun he => (h.ends odd).2 ((equal _).mpr he.symm).symm

/-! ## Rounding -/

/-- What is known of the integer that a quotient is rounded to. -/
structure Rounded (num den r : Nat) : Prop where
  floor : num / den ≤ r
  ceil : r ≤ num / den + 1
  low : 2 * (r * den) ≤ 2 * num + den
  high : 2 * num ≤ 2 * (r * den) + den
  ends : r % 2 = 1 → 2 * (r * den) ≠ 2 * num + den ∧ 2 * num ≠ 2 * (r * den) + den

theorem rounded_roundHalfEven (num : Nat) (positive : 0 < den) :
    Rounded num den (roundHalfEven num den) := by
  have part := Nat.mod_lt num positive
  have whole : num / den * den + num % den = num := Nat.div_add_mod' num den
  have next : (num / den + 1) * den = num / den * den + den := Nat.succ_mul _ _
  unfold roundHalfEven
  simp only
  split
  · next less => exact ⟨by omega, by omega, by omega, by omega, fun _ => by omega⟩
  · split
    · next less more => exact ⟨by omega, by omega, by omega, by omega, fun _ => by omega⟩
    · -- the quotient is a half more than an integer
      rcases Nat.mod_two_eq_zero_or_one (num / den) with even | odd
      · rw [even, Nat.add_zero]
        exact ⟨by omega, by omega, by omega, by omega, fun _ => by omega⟩
      · rw [odd]
        exact ⟨by omega, by omega, by omega, by omega, fun _ => by omega⟩

/-- The integer part of a quotient at its scale has 53 bits, fewer only at the least scale. -/
theorem quotient_scaled (quotient : Nat) :
    (quotient.log2 - 52 = 0 ∨ 2 ^ 52 ≤ quotient / 2 ^ (quotient.log2 - 52)) ∧
      quotient / 2 ^ (quotient.log2 - 52) < 2 ^ 53 := by
  have most : quotient < 2 ^ (quotient.log2 + 1) := Nat.lt_log2_self
  rcases Nat.eq_zero_or_pos (quotient.log2 - 52) with least | scaled
  · refine ⟨.inl least, ?_⟩
    have bits : quotient.log2 + 1 ≤ 53 := by omega
    rw [least, Nat.pow_zero, Nat.div_one]
    exact Nat.lt_of_lt_of_le most (Nat.pow_le_pow_right (by decide) bits)
  · have bits : quotient.log2 = 52 + (quotient.log2 - 52) := by omega
    have nonzero : quotient ≠ 0 := by
      rintro rfl
      simp at scaled
    have least : 2 ^ quotient.log2 ≤ quotient := Nat.log2_self_le nonzero
    have high : 2 ^ (quotient.log2 + 1) = 2 ^ 53 * 2 ^ (quotient.log2 - 52) := by
      rw [← Nat.pow_add]
      congr 1
      omega
    rw [bits, Nat.pow_add] at least
    refine ⟨.inr ((Nat.le_div_iff_mul_le (Nat.two_pow_pos _)).mpr least), ?_⟩
    rw [Nat.div_lt_iff_lt_mul (Nat.two_pow_pos _)]
    exact high ▸ most

theorem le_gap {scale : Nat} (h : scale ≤ p / 2 ^ 52 - 1) : 2 ^ scale ≤ gap p :=
  Nat.pow_le_pow_right Nat.two_pos h

/-- The number of steps that a quotient is rounded to at its scale is that of its pattern. -/
theorem cell_rounded (num : Nat) (positive : 0 < den) {scale steps : Nat}
    (scaled : scale = (num / den).log2 - 52)
    (rounded : Rounded num (den * 2 ^ scale) steps) :
    Cell (scale * 2 ^ 52 + steps) num den := by
  obtain ⟨floor, ceil, low, high, ends⟩ := rounded
  have bits := quotient_scaled (num / den)
  rw [← scaled, Nat.div_div_eq_div_mul] at bits
  have normal : scale = 0 ∨ 2 ^ 52 ≤ steps := bits.1.imp_right fun h => Nat.le_trans h floor
  have here : magnitude (scale * 2 ^ 52 + steps) = steps * 2 ^ scale :=
    magnitude_at normal (Nat.le_trans ceil bits.2)
  have after : magnitude (scale * 2 ^ 52 + steps + 1) =
      steps * 2 ^ scale + gap (scale * 2 ^ 52 + steps) := by
    rw [magnitude_succ, here]
  have steps_den : steps * (den * 2 ^ scale) = steps * 2 ^ scale * den := by ring
  have wide : den * 2 ^ scale ≤ gap (scale * 2 ^ 52 + steps) * den := by
    rw [Nat.mul_comm den]
    exact Nat.mul_le_mul_right den (le_gap (by omega))
  have upper : (magnitude (scale * 2 ^ 52 + steps) + magnitude (scale * 2 ^ 52 + steps + 1)) * den =
      2 * (steps * (den * 2 ^ scale)) + gap (scale * 2 ^ 52 + steps) * den := by
    rw [here, after]
    ring
  have parity : (scale * 2 ^ 52 + steps) % 2 = steps % 2 := by omega
  -- below the first pattern of a scale steps are half as long, but such a number was not rounded up
  by_cases first : steps = 0 ∨ (steps = 2 ^ 52 ∧ 0 < scale)
  · have even : steps % 2 = 0 := by omega
    refine ⟨?_, by omega, fun odd => absurd (parity ▸ odd) (by omega)⟩
    have floored : steps * (den * 2 ^ scale) ≤ num := by
      rcases first with none_left | ⟨same, above⟩
      · rw [none_left, Nat.zero_mul]
        exact Nat.zero_le _
      · have whole : steps ≤ num / (den * 2 ^ scale) := by omega
        exact (Nat.le_div_iff_mul_le (Nat.mul_pos positive (Nat.two_pow_pos _))).mp whole
    have before := magnitude_strictMono.monotone (Nat.sub_le (scale * 2 ^ 52 + steps) 1)
    calc (magnitude (scale * 2 ^ 52 + steps - 1) + magnitude (scale * 2 ^ 52 + steps)) * den
        ≤ (2 * (steps * 2 ^ scale)) * den := Nat.mul_le_mul_right den (by omega)
      _ = 2 * (steps * (den * 2 ^ scale)) := by ring
      _ ≤ 2 * num := by omega
  · obtain ⟨fewer, rfl⟩ : ∃ fewer, steps = fewer + 1 := ⟨steps - 1, by omega⟩
    have normal' : scale = 0 ∨ 2 ^ 52 ≤ fewer := by omega
    have index : scale * 2 ^ 52 + (fewer + 1) - 1 = scale * 2 ^ 52 + fewer := by omega
    have before : magnitude (scale * 2 ^ 52 + (fewer + 1) - 1) = fewer * 2 ^ scale := by
      rw [index]
      exact magnitude_at normal' (by omega)
    have lower : (magnitude (scale * 2 ^ 52 + (fewer + 1) - 1) +
        magnitude (scale * 2 ^ 52 + (fewer + 1))) * den + den * 2 ^ scale =
          2 * ((fewer + 1) * (den * 2 ^ scale)) := by
      rw [here, before]
      ring
    refine ⟨by omega, by omega, fun odd => ?_⟩
    have distinct := ends (parity ▸ odd)
    exact ⟨by omega, by omega⟩

/-- A quotient in the cell of a finite pattern reads as that pattern. -/
theorem nearest_of_cell (h : Cell p (num * one) den) (finite : p < infinitePattern)
    (positive : 0 < den) : nearest num den = p := by
  have rounded := rounded_roundHalfEven (num * one)
    (Nat.mul_pos positive (Nat.two_pow_pos ((num * one / den).log2 - 52)))
  have same := (cell_rounded (num * one) positive rfl rounded).unique h positive
  simp only [nearest, Nat.pow_eq]
  rw [same, Nat.min_eq_right (Nat.le_of_lt finite)]

end

end Lox.Numeral
