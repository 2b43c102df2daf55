import Lox.Numeral.Shortest
import Lox.Proofs.Numeral.Cells

/-!
# Shortest decimals read back

A decimal that is found on a grid lies in the cell of its pattern. On the grid of seventeen digits
one is always found: two steps of it are less than a ten-to-the-sixteenth part of the number, and a
pattern is at least a 2^53rd part of its number away from those beside it.
-/
namespace Lox.Numeral

variable {p point step : Nat} {tie : Tie}

theorem one_pos : 0 < one := by decide +kernel

theorem fine_pos : 0 < fine := by decide +kernel

/-! ## Points of a grid -/

theorem cell_of_readsBack (h : readsBack p point = true) : Cell p (point * one) fine := by
  unfold readsBack at h
  simp only at h
  rw [Nat.mul_assoc] at h
  split at h
  · next even =>
    obtain ⟨low, high⟩ := of_decide_eq_true h
    exact ⟨low, high, fun odd => by omega⟩
  · obtain ⟨low, high⟩ := of_decide_eq_true h
    exact ⟨Nat.le_of_lt low, Nat.le_of_lt high, fun _ => ⟨Nat.ne_of_lt low, Nat.ne_of_lt high⟩⟩

theorem readsBack_of_between
    (low : (magnitude (p - 1) + magnitude p) * fine < 2 * (point * one))
    (high : 2 * (point * one) < (magnitude p + magnitude (p + 1)) * fine) :
    readsBack p point = true := by
  unfold readsBack
  simp only
  rw [Nat.mul_assoc]
  split
  · exact decide_eq_true ⟨Nat.le_of_lt low, Nat.le_of_lt high⟩
  · exact decide_eq_true ⟨low, high⟩

/-- What a grid gives reads back. -/
theorem readsBack_of_onGrid {digits : Nat} (h : onGrid tie p step = some digits) :
    readsBack p (digits * step) = true := by
  unfold onGrid at h
  simp only at h
  split at h
  · next both =>
    obtain ⟨below, above⟩ := Bool.and_eq_true_iff.mp both
    split at h
    · cases h
      exact below
    · split at h
      · cases h
        exact above
      · cases tie with
        | up =>
          cases h
          exact above
        | even =>
          cases h
          rcases Nat.mod_two_eq_zero_or_one (magnitude p * fine / (step * one)) with even | odd
          · rw [even, Nat.add_zero]
            exact below
          · rw [odd]
            exact above
  · split at h
    · next below =>
      cases h
      exact below
    · split at h
      · next above =>
        cases h
        exact above
      · cases h

theorem onGrid_eq_some (h : readsBack p (magnitude p * fine / (step * one) * step) = true ∨
    readsBack p ((magnitude p * fine / (step * one) + 1) * step) = true) :
    ∃ digits, onGrid tie p step = some digits := by
  unfold onGrid
  simp only
  split
  · (repeat' split) <;> exact ⟨_, rfl⟩
  · split
    · exact ⟨_, rfl⟩
    · next below =>
      rw [if_pos (h.resolve_left below)]
      exact ⟨_, rfl⟩

/-! ## Seventeen digits -/

theorem magnitude_le_gap (positive : 0 < p) : magnitude p ≤ 2 ^ 53 * gap (p - 1) := by
  obtain ⟨before, rfl⟩ : ∃ before, p = before + 1 := ⟨p - 1, by omega⟩
  rw [Nat.add_sub_cancel, magnitude_succ]
  obtain ⟨scale, steps, rfl, normal, less⟩ := exists_scale before
  rw [magnitude_at normal (Nat.le_of_lt less), gap_at normal less, ← Nat.succ_mul]
  exact Nat.mul_le_mul_right _ less

theorem gap_mono {q : Nat} (h : p ≤ q) : gap p ≤ gap q :=
  Nat.pow_le_pow_right Nat.two_pos (Nat.sub_le_sub_right (Nat.div_le_div_right h) 1)

/-- On a grid that is fine enough the nearer neighbour of the number reads back. -/
theorem onGrid_of_fine (positive : 0 < p) (resolves : 10 ^ 16 * (step * one) ≤ magnitude p * fine)
    (proper : 0 < step) : ∃ digits, onGrid tie p step = some digits := by
  have step_pos : 0 < step * one := Nat.mul_pos proper one_pos
  -- a step of the grid is shorter than the one to the pattern before, and that one is the shorter
  have narrow : step * one < gap (p - 1) * fine := by
    have bound : magnitude p * fine ≤ 2 ^ 53 * (gap (p - 1) * fine) := by
      rw [← Nat.mul_assoc]
      exact Nat.mul_le_mul_right _ (magnitude_le_gap positive)
    have gap_fine := Nat.mul_pos (gap_pos (p - 1)) fine_pos
    omega
  have widen : gap (p - 1) * fine ≤ gap p * fine :=
    Nat.mul_le_mul_right _ (gap_mono (Nat.sub_le p 1))
  have before : (magnitude (p - 1) + magnitude p) * fine + gap (p - 1) * fine =
      2 * (magnitude p * fine) := by
    have next := magnitude_succ (p - 1)
    rw [Nat.sub_add_cancel positive] at next
    rw [next]
    ring
  have after : (magnitude p + magnitude (p + 1)) * fine =
      2 * (magnitude p * fine) + gap p * fine := by
    rw [magnitude_succ]
    ring
  have whole := Nat.div_add_mod' (magnitude p * fine) (step * one)
  have rest := Nat.mod_lt (magnitude p * fine) step_pos
  have next : (magnitude p * fine / (step * one) + 1) * (step * one) =
      magnitude p * fine / (step * one) * (step * one) + step * one := Nat.succ_mul _ _
  refine onGrid_eq_some ?_
  rcases Nat.lt_or_ge (step * one) (2 * (magnitude p * fine % (step * one))) with more | less
  · refine .inr (readsBack_of_between ?_ ?_) <;> rw [Nat.mul_assoc] <;> omega
  · refine .inl (readsBack_of_between ?_ ?_) <;> rw [Nat.mul_assoc] <;> omega

/-! ## The search -/

/-- A decimal is so many units of 10^-350. -/
def Decimal.Counts (d : Decimal) (units : Nat) : Prop :=
  ∃ places : Nat, d.exponent = (places : Int) - 350 ∧ d.digits * 10 ^ places = units

/-- Zeros at the end change nothing, and the exponent does not fall. -/
theorem Decimal.Counts.trim {d : Decimal} {units : Nat} (h : d.Counts units) (fuel : Nat) :
    (d.trim fuel).Counts units ∧ d.exponent ≤ (d.trim fuel).exponent := by
  induction fuel generalizing d with
  | zero => exact ⟨h, Int.le_refl _⟩
  | succ fuel ih =>
    rw [Decimal.trim]
    split
    · next zero =>
      obtain ⟨places, exponent, digits⟩ := h
      have shorter : Decimal.Counts ⟨d.digits / 10, d.exponent + 1⟩ units := by
        refine ⟨places + 1, ?_, ?_⟩
        · show d.exponent + 1 = _
          omega
        · show d.digits / 10 * 10 ^ (places + 1) = units
          rw [Nat.pow_succ', ← Nat.mul_assoc, Nat.div_mul_cancel (Nat.dvd_of_mod_eq_zero zero),
            digits]
      have trimmed := ih shorter
      exact ⟨trimmed.1, Int.le_trans (Int.le_add_one (Int.le_refl _)) trimmed.2⟩
    · exact ⟨h, Int.le_refl _⟩

/-- From some number of digits up to seventeen the search finds a decimal in the cell. -/
theorem search_found {length : Nat} (long : 17 ≤ length)
    (last : ∃ digits, onGrid tie p (Nat.pow 10 (length - 17)) = some digits) {fuel n : Nat}
    (left : n + fuel = 18) (more : n ≤ 17) :
    ∃ units, readsBack p units = true ∧ (search tie p length fuel n).Counts units ∧
      (length : Int) - 367 ≤ (search tie p length fuel n).exponent := by
  induction fuel generalizing n with
  | zero => omega
  | succ fuel ih =>
    rw [search]
    split
    · next digits found =>
      have counts : Decimal.Counts ⟨digits, (length : Int) - n - 350⟩
          (digits * Nat.pow 10 (length - n)) := by
        refine ⟨length - n, ?_, rfl⟩
        show (length : Int) - n - 350 = _
        omega
      obtain ⟨trimmed, above⟩ := counts.trim n
      refine ⟨_, readsBack_of_onGrid found, trimmed, Int.le_trans ?_ above⟩
      show (length : Int) - 367 ≤ (length : Int) - n - 350
      omega
    · next none_found =>
      rcases Nat.lt_or_eq_of_le more with less | rfl
      · exact ih (by omega) less
      · obtain ⟨digits, found⟩ := last
        rw [found] at none_found
        cases none_found

/-- A numeral is at least the power of ten of its length less one. -/
theorem pow_le_of_length {n k : Nat} (h : (Nat.toDigits 10 n).length = k + 1) (more : 0 < k) :
    10 ^ k ≤ n := by
  refine Nat.le_of_not_lt fun less => ?_
  have short := (Nat.length_toDigits_le_iff (by decide) more).mpr less
  omega

theorem length_of_pow_le {n k : Nat} (h : 10 ^ k ≤ n) (more : 0 < k) :
    k < (Nat.toDigits 10 n).length := by
  refine Nat.lt_of_not_le fun short => ?_
  have less := (Nat.length_toDigits_le_iff (by decide) more).mp short
  omega

/-- The shortest decimal of a pattern reads back as it. -/
theorem shortest_found (tie : Tie) (positive : 0 < p) :
    ∃ units, readsBack p units = true ∧ (shortest tie p).Counts units ∧
      ((Nat.toDigits 10 (magnitude p * fine / one)).length : Int) - 367 ≤
        (shortest tie p).exponent := by
  have least : 0 < magnitude p := Nat.lt_of_le_of_lt (Nat.zero_le _) (magnitude_strictMono positive)
  have large : 10 ^ 16 ≤ magnitude p * fine / one := by
    rw [Nat.le_div_iff_mul_le one_pos]
    have bound : 10 ^ 16 * one ≤ fine := by decide +kernel
    exact Nat.le_trans bound (Nat.le_mul_of_pos_left fine least)
  have long := length_of_pow_le large (by decide)
  have resolves : 10 ^ 16 * (Nat.pow 10
      ((Nat.toDigits 10 (magnitude p * fine / one)).length - 17) * one) ≤ magnitude p * fine := by
    obtain ⟨more, length⟩ := Nat.exists_eq_add_of_lt long
    have digits : 10 ^ (16 + more) ≤ magnitude p * fine / one := pow_le_of_length length (by omega)
    have places : (Nat.toDigits 10 (magnitude p * fine / one)).length - 17 = more := by omega
    rw [places, ← Nat.mul_assoc, Nat.pow_eq, ← Nat.pow_add]
    exact (Nat.le_div_iff_mul_le one_pos).mp digits
  exact search_found long (onGrid_of_fine positive resolves (Nat.pow_pos (by decide))) rfl (by decide)

end Lox.Numeral
