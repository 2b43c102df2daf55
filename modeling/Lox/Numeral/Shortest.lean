import Lox.Numeral.Binary

/-!
# The shortest decimal that reads back

`shortest` finds, for a finite non-zero pattern, the decimal of fewest digits among those
nearer to it than to any other pattern, and of those the nearest. The ends of that range
read back to the pattern exactly when it is even. On a grid with a point in the range one of
the two grid points next to the number is in the range, so only these are tried.
-/
namespace Lox.Numeral

/-- The number `digits * 10 ^ exponent`. -/
structure Decimal where
  digits : Nat
  exponent : Int
  deriving DecidableEq, Repr

/-- Which of two equally near decimals is taken. -/
inductive Tie where
  | up
  | even
  deriving DecidableEq, Repr

/-- Points are counted in units of 10^-350, of which every finite non-zero double has more
than seventeen digits. -/
def fine : Nat := Nat.pow 10 350

/-- Whether the decimal `point` reads back as the pattern. -/
def readsBack (pattern point : Nat) : Bool :=
  let low := (magnitude (pattern - 1) + magnitude pattern) * fine
  let high := (magnitude pattern + magnitude (pattern + 1)) * fine
  let twice := 2 * point * one
  if pattern % 2 = 0 then low ≤ twice ∧ twice ≤ high else low < twice ∧ twice < high

/-- The better of the two neighbours `low` and `low + 1` of a number on the grid of `step`
that reads back, if one does. -/
def onGrid (tie : Tie) (pattern step : Nat) : Option Nat :=
  let exact := magnitude pattern * fine
  let low := exact / (step * one)
  let below := readsBack pattern (low * step)
  let above := readsBack pattern ((low + 1) * step)
  if below && above then
    let rest := 2 * (exact - low * step * one)
    if rest < step * one then some low
    else if step * one < rest then some (low + 1)
    else match tie with
      | .up => some (low + 1)
      | .even => some (low + low % 2)
  else if below then some low
  else if above then some (low + 1)
  else none

/-- Moves the zeros at the end of a numeral into its exponent, at most `fuel` of them. -/
def Decimal.trim : Nat → Decimal → Decimal
  | 0, d => d
  | fuel + 1, d =>
    if d.digits % 10 = 0 then trim fuel ⟨d.digits / 10, d.exponent + 1⟩ else d

/-- Tries the grids of `n`, `n + 1`, ... digits on a number of `length` digits. -/
def search (tie : Tie) (pattern length : Nat) : Nat → Nat → Decimal
  | 0, _ => ⟨magnitude pattern * fine / one, -350⟩
  | fuel + 1, n =>
    match onGrid tie pattern (Nat.pow 10 (length - n)) with
    | some digits => Decimal.trim n ⟨digits, (length : Int) - n - 350⟩
    | none => search tie pattern length fuel (n + 1)

/-- The shortest decimal that reads back as a finite non-zero pattern. Seventeen digits
always suffice. -/
def shortest (tie : Tie) (pattern : Nat) : Decimal :=
  search tie pattern (Nat.toDigits 10 (magnitude pattern * fine / one)).length 17 1

end Lox.Numeral
