/-!
# Doubles as exact multiples of the least subnormal

A double without its sign is a 63-bit pattern. Below the infinite pattern it denotes
`magnitude pattern` times 2^-1074, and patterns are ordered as the numbers they denote.
`nearest` goes back from an exact quotient; nothing here uses floating arithmetic.
-/
namespace Lox.Numeral

/-- The pattern of infinity. Larger patterns are not numbers. -/
def infinitePattern : Nat := 0x7FF * Nat.pow 2 52

/-- How many least subnormals make one. -/
def one : Nat := Nat.pow 2 1074

/-- The number a finite pattern denotes, counted in least subnormals. -/
def magnitude (pattern : Nat) : Nat :=
  if pattern < Nat.pow 2 52 then pattern
  else (Nat.pow 2 52 + pattern % Nat.pow 2 52) * Nat.pow 2 (pattern / Nat.pow 2 52 - 1)

/-- The integer nearest to a quotient; a half goes to the even neighbour. -/
def roundHalfEven (num den : Nat) : Nat :=
  let low := num / den
  let twice := 2 * (num % den)
  if twice < den then low
  else if den < twice then low + 1
  else low + low % 2

/-- The pattern nearest to `num / den`; a tie goes to the even pattern, and what lies
beyond the largest finite pattern by half a step or more is infinite. The truncated
subtraction gives subnormals their fixed scale, and a mantissa that rounds up to 2^53
carries into the exponent by itself. -/
def nearest (num den : Nat) : Nat :=
  let scale := (num * one / den).log2 - 52
  min infinitePattern (scale * Nat.pow 2 52 + roundHalfEven (num * one) (den * Nat.pow 2 scale))

/-- What a double stands for. -/
inductive Kind where
  | notANumber
  | infinite
  | finite (pattern : Nat)
  deriving DecidableEq, Repr

/-- Whether the sign bit is set. -/
def negative (x : Float) : Bool := Nat.pow 2 63 ≤ x.toBits.toNat

/-- The pattern of a double without its sign. -/
def pattern (x : Float) : Nat := x.toBits.toNat % Nat.pow 2 63

def classify (x : Float) : Kind :=
  if pattern x < infinitePattern then .finite (pattern x)
  else if pattern x = infinitePattern then .infinite
  else .notANumber

/-- The double with the sign clear and this pattern. -/
def ofPattern (pattern : Nat) : Float := Float.ofBits pattern.toUInt64

/-- The double nearest to the decimal `whole.fraction`, both parts given by their digits. -/
def ofDecimal (whole fraction : List Char) : Float :=
  ofPattern (nearest (Nat.ofDigitChars 10 (whole ++ fraction) 0) (Nat.pow 10 fraction.length))

end Lox.Numeral
