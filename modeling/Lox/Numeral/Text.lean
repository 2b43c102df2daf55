import Lox.Numeral.Shortest

/-!
# Written forms of a double

Four forms: `display` is what a program prints, `pointed` stands in the text of a syntax
tree, `literal` beside the lexeme of a token, `json` in a token's JSON text. They differ in
the integers, in the ends of the range and in which way a tie goes.
-/
namespace Lox.Numeral

def zeros (n : Nat) : List Char := List.replicate n '0'

/-- A decimal without an exponent, with a point only where digits follow it. -/
def Decimal.plain (d : Decimal) : List Char :=
  let text := Nat.toDigits 10 d.digits
  match d.exponent with
  | .ofNat n => text ++ zeros n
  | .negSucc n =>
    let places := n + 1
    if places < text.length then
      text.take (text.length - places) ++ '.' :: text.drop (text.length - places)
    else '0' :: '.' :: zeros (places - text.length) ++ text

/-- Whether a finite pattern denotes an integer. -/
def integral (pattern : Nat) : Bool := magnitude pattern % one = 0

/-- The digits of an integral pattern, all of them. -/
def wholeDigits (pattern : Nat) : List Char := Nat.toDigits 10 (magnitude pattern / one)

def signed (x : Float) (text : List Char) : String :=
  String.ofList (if negative x then '-' :: text else text)

/-- What a program prints: integers exactly and without a point, others by their shortest
decimal, never with an exponent. -/
def display (x : Float) : String :=
  match classify x with
  | .notANumber => "NaN"
  | .infinite => signed x "Infinity".toList
  | .finite p => signed x (if integral p then wholeDigits p else (shortest .up p).plain)

/-- In the text of a syntax tree integers are exact and end in `.0`. -/
def pointed (x : Float) : String :=
  match classify x with
  | .notANumber => "NaN"
  | .infinite => signed x "inf".toList
  | .finite p =>
    signed x (if integral p then wholeDigits p ++ ['.', '0'] else (shortest .up p).plain)

/-- Beside a token's lexeme integers below 2^63 are exact and zero has no sign; larger ones
are their shortest digits filled up with zeros. Both end in `.0`. -/
def literal (x : Float) : String :=
  match classify x with
  | .notANumber => "NaN"
  | .infinite => signed x "inf".toList
  | .finite p =>
    if p = 0 then "0.0"
    else if integral p then
      if magnitude p < Nat.pow 2 63 * one then signed x (wholeDigits p ++ ['.', '0'])
      else signed x ((shortest .up p).plain ++ ['.', '0'])
    else signed x (shortest .up p).plain

/-- A decimal in scientific notation, its exponent with a sign. -/
def Decimal.scientific (d : Decimal) : List Char :=
  let text := Nat.toDigits 10 d.digits
  let mantissa := match text with
    | first :: second :: rest => first :: '.' :: second :: rest
    | short => short
  match d.exponent + text.length - 1 with
  | .ofNat n => mantissa ++ 'e' :: '+' :: Nat.toDigits 10 n
  | .negSucc n => mantissa ++ 'e' :: '-' :: Nat.toDigits 10 (n + 1)

/-- In JSON a number from 10^-5 up to 10^16 is plain and keeps one place at least, others
are scientific; what is not finite is `null`. -/
def json (x : Float) : String :=
  match classify x with
  | .notANumber => "null"
  | .infinite => "null"
  | .finite p =>
    if p = 0 then signed x ['0', '.', '0']
    else
      let d := shortest .even p
      let point := d.exponent + (Nat.toDigits 10 d.digits).length
      if -5 < point ∧ point ≤ 16 then
        signed x (if 0 ≤ d.exponent then d.plain ++ ['.', '0'] else d.plain)
      else signed x d.scientific

end Lox.Numeral
