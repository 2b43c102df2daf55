/-!
# Bytes as text

Bytes are read as UTF-8 one character at a time. A fault tells where the first ill-formed
sequence starts and how many of its bytes can be judged, or that the bytes end inside one.
-/
namespace Lox.Utf8

inductive Fault where
  | invalid (length index : Nat)
  | incomplete (index : Nat)
  deriving DecidableEq, Repr

def Fault.message : Fault → String
  | invalid length index =>
    "invalid utf-8 sequence of " ++ toString length ++ " bytes from index " ++ toString index
  | incomplete index => "incomplete utf-8 byte sequence from index " ++ toString index

/-- What a leading byte asks for: the range of the byte after it, and how many bytes follow. -/
structure Lead where
  low : Nat
  high : Nat
  more : Nat

/-- Bytes that would start an overlong form, a surrogate or too large a number ask for a
narrower second byte, or are no leading bytes. -/
def lead? (b : Nat) : Option Lead :=
  if b < 0xC2 then none
  else if b < 0xE0 then some ⟨0x80, 0xBF, 1⟩
  else if b = 0xE0 then some ⟨0xA0, 0xBF, 2⟩
  else if b = 0xED then some ⟨0x80, 0x9F, 2⟩
  else if b < 0xF0 then some ⟨0x80, 0xBF, 2⟩
  else if b = 0xF0 then some ⟨0x90, 0xBF, 3⟩
  else if b < 0xF4 then some ⟨0x80, 0xBF, 3⟩
  else if b = 0xF4 then some ⟨0x80, 0x8F, 3⟩
  else none

/-- The bits that a leading byte with `more` followers gives. -/
def leadBits (b more : Nat) : Nat := b % Nat.pow 2 (6 - more)

/-- How a sequence goes on after `seen` bytes that gave the number `code`: the character, or
how many bytes are wrong, none if the bytes ended. -/
def follow (lead : Lead) (seen code : Nat) : Nat → List UInt8 → Except (Option Nat) Char
  | 0, _ => .ok (Char.ofNat code)
  | _ + 1, [] => .error none
  | more + 1, b :: rest =>
    let inRange :=
      if seen = 1 then lead.low ≤ b.toNat ∧ b.toNat ≤ lead.high
      else 0x80 ≤ b.toNat ∧ b.toNat ≤ 0xBF
    if inRange then follow lead (seen + 1) (code * 64 + b.toNat % 64) more rest
    else .error (some seen)

/-- The first character of `b :: rest` and its length, or the fault there. -/
def first (index : Nat) (b : UInt8) (rest : List UInt8) : Except Fault (Char × Nat) :=
  if b.toNat < 0x80 then .ok (Char.ofNat b.toNat, 1)
  else match lead? b.toNat with
    | none => .error (.invalid 1 index)
    | some lead =>
      match follow lead 1 (leadBits b.toNat lead.more) lead.more rest with
      | .ok c => .ok (c, lead.more + 1)
      | .error (some length) => .error (.invalid length index)
      | .error none => .error (.incomplete index)

/-- Characters and faults in order. A faulty sequence counts once. -/
def readFrom (index : Nat) : List UInt8 → List (Except Fault Char)
  | [] => []
  | b :: rest =>
    match first index b rest with
    | .ok (c, length) => .ok c :: readFrom (index + length) (rest.drop (length - 1))
    | .error (.invalid length i) =>
      .error (.invalid length i) :: readFrom (index + length) (rest.drop (length - 1))
    | .error (.incomplete i) => [.error (.incomplete i)]
termination_by bytes => bytes.length
decreasing_by all_goals (simp only [List.length_drop, List.length_cons]; omega)

/-- The text that bytes stand for, or the first fault in them. -/
def decode (bytes : ByteArray) : Except Fault String :=
  ((readFrom 0 bytes.toList).mapM id).map String.ofList

/-- The text that bytes stand for, each faulty sequence replaced by U+FFFD. -/
def decodeLossy (bytes : ByteArray) : String :=
  String.ofList ((readFrom 0 bytes.toList).map fun
    | .ok c => c
    | .error _ => '\uFFFD')

end Lox.Utf8
