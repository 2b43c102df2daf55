import Lox.Fault

/-!
# Reading tokens with a bound on what is left

An input is the list of tokens before the end, the token that stands for the end, and the
next number for an occurrence. A reply to an input of size `n` is either `done`, with fewer
than `n` tokens left, or `stuck` at a fault. Both carry the faults noted on the way, which
did not stop the reading. The bounds are what makes every reader terminate.
-/
namespace Lox.Grammar

structure Input where
  rest : List Token
  close : Token
  nextId : Nat

namespace Input

def size (s : Input) : Nat := s.rest.length

/-- The tokens before the first end of input; where none stands, an end on line 0 is
implied. -/
def ofTokens (tokens : List Token) (nextId : Nat) : Input where
  rest := tokens.takeWhile (·.kind ≠ .endOfInput)
  close := (tokens.find? (·.kind = .endOfInput)).getD ⟨.endOfInput, "", 0⟩
  nextId := nextId

/-- The token that is read next, at last the end of input. -/
def peek (s : Input) : Token := s.rest.headD s.close

end Input

/-- A token read from an input of size `n`, and the rest. -/
structure Taken (n : Nat) where
  token : Token
  left : Input
  shorter : left.size < n

namespace Input

def next? (s : Input) : Option (Taken s.size) :=
  match h : s.rest with
  | [] => none
  | t :: ts => some ⟨t, { s with rest := ts }, by simp [size, h]⟩

/-- Reads the next token if it is of an accepted kind. -/
def take? (s : Input) (accepts : TokenKind → Bool) : Option (Taken s.size) :=
  match s.next? with
  | some t => if accepts t.token.kind then some t else none
  | none => none

def take (s : Input) (kind : TokenKind) : Option (Taken s.size) := s.take? (· = kind)

end Input

inductive Reply (α : Type) (n : Nat) where
  | done (value : α) (noted : List Fault) (left : Input) (shorter : left.size < n)
  | stuck (fault : Fault) (noted : List Fault) (left : Input) (noLonger : left.size ≤ n)

namespace Reply

variable {α β : Type} {n m : Nat}

def pure (value : α) (left : Input) (shorter : left.size < n := by omega) : Reply α n :=
  .done value [] left shorter

/-- A value that uses up the next number for an occurrence. -/
def tagged (value : Nat → α) (left : Input) (shorter : left.size < n := by omega) : Reply α n :=
  .done (value left.nextId) [] { left with nextId := left.nextId + 1 } shorter

/-- Stuck at the next token. -/
def expected (cause : ParseCause) (s : Input) (noLonger : s.size ≤ n := by omega) : Reply α n :=
  .stuck (.parse cause s.peek) [] s noLonger

/-- Puts earlier faults before those of a reply. -/
def noting (earlier : List Fault) : Reply α n → Reply α n
  | .done value noted left h => .done value (earlier ++ noted) left h
  | .stuck fault noted left h => .stuck fault (earlier ++ noted) left h

def widen (r : Reply α n) (le : n ≤ m := by omega) : Reply α m :=
  match r with
  | .done value noted left h => .done value noted left (Nat.lt_of_lt_of_le h le)
  | .stuck fault noted left h => .stuck fault noted left (Nat.le_trans h le)

/-- Goes on with what a reply left over, unless it is stuck. -/
@[inline] def andThen (r : Reply α n)
    (next : α → (left : Input) → left.size < n → Reply β m) (le : n ≤ m := by omega) :
    Reply β m :=
  match r with
  | .done value noted left h => (next value left h).noting noted
  | .stuck fault noted left h => .stuck fault noted left (Nat.le_trans h le)

end Reply

end Lox.Grammar
