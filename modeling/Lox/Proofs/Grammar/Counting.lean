import Lox.Proofs.Grammar.Onward

/-!
# The count of occurrences never goes back

Whatever a reader makes of its input, it leaves a count of occurrences that is at least the one
it was given, so sources read one after another never share a number.
-/
namespace Lox.Grammar

variable {k : Nat}

namespace Input

theorem nextId_of_next? {s left : Input} {t : Token} {h : left.size < s.size}
    (ht : s.next? = some ⟨t, left, h⟩) : left.nextId = s.nextId := by
  rw [next?_eq_some.mp ht]
  rfl

theorem nextId_of_take? {s left : Input} {accepts : TokenKind → Bool} {t : Token}
    {h : left.size < s.size} (ht : s.take? accepts = some ⟨t, left, h⟩) :
    left.nextId = s.nextId := by
  rw [(take?_eq_some.mp ht).2]
  rfl

theorem nextId_of_take {s left : Input} {kind : TokenKind} {t : Token} {h : left.size < s.size}
    (ht : s.take kind = some ⟨t, left, h⟩) : left.nextId = s.nextId :=
  nextId_of_take? ht

end Input

theorem kept_nextId (k : Nat) : Kept (k ≤ ·.nextId) where
  token h := h
  number h := Nat.le_succ_of_le h

theorem counts_declaration (s : Input) (pos : s.size ≠ 0) (hk : k ≤ s.nextId) :
    k ≤ (declaration s pos).left.nextId :=
  keeps_declaration (kept_nextId k) s pos hk

theorem counts_program (s : Input) (hk : k ≤ s.nextId) : k ≤ (program s).nextId := by
  rw [program]
  split
  · exact hk
  · next pos =>
    have hd := counts_declaration s pos hk
    split
    next stmt noted left hl he =>
    rw [he] at hd
    exact counts_program left hd
termination_by s.size

/-- Reading tokens never takes the count of occurrences back. -/
theorem le_nextId_parse (tokens : List Token) (n : Nat) : n ≤ (parse tokens n).nextId :=
  counts_program (.ofTokens tokens n) (Nat.le_refl n)

end Lox.Grammar
