import Lox.Proofs.Grammar.Acceptance
import Lox.Proofs.Grammar.Onward

/-!
# Reading ends at the first end of input

A position counts the tokens before it. Reading goes from one position to a later one, never past the
first end of input or the end of the list, and each declaration uses up a token at least, whether it
is read or dropped. So a parse is a chain of declarations from the first position to the end, and
what stands behind the end is not looked at.
-/
namespace Lox.Grammar

/-! ## Further on in the same input -/

/-- What may be left after reading has gone on from `s`. -/
structure Input.Onward (s left : Input) : Prop where
  suffix : left.rest <:+ s.rest
  sameClose : left.close = s.close

theorem kept_onward (s : Input) : Kept s.Onward where
  token {t _} h := ⟨(List.suffix_cons t _).trans h.suffix, h.sameClose⟩
  number h := ⟨h.suffix, h.sameClose⟩

/-- A declaration takes a token at least, and only tokens of its input. -/
theorem declaration_onward (s : Input) (pos : s.size ≠ 0) :
    s.Onward (declaration s pos).left ∧ (declaration s pos).left.size < s.size :=
  ⟨keeps_declaration (kept_onward s) s pos ⟨List.suffix_rfl, rfl⟩, (declaration s pos).shorter⟩

/-! ## Positions -/

/-- The token at a position is an end of input, or there is none. -/
def AtEnd (tokens : List Token) (p : Nat) : Prop :=
  ∀ t ∈ tokens[p]?, t.kind = .endOfInput

/-- The position of the first end of input, or the end of the list. -/
def stop (tokens : List Token) : Nat := tokens.findIdx (·.kind = .endOfInput)

/-- The input at a position, with `n` the next number for an occurrence. -/
def Input.at (tokens : List Token) (p n : Nat) : Input := .ofTokens (tokens.drop p) n

variable {tokens : List Token} {n p : Nat}

theorem readable_eq_take (tokens : List Token) : readable tokens = tokens.take (stop tokens) := by
  simp [readable, stop, List.takeWhile_eq_take_findIdx_not]

theorem stop_drop (h : p ≤ stop tokens) : stop (tokens.drop p) = stop tokens - p := by
  induction tokens generalizing p with
  | nil =>
    rw [List.drop_nil]
    exact (Nat.zero_sub p).symm
  | cons t ts ih =>
    cases p with
    | zero => rfl
    | succ p =>
      have later : stop (t :: ts) = stop ts + 1 := by
        rw [stop, List.findIdx_cons] at h ⊢
        cases hk : decide (t.kind = .endOfInput) with
        | true =>
          rw [hk] at h
          exact absurd h (Nat.not_succ_le_zero p)
        | false => rfl
      rw [later] at h ⊢
      rw [List.drop_succ_cons, Nat.add_sub_add_right]
      exact ih (Nat.le_of_succ_le_succ h)

theorem at_rest (h : p ≤ stop tokens) :
    (Input.at tokens p n).rest = (readable tokens).drop p := by
  show readable (tokens.drop p) = _
  rw [readable_eq_take, readable_eq_take, stop_drop h, List.drop_take]

theorem at_close (h : p ≤ stop tokens) :
    (Input.at tokens p n).close = tokens[stop tokens]?.getD ⟨.endOfInput, "", 0⟩ := by
  show ((tokens.drop p).find? (·.kind = .endOfInput)).getD _ = _
  rw [List.find?_eq_getElem?_findIdx, List.getElem?_drop]
  show tokens[p + stop (tokens.drop p)]?.getD _ = _
  rw [stop_drop h, Nat.add_sub_cancel' h]

theorem at_eq (h : p ≤ stop tokens) : Input.at tokens p n =
    ⟨(readable tokens).drop p, tokens[stop tokens]?.getD ⟨.endOfInput, "", 0⟩, n⟩ := by
  rw [← at_rest (n := n) h, ← at_close (n := n) h]
  rfl

theorem stop_le_length (tokens : List Token) : stop tokens ≤ tokens.length :=
  List.findIdx_le_length

theorem size_at (h : p ≤ stop tokens) : (Input.at tokens p n).size = stop tokens - p := by
  have := stop_le_length tokens
  rw [Input.size, at_rest h, readable_eq_take, List.length_drop, List.length_take]
  omega

theorem atEnd_stop (tokens : List Token) : AtEnd tokens (stop tokens) := by
  intro t ht
  have found : tokens.find? (·.kind = .endOfInput) = some t := by
    rw [List.find?_eq_getElem?_findIdx]
    exact ht
  simpa using List.find?_some found

/-- No end of input stands before the first one. -/
theorem not_atEnd (h : p < stop tokens) : ¬ AtEnd tokens p := by
  intro ended
  have inside := Nat.lt_of_lt_of_le h (stop_le_length tokens)
  have other := List.not_of_lt_findIdx h
  exact of_decide_eq_false other (ended _ (List.getElem?_eq_getElem inside))

/-- The token that is read next is the one at the position. -/
theorem peek_at (h : p ≤ stop tokens) :
    (Input.at tokens p n).peek = tokens[p]?.getD ⟨.endOfInput, "", 0⟩ := by
  rw [Input.peek, List.headD_eq_head?_getD, at_rest h, at_close h, List.head?_drop,
    readable_eq_take]
  rcases Nat.lt_or_eq_of_le h with inside | rfl
  · have := Nat.lt_of_lt_of_le inside (stop_le_length tokens)
    rw [List.getElem?_take_of_lt inside, List.getElem?_eq_getElem this]
    rfl
  · rw [List.getElem?_eq_none (List.length_take_le ..)]
    rfl

/-- What is further on than a position is at a later one, and not past the end. -/
theorem Input.Onward.at (h : p ≤ stop tokens) {left : Input}
    (on : (Input.at tokens p n).Onward left) :
    ∃ q, p ≤ q ∧ q ≤ stop tokens ∧ left = .at tokens q left.nextId := by
  have suffix := on.suffix
  have size := size_at (n := n) h
  have le := suffix.length_le
  have sameRest := List.suffix_iff_eq_drop.mp suffix
  rw [Input.size] at size
  rw [size] at le
  have position : p + (stop tokens - p - left.rest.length) ≤ stop tokens := by omega
  refine ⟨p + (stop tokens - p - left.rest.length), Nat.le_add_right .., position, ?_⟩
  rw [size, at_rest h, List.drop_drop] at sameRest
  obtain ⟨rest, close, id⟩ := left
  have sameClose := on.sameClose
  rw [at_close h] at sameClose
  simp only at sameRest sameClose position
  rw [at_eq position, ← sameRest, sameClose]

/-! ## The loop over declarations -/

/-- From the position `p` declarations are called one after another, as long as the position is not
at an end, and the last one leaves the position `r`. -/
inductive Loop (tokens : List Token) :
    Nat → Nat → List Stmt → List Fault → Nat → Nat → Prop where
  | ended {p n : Nat} (h : AtEnd tokens p) : Loop tokens p n [] [] p n
  | declared {p n q m r k : Nat} {first : Option Stmt} {noted : List Fault} {trees : List Stmt}
      {faults : List Fault} {shorter} (inside : ¬ AtEnd tokens p)
      (pos : (Input.at tokens p n).size ≠ 0)
      (called : declaration (.at tokens p n) pos = ⟨first, noted, .at tokens q m, shorter⟩)
      (forward : p < q) (rest : Loop tokens q m trees faults r k) :
      Loop tokens p n (first.toList ++ trees) (noted ++ faults) r k

/-- A declaration that is called at a position moves on, and not past the end. -/
theorem declaration_forward (h : p < stop tokens) (n : Nat) :
    ∃ (pos : (Input.at tokens p n).size ≠ 0) (q m : Nat), p < q ∧ q ≤ stop tokens ∧
      (declaration (.at tokens p n) pos).left = .at tokens q m := by
  have size := size_at (n := n) (Nat.le_of_lt h)
  have pos : (Input.at tokens p n).size ≠ 0 := by omega
  obtain ⟨on, shorter⟩ := declaration_onward _ pos
  obtain ⟨q, -, inside, left⟩ := on.at (Nat.le_of_lt h)
  have size' := size_at (n := (declaration (.at tokens p n) pos).left.nextId) inside
  rw [← left] at size'
  exact ⟨pos, q, _, by omega, inside, left⟩

theorem loop_program {p : Nat} (h : p ≤ stop tokens) (n : Nat) :
    Loop tokens p n (program (.at tokens p n)).statements (program (.at tokens p n)).faults
      (stop tokens) (program (.at tokens p n)).nextId := by
  rcases Nat.lt_or_eq_of_le h with inside | rfl
  · obtain ⟨pos, q, m, forward, within, left⟩ := declaration_forward inside n
    rw [program, dif_neg pos]
    generalize called : declaration (.at tokens p n) pos = result at left ⊢
    obtain ⟨first, noted, left', shorter⟩ := result
    obtain rfl : left' = .at tokens q m := left
    exact .declared (not_atEnd inside) pos called forward (loop_program within m)
  · have size := size_at (n := n) (Nat.le_refl (stop tokens))
    rw [program, dif_pos (by omega)]
    exact .ended (atEnd_stop tokens)
termination_by stop tokens - p

/-! ## What stands behind the end -/

theorem ofTokens_behind {close : Token} (ended : close.kind = .endOfInput)
    (before after : List Token) (n : Nat) :
    Input.ofTokens (before ++ close :: after) n = .ofTokens (before ++ [close]) n := by
  simp [Input.ofTokens, List.takeWhile_append, List.find?_append, ended]

theorem ofTokens_endless (endless : ∀ t ∈ tokens, t.kind ≠ .endOfInput) (n : Nat) :
    Input.ofTokens tokens n = .ofTokens (tokens ++ [⟨.endOfInput, "", 0⟩]) n := by
  have none : tokens.find? (·.kind = .endOfInput) = none :=
    List.find?_eq_none.mpr (by simpa using endless)
  have whole : readable tokens = tokens := by
    rw [readable_eq_take, stop, List.findIdx_eq_length.mpr (by simpa using endless),
      List.take_length]
  rw [readable] at whole
  simp only [Input.ofTokens, List.takeWhile_append, List.find?_append, none, whole, if_true]
  simp

/-- Parsing ends, at the first end of input. At each position before it a declaration reads the
token there first and leaves a later position, not past the end; what it reads are tokens of its
input, wherever it is called. A parse is the loop over declarations from the first position, which
is left exactly at the end. So nothing behind an end of input matters, and where there is none, one
on line 0 is implied. -/
theorem parse_ends_at_first_end :
    (∀ tokens n, Loop tokens 0 n (parse tokens n).statements (parse tokens n).faults (stop tokens)
      (parse tokens n).nextId) ∧
    (∀ tokens p n, p < stop tokens → ∃ (pos : (Input.at tokens p n).size ≠ 0) (q m : Nat),
      (Input.at tokens p n).peek = tokens[p]?.getD ⟨.endOfInput, "", 0⟩ ∧ p < q ∧
      q ≤ stop tokens ∧ (declaration (.at tokens p n) pos).left = .at tokens q m) ∧
    (∀ (s : Input) (pos : s.size ≠ 0), s.Onward (declaration s pos).left ∧
      (declaration s pos).left.size < s.size) ∧
    (∀ before (close : Token) after n, close.kind = .endOfInput →
      parse (before ++ close :: after) n = parse (before ++ [close]) n) ∧
    ∀ tokens n, (∀ t ∈ tokens, t.kind ≠ .endOfInput) →
      parse tokens n = parse (tokens ++ [⟨.endOfInput, "", 0⟩]) n := by
  refine ⟨fun tokens n => loop_program (Nat.zero_le _) n, fun tokens p n h => ?_,
    declaration_onward, fun before close after n ended => ?_, fun tokens n endless => ?_⟩
  · obtain ⟨pos, q, m, forward, within, left⟩ := declaration_forward h n
    exact ⟨pos, q, m, peek_at (Nat.le_of_lt h), forward, within, left⟩
  · rw [parse, ofTokens_behind ended, parse]
  · rw [parse, ofTokens_endless endless, parse]

/-- A word on its own, which cannot be read, and the same word before an end and another one. -/
theorem lone_word_ends :
    let word := Token.mk (.keyword .printWord) "print" 1
    let last := Token.mk .endOfInput "" 1
    let tokens := [word, last, word]
    (∃ (pos : (Input.at tokens 0 5).size ≠ 0) (q m : Nat), (Input.at tokens 0 5).peek = word ∧
      0 < q ∧ q ≤ 1 ∧ (declaration (.at tokens 0 5) pos).left = .at tokens q m) ∧
    parse tokens 5 = parse [word, last] 5 ∧
    parse [word] 5 = parse [word, ⟨.endOfInput, "", 0⟩] 5 := by
  intro word last tokens
  obtain ⟨-, forward, -, behind, endless⟩ := parse_ends_at_first_end
  exact ⟨forward tokens 0 5 (by decide), behind [word] last [word] 5 rfl,
    endless [word] 5 (by decide)⟩

end Lox.Grammar
