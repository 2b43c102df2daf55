import Lox.Proofs.Grammar.Reads

/-!
# What reading keeps

A reader only takes tokens and uses up numbers. So a property of inputs that neither of the two
loses holds of whatever a reader leaves, be it done or stuck, and at any depth.
-/
namespace Lox.Grammar

variable {α β : Type} {n m : Nat} {P : Input → Prop}

/-- A property of inputs that is not lost when a token is taken or a number is used up. -/
structure Kept (P : Input → Prop) : Prop where
  token {t : Token} {s : Input} : P (s.push t) → P s
  number {s : Input} : P s → P { s with nextId := s.nextId + 1 }

namespace Reply

/-- What is left of the input, whether or not something was read. -/
def left : Reply α n → Input
  | done _ _ left _ => left
  | stuck _ _ left _ => left

/-- The property holds of what the reply leaves. -/
def Leaves (P : Input → Prop) (r : Reply α n) : Prop := P r.left

theorem leaves_pure {value : α} {s : Input} {h : s.size < n} (hs : P s) :
    (pure value s h).Leaves P := hs

theorem leaves_tagged (kept : Kept P) {value : Nat → α} {s : Input} {h : s.size < n} (hs : P s) :
    (tagged value s h).Leaves P := kept.number hs

theorem leaves_expected {cause : ParseCause} {s : Input} {h : s.size ≤ n} (hs : P s) :
    (expected cause s h : Reply α n).Leaves P := hs

theorem Leaves.noting {r : Reply α n} {earlier : List Fault} (h : r.Leaves P) :
    (r.noting earlier).Leaves P := by
  cases r <;> exact h

theorem Leaves.widen {r : Reply α n} {le : n ≤ m} (h : r.Leaves P) : (r.widen le).Leaves P := by
  cases r <;> exact h

theorem Leaves.andThen {r : Reply α n} {next : α → (left : Input) → left.size < n → Reply β m}
    {le : n ≤ m} (h : r.Leaves P)
    (h' : ∀ value left hl, P left → (next value left hl).Leaves P) :
    (r.andThen next le).Leaves P := by
  cases r with
  | done value noted left hl => exact (h' value left hl h).noting
  | stuck => exact h

end Reply

namespace Kept

variable (kept : Kept P) {s left : Input} {t : Token} {h : left.size < s.size}
include kept

theorem next? (ht : s.next? = some ⟨t, left, h⟩) (hs : P s) : P left :=
  kept.token (Input.next?_eq_some.mp ht ▸ hs)

theorem take? {accepts : TokenKind → Bool} (ht : s.take? accepts = some ⟨t, left, h⟩) (hs : P s) :
    P left :=
  kept.token ((Input.take?_eq_some.mp ht).2 ▸ hs)

theorem take {kind : TokenKind} (ht : s.take kind = some ⟨t, left, h⟩) (hs : P s) : P left :=
  kept.take? ht hs

theorem expect {kind : TokenKind} {cause : ParseCause} (hs : P s) :
    (s.expect kind cause).Leaves P := by
  unfold Input.expect
  split
  · next t left h ht => exact Reply.leaves_pure (kept.take ht hs)
  · exact Reply.leaves_expected hs

theorem skipStatement {ts : List Token} {close : Token} {id : Nat} (hs : P ⟨ts, close, id⟩) :
    P ⟨Grammar.skipStatement t ts, close, id⟩ := by
  induction ts generalizing t with
  | nil => exact hs
  | cons u ts ih =>
    unfold Grammar.skipStatement
    split
    · exact hs
    · exact ih (kept.token (t := u) (s := ⟨ts, close, id⟩) hs)

theorem recover (hs : P s) : P s.recover := by
  obtain ⟨rest, close, id⟩ := s
  cases rest with
  | nil => exact hs
  | cons t ts => exact kept.skipStatement (kept.token (t := t) (s := ⟨ts, close, id⟩) hs)

theorem recovered {r : Reply Stmt n} {pos : n ≠ 0} (hr : r.Leaves P) :
    P (r.recovered pos).left := by
  cases r with
  | done => exact hr
  | stuck fault noted left hl => exact kept.recover hr

end Kept

open Reply

/-! ## Expressions -/

theorem keeps_assignTo (kept : Kept P) {target value : Expr} {equals : Token} {s : Input}
    {h : s.size < n} (hs : P s) : (assignTo target equals value s h).Leaves P := by
  unfold assignTo
  split
  · exact leaves_tagged kept hs
  · exact leaves_pure hs
  · exact hs

mutual

theorem keeps_expression (kept : Kept P) (s : Input) (hs : P s) : (expression s).Leaves P := by
  rw [expression]
  refine (keeps_tiers kept Tier.all s hs).andThen fun target s₁ h₁ hs => ?_
  split
  · exact leaves_pure hs
  · next equals s₂ h₂ ht =>
    refine (keeps_expression kept s₂ (kept.take ht hs)).andThen fun value s₃ h₃ hs => ?_
    exact keeps_assignTo kept hs
termination_by s.size * 16 + 12
decreasing_by
  · simp only [Tier.length_all]
    omega
  · omega

theorem keeps_tiers (kept : Kept P) (ts : List Tier) (s : Input) (hs : P s) :
    (tiers ts s).Leaves P := by
  cases ts with
  | nil =>
    rw [tiers]
    exact keeps_unary kept s hs
  | cons t ts =>
    rw [tiers]
    exact (keeps_tiers kept ts s hs).andThen fun left s₁ h₁ hs =>
      (keeps_operators kept t ts left s₁ hs).widen
termination_by s.size * 16 + ts.length + 3
decreasing_by all_goals (simp only [List.length_nil, List.length_cons]; omega)

theorem keeps_operators (kept : Kept P) (t : Tier) (ts : List Tier) (left : Expr) (s : Input)
    (hs : P s) : (operators t ts left s).Leaves P := by
  rw [operators]
  split
  · exact leaves_pure hs
  · next operator s₁ h₁ ht =>
    refine (keeps_tiers kept ts s₁ (kept.take? ht hs)).andThen fun right s₂ h₂ hs => ?_
    exact (keeps_operators kept t ts _ s₂ hs).widen
termination_by s.size * 16 + ts.length + 3

theorem keeps_unary (kept : Kept P) (s : Input) (hs : P s) : (unary s).Leaves P := by
  rw [unary]
  split
  · next operator s₁ h₁ ht =>
    refine (keeps_unary kept s₁ (kept.take? ht hs)).andThen fun right s₂ h₂ hs => ?_
    exact leaves_pure hs
  · exact (keeps_primary kept s hs).andThen fun callee s₁ h₁ hs =>
      (keeps_accesses kept callee s₁ hs).widen
termination_by s.size * 16 + 1

theorem keeps_accesses (kept : Kept P) (target : Expr) (s : Input) (hs : P s) :
    (accesses target s).Leaves P := by
  rw [accesses]
  split
  · next s₁ h₁ ht =>
    have hs := kept.take ht hs
    split
    · next paren s₂ h₂ ht => exact (keeps_accesses kept _ s₂ (kept.take ht hs)).widen
    · exact (keeps_arguments kept 0 s₁ hs).andThen fun found s₂ h₂ hs =>
        (keeps_accesses kept _ s₂ hs).widen
  · split
    · next s₁ h₁ ht =>
      exact (kept.expect (kept.take ht hs)).andThen fun name s₂ h₂ hs =>
        (keeps_accesses kept _ s₂ hs).widen
    · exact leaves_pure hs
termination_by s.size * 16

theorem keeps_arguments (kept : Kept P) (count : Nat) (s : Input) (hs : P s) :
    (arguments count s).Leaves P := by
  rw [arguments]
  refine Leaves.noting ((keeps_expression kept s hs).andThen fun argument s₁ h₁ hs => ?_)
  split
  · next s₂ h₂ ht =>
    refine (keeps_arguments kept (count + 1) s₂ (kept.take ht hs)).andThen fun more s₃ h₃ hs => ?_
    exact leaves_pure hs
  · exact (kept.expect hs).andThen fun paren s₂ h₂ hs => leaves_pure hs
termination_by s.size * 16 + 13

theorem keeps_primary (kept : Kept P) (s : Input) (hs : P s) : (primary s).Leaves P := by
  rw [primary]
  split
  · exact leaves_expected hs
  · next t s₁ h₁ ht =>
    have hs₁ := kept.next? ht hs
    split
    · exact leaves_pure hs₁
    · exact leaves_pure hs₁
    · exact leaves_pure hs₁
    · exact leaves_pure hs₁
    · exact leaves_pure hs₁
    · exact leaves_tagged kept hs₁
    · exact leaves_tagged kept hs₁
    · refine (kept.expect hs₁).andThen fun _ s₂ h₂ hs => ?_
      exact (kept.expect hs).andThen fun method s₃ h₃ hs => leaves_tagged kept hs
    · refine (keeps_expression kept s₁ hs₁).andThen fun inner s₂ h₂ hs => ?_
      exact (kept.expect hs).andThen fun _ s₃ h₃ hs => leaves_pure hs
    · exact leaves_expected hs
termination_by s.size * 16

end

/-! ## Statements -/

theorem keeps_clause (kept : Kept P) {close : Symbol} {cause : ParseCause} {s : Input} (hs : P s) :
    (clause close cause s).Leaves P := by
  unfold clause
  split
  · next s₁ h₁ ht => exact leaves_pure (kept.take ht hs)
  · refine (keeps_expression kept s hs).andThen fun value s₁ h₁ hs => ?_
    exact (kept.expect hs).andThen fun _ s₂ h₂ hs => leaves_pure hs

theorem keeps_expressionStatement (kept : Kept P) {s : Input} (hs : P s) :
    (expressionStatement s).Leaves P := by
  refine (keeps_expression kept s hs).andThen fun value s₁ h₁ hs => ?_
  exact (kept.expect hs).andThen fun _ s₂ h₂ hs => leaves_pure hs

theorem keeps_printStatement (kept : Kept P) {s : Input} (hs : P s) :
    (printStatement s).Leaves P := by
  refine (keeps_expression kept s hs).andThen fun value s₁ h₁ hs => ?_
  exact (kept.expect hs).andThen fun _ s₂ h₂ hs => leaves_pure hs

theorem keeps_returnStatement (kept : Kept P) {keyword : Token} {s : Input} (hs : P s) :
    (returnStatement keyword s).Leaves P :=
  (keeps_clause kept hs).andThen fun _ _ _ hs => leaves_pure hs

theorem keeps_varDeclaration (kept : Kept P) {s : Input} (hs : P s) :
    (varDeclaration s).Leaves P := by
  refine (kept.expect hs).andThen fun name s₁ h₁ hs => ?_
  split
  · next s₂ h₂ ht =>
    refine (keeps_expression kept s₂ (kept.take ht hs)).andThen fun value s₃ h₃ hs => ?_
    exact (kept.expect hs).andThen fun _ s₄ h₄ hs => leaves_pure hs
  · exact (kept.expect hs).andThen fun _ s₂ h₂ hs => leaves_pure hs

theorem keeps_condition (kept : Kept P) {opening closing : ParseCause} {s : Input} (hs : P s) :
    (condition opening closing s).Leaves P := by
  refine (kept.expect hs).andThen fun _ s₁ h₁ hs => ?_
  refine (keeps_expression kept s₁ hs).andThen fun value s₂ h₂ hs => ?_
  exact (kept.expect hs).andThen fun _ s₃ h₃ hs => leaves_pure hs

theorem keeps_forInitializer (kept : Kept P) {s : Input} (hs : P s) :
    (forInitializer s).Leaves P := by
  unfold forInitializer
  split
  · next s₁ h₁ ht => exact leaves_pure (kept.take ht hs)
  · split
    · next s₁ h₁ ht =>
      exact (keeps_varDeclaration kept (kept.take ht hs)).andThen fun _ s₂ h₂ hs =>
        leaves_pure hs
    · exact (keeps_expressionStatement kept hs).andThen fun _ s₁ h₁ hs => leaves_pure hs

theorem keeps_forClauses (kept : Kept P) {s : Input} (hs : P s) : (forClauses s).Leaves P := by
  refine (kept.expect hs).andThen fun _ s₁ h₁ hs => ?_
  refine (keeps_forInitializer kept hs).andThen fun initializer s₂ h₂ hs => ?_
  refine (keeps_clause kept hs).andThen fun condition s₃ h₃ hs => ?_
  exact (keeps_clause kept hs).andThen fun increment s₄ h₄ hs => leaves_pure hs

theorem keeps_parameters (kept : Kept P) (count : Nat) (s : Input) (hs : P s) :
    (parameters count s).Leaves P := by
  rw [parameters]
  refine Leaves.noting ((kept.expect hs).andThen fun parameter s₁ h₁ hs => ?_)
  split
  · next s₂ h₂ ht =>
    refine (keeps_parameters kept (count + 1) s₂ (kept.take ht hs)).andThen
      fun more s₃ h₃ hs => ?_
    exact leaves_pure hs
  · exact (kept.expect hs).andThen fun _ s₂ h₂ hs => leaves_pure hs
termination_by s.size

theorem keeps_signature (kept : Kept P) {kind : Callable} {s : Input} (hs : P s) :
    (signature kind s).Leaves P := by
  refine (kept.expect hs).andThen fun name s₁ h₁ hs => ?_
  refine (kept.expect hs).andThen fun _ s₂ h₂ hs => ?_
  refine Leaves.andThen ?_ fun params s₃ h₃ hs =>
    (kept.expect hs).andThen fun _ s₄ h₄ hs => leaves_pure hs
  split
  · next s₃ h₃ ht => exact leaves_pure (kept.take ht hs)
  · exact keeps_parameters kept 0 s₂ hs

theorem keeps_classHead (kept : Kept P) {s : Input} (hs : P s) : (classHead s).Leaves P := by
  refine (kept.expect hs).andThen fun name s₁ h₁ hs => ?_
  split
  · next s₂ h₂ ht =>
    refine (kept.expect (kept.take ht hs)).andThen fun parent s₃ h₃ hs => ?_
    refine Leaves.andThen (leaves_tagged kept hs) fun superclass s₄ h₄ hs => ?_
    exact (kept.expect hs).andThen fun _ s₅ h₅ hs => leaves_pure hs
  · exact (kept.expect hs).andThen fun _ s₂ h₂ hs => leaves_pure hs

mutual

theorem keeps_statement (kept : Kept P) (s : Input) (hs : P s) : (statement s).Leaves P := by
  rw [statement]
  split
  · exact keeps_expressionStatement kept hs
  · next t s₁ h₁ ht =>
    have hs₁ := kept.next? ht hs
    split
    · refine (keeps_forClauses kept hs₁).andThen fun clauses s₂ h₂ hs => ?_
      exact (keeps_statement kept s₂ hs).andThen fun body s₃ h₃ hs => leaves_pure hs
    · refine (keeps_condition kept hs₁).andThen fun test s₂ h₂ hs => ?_
      refine (keeps_statement kept s₂ hs).andThen fun thenBranch s₃ h₃ hs => ?_
      split
      · next s₄ h₄ ht =>
        refine (keeps_statement kept s₄ (kept.take ht hs)).andThen fun other s₅ h₅ hs => ?_
        exact leaves_pure hs
      · exact leaves_pure hs
    · exact (keeps_printStatement kept hs₁).widen
    · exact (keeps_returnStatement kept hs₁).widen
    · refine (keeps_condition kept hs₁).andThen fun test s₂ h₂ hs => ?_
      exact (keeps_statement kept s₂ hs).andThen fun body s₃ h₃ hs => leaves_pure hs
    · exact (keeps_block kept s₁ hs₁).andThen fun body s₂ h₂ hs => leaves_pure hs
    · exact keeps_expressionStatement kept hs
termination_by s.size * 4

theorem keeps_block (kept : Kept P) (s : Input) (hs : P s) : (block s).Leaves P := by
  rw [block]
  split
  · next s₁ h₁ ht => exact leaves_pure (kept.take ht hs)
  · split
    · exact leaves_expected hs
    · next pos =>
      have hd := keeps_declaration kept s pos hs
      split
      next stmt noted s₁ h₁ he =>
      rw [he] at hd
      refine Leaves.noting ((keeps_block kept s₁ hd).andThen fun rest s₂ h₂ hs => ?_)
      exact leaves_pure hs
termination_by s.size * 4 + 3

theorem keeps_declaration (kept : Kept P) (s : Input) (pos : s.size ≠ 0) (hs : P s) :
    P (declaration s pos).left := by
  rw [declaration]
  exact kept.recovered (keeps_declarationOrStuck kept s hs)
termination_by s.size * 4 + 2

theorem keeps_declarationOrStuck (kept : Kept P) (s : Input) (hs : P s) :
    (declarationOrStuck s).Leaves P := by
  rw [declarationOrStuck]
  split
  · exact keeps_statement kept s hs
  · next t s₁ h₁ ht =>
    have hs₁ := kept.next? ht hs
    split
    · refine (keeps_classHead kept hs₁).andThen fun head s₂ h₂ hs => ?_
      exact (keeps_methods kept s₂ hs).andThen fun decls s₃ h₃ hs => leaves_pure hs
    · exact (keeps_function kept .function s₁ hs₁).andThen fun decl s₂ h₂ hs => leaves_pure hs
    · exact (keeps_varDeclaration kept hs₁).widen
    · exact keeps_statement kept s hs
termination_by s.size * 4 + 1

theorem keeps_methods (kept : Kept P) (s : Input) (hs : P s) : (methods s).Leaves P := by
  rw [methods]
  split
  · next s₁ h₁ ht => exact leaves_pure (kept.take ht hs)
  · split
    · exact leaves_expected hs
    · refine (keeps_function kept .method s hs).andThen fun method s₁ h₁ hs => ?_
      exact (keeps_methods kept s₁ hs).andThen fun rest s₂ h₂ hs => leaves_pure hs
termination_by s.size * 4 + 1

theorem keeps_function (kept : Kept P) (kind : Callable) (s : Input) (hs : P s) :
    (function kind s).Leaves P := by
  rw [function]
  refine (keeps_signature kept hs).andThen fun head s₁ h₁ hs => ?_
  exact (keeps_block kept s₁ hs).andThen fun body s₂ h₂ hs => leaves_pure hs
termination_by s.size * 4

end

end Lox.Grammar
