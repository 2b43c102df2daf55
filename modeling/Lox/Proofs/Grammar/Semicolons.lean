import Lox.Proofs.Grammar.Reads

/-!
# Reading up to a semicolon

No expression holds a semicolon, and a simple statement ends with the first one. So what a reader
makes of tokens up to their only semicolon does not depend on the tokens after it: in front of any
others it has the same value, or is stuck at the same token, and notes the same faults on the way.
-/
namespace Lox

/-- Reading is stuck at a fault of this cause. Of the other causes faults are only noted. -/
def ParseCause.stops : ParseCause → Bool
  | .tooManyParameters => false
  | .tooManyArguments => false
  | .assignmentTarget => false
  | _ => true

def Fault.stops : Fault → Bool
  | .parse cause _ => cause.stops
  | _ => false

namespace Grammar

/-- Tokens up to their only semicolon, of which none after the first starts a statement. -/
inductive Segment : List Token → Prop where
  | last {t : Token} (closed : t.kind = .symbol .semicolon) : Segment [t]
  | more {t u : Token} {ts : List Token} (inner : t.kind ≠ .symbol .semicolon)
      (continued : startsStatement u.kind = false) (rest : Segment (u :: ts)) :
      Segment (t :: u :: ts)

/-- What is left after the first token of a segment: nothing exactly if it is the semicolon. -/
def After (t : Token) (ts : List Token) : Prop :=
  t.kind = .symbol .semicolon ∧ ts = [] ∨ t.kind ≠ .symbol .semicolon ∧ Segment ts

variable {α β : Type} {n m n' m' : Nat} {s : Input} {t : Token} {ts more : List Token}
  {close : Token} {P : List Token → Prop}

theorem Segment.uncons (h : Segment (t :: ts)) : After t ts := by
  cases h with
  | last closed => exact .inl ⟨closed, rfl⟩
  | more inner _ rest => exact .inr ⟨inner, rest⟩

theorem After.segment (h : After t ts) (inner : t.kind ≠ .symbol .semicolon) : Segment ts := by
  rcases h with ⟨closed, -⟩ | ⟨-, rest⟩
  · exact absurd closed inner
  · exact rest

theorem After.nil (h : After t ts) (closed : t.kind = .symbol .semicolon) : ts = [] := by
  rcases h with ⟨-, rest⟩ | ⟨inner, -⟩
  · exact rest
  · exact absurd closed inner

/-- The same input in front of other tokens and another end. -/
def Input.before (s : Input) (more : List Token) (close : Token) : Input :=
  ⟨s.rest ++ more, close, s.nextId⟩

theorem Input.peek_before (hs : Segment s.rest) : (s.before more close).peek = s.peek := by
  obtain ⟨rest, close', id⟩ := s
  cases hs <;> rfl

/-! ## Replies to both inputs -/

/-- Two replies that agree, the second one with more tokens left over. A value leaves tokens of
which `P` holds, and where both are stuck a segment is left. -/
inductive Reply.Agree (more : List Token) (close : Token) (P : List Token → Prop) :
    Reply α n → Reply α m → Prop where
  | done {value : α} {noted : List Fault} {left : Input} {h : left.size < n}
      {h' : (left.before more close).size < m} (kept : P left.rest)
      (minor : ∀ f ∈ noted, f.stops = false) :
      Agree more close P (.done value noted left h) (.done value noted (left.before more close) h')
  | stuck {fault : Fault} {noted : List Fault} {left : Input} {h : left.size ≤ n}
      {h' : (left.before more close).size ≤ m} (kept : Segment left.rest)
      (minor : ∀ f ∈ noted, f.stops = false) (major : fault.stops = true) :
      Agree more close P (.stuck fault noted left h)
        (.stuck fault noted (left.before more close) h')

namespace Reply

theorem agree_pure {value : α} {h : s.size < n} {h' : (s.before more close).size < m}
    (kept : P s.rest) : Agree more close P (pure value s h) (pure value (s.before more close) h') :=
  .done kept (List.forall_mem_nil _)

theorem agree_tagged {value : Nat → α} {h : s.size < n} {h' : (s.before more close).size < m}
    (kept : P s.rest) :
    Agree more close P (tagged value s h) (tagged value (s.before more close) h') :=
  .done (show P s.rest from kept) (List.forall_mem_nil _)

theorem agree_expected {cause : ParseCause} {h : s.size ≤ n} {h' : (s.before more close).size ≤ m}
    (hs : Segment s.rest) (major : cause.stops = true) :
    Agree (α := α) more close P (expected cause s h) (expected cause (s.before more close) h') := by
  rw [expected, expected, Input.peek_before hs]
  exact .stuck hs (List.forall_mem_nil _) major

theorem Agree.noting {r : Reply α n} {r' : Reply α m} (h : Agree more close P r r')
    {earlier : List Fault} (minor : ∀ f ∈ earlier, f.stops = false) :
    Agree more close P (r.noting earlier) (r'.noting earlier) := by
  cases h with
  | done kept minor' => exact .done kept (List.forall_mem_append.mpr ⟨minor, minor'⟩)
  | stuck kept minor' major => exact .stuck kept (List.forall_mem_append.mpr ⟨minor, minor'⟩) major

theorem Agree.widen {r : Reply α n} {r' : Reply α m} (h : Agree more close P r r') {le : n ≤ n'}
    {le' : m ≤ m'} : Agree more close P (r.widen le) (r'.widen le') := by
  cases h with
  | done kept minor => exact .done kept minor
  | stuck kept minor major => exact .stuck kept minor major

theorem Agree.andThen {Q : List Token → Prop} {r : Reply α n} {r' : Reply α m}
    {next : α → (left : Input) → left.size < n → Reply β n'}
    {next' : α → (left : Input) → left.size < m → Reply β m'} {le : n ≤ n'} {le' : m ≤ m'}
    (first : Agree more close Q r r')
    (rest : ∀ value left h h', Q left.rest →
      Agree more close P (next value left h) (next' value (left.before more close) h')) :
    Agree more close P (r.andThen next le) (r'.andThen next' le') := by
  cases first with
  | done kept minor => exact (rest _ _ _ _ kept).noting minor
  | stuck kept minor major => exact .stuck kept minor major

end Reply

namespace Input

section
variable (more close)

theorem next?_before (hs : Segment s.rest) :
    ∃ t left h h', s.next? = some ⟨t, left, h⟩ ∧
      (s.before more close).next? = some ⟨t, left.before more close, h'⟩ ∧ After t left.rest := by
  obtain ⟨rest, close', id⟩ := s
  cases rest with
  | nil => cases hs
  | cons t ts =>
    exact ⟨t, ⟨ts, close', id⟩, Nat.lt_succ_self _, Nat.lt_succ_self _, rfl, rfl, hs.uncons⟩

theorem take?_before (hs : Segment s.rest) (accepts : TokenKind → Bool) :
    (s.take? accepts = none ∧ (s.before more close).take? accepts = none) ∨
    ∃ t left h h', s.take? accepts = some ⟨t, left, h⟩ ∧
      (s.before more close).take? accepts = some ⟨t, left.before more close, h'⟩ ∧
      accepts t.kind = true ∧ After t left.rest := by
  obtain ⟨t, left, h, h', found, found', after⟩ := next?_before more close hs
  rw [take?, take?, found, found']
  cases ha : accepts t.kind with
  | false => exact .inl ⟨by simp [ha], by simp [ha]⟩
  | true => exact .inr ⟨t, left, h, h', by simp [ha], by simp [ha], ha, after⟩

/-- What is taken before the semicolon leaves a segment. -/
theorem take?_inside (hs : Segment s.rest) (accepts : TokenKind → Bool)
    (inner : accepts (.symbol .semicolon) = false) :
    (s.take? accepts = none ∧ (s.before more close).take? accepts = none) ∨
    ∃ t left h h', s.take? accepts = some ⟨t, left, h⟩ ∧
      (s.before more close).take? accepts = some ⟨t, left.before more close, h'⟩ ∧
      Segment left.rest := by
  rcases take?_before more close hs accepts with
    none | ⟨t, left, h, h', found, found', accepted, after⟩
  · exact .inl none
  · refine .inr ⟨t, left, h, h', found, found', after.segment fun closed => ?_⟩
    rw [closed, inner] at accepted
    cases accepted

theorem take_inside (hs : Segment s.rest) (kind : TokenKind)
    (inner : kind ≠ .symbol .semicolon := by exact nofun) :
    (s.take kind = none ∧ (s.before more close).take kind = none) ∨
    ∃ t left h h', s.take kind = some ⟨t, left, h⟩ ∧
      (s.before more close).take kind = some ⟨t, left.before more close, h'⟩ ∧
      Segment left.rest :=
  take?_inside more close hs _ (decide_eq_false inner.symm)

end

theorem agree_expect (hs : Segment s.rest) {kind : TokenKind} {cause : ParseCause}
    (inner : kind ≠ .symbol .semicolon := by exact nofun) (major : cause.stops = true := by rfl) :
    Reply.Agree more close Segment (s.expect kind cause)
      ((s.before more close).expect kind cause) := by
  rw [expect, expect]
  rcases take_inside more close hs kind inner with
    ⟨found, found'⟩ | ⟨t, left, h, h', found, found', kept⟩
  · rw [found, found']
    exact Reply.agree_expected hs major
  · rw [found, found']
    exact Reply.agree_pure kept

theorem agree_expect_semicolon (hs : Segment s.rest) {cause : ParseCause}
    (major : cause.stops = true := by rfl) :
    Reply.Agree more close (· = []) (s.expect (.symbol .semicolon) cause)
      ((s.before more close).expect (.symbol .semicolon) cause) := by
  rw [expect, expect, take, take]
  rcases take?_before more close hs (· = .symbol .semicolon) with
    ⟨found, found'⟩ | ⟨t, left, h, h', found, found', closed, after⟩
  · rw [found, found']
    exact Reply.agree_expected hs major
  · rw [found, found']
    exact Reply.agree_pure (after.nil (of_decide_eq_true closed))

end Input

open Reply Input

/-! ## Expressions

Before the semicolon each reader takes the same token from both inputs, or from neither, so the
proofs follow the recursion of the readers. -/

theorem agree_assignTo {target value : Expr} {equals : Token} {h : s.size < n}
    {h' : (s.before more close).size < m} (hs : Segment s.rest) :
    Agree more close Segment (assignTo target equals value s h)
      (assignTo target equals value (s.before more close) h') := by
  unfold assignTo
  split
  · exact agree_tagged hs
  · exact agree_pure hs
  · exact .done hs (List.forall_mem_singleton.mpr rfl)

variable (more close)

mutual

theorem agree_expression (s : Input) (hs : Segment s.rest) :
    Agree more close Segment (expression s) (expression (s.before more close)) := by
  rw [expression, expression]
  refine (agree_tiers Tier.all s hs).andThen fun target s₁ (h₁ : s₁.size < s.size) _ hs₁ => ?_
  rcases take_inside more close hs₁ (.symbol .equal) with
    ⟨found, found'⟩ | ⟨equals, s₂, h₂, h₂', found, found', hs₂⟩
  · simp only [found, found']
    exact agree_pure hs₁
  · simp only [found, found']
    exact (agree_expression s₂ hs₂).andThen fun value s₃ _ _ hs₃ => agree_assignTo hs₃
termination_by s.size * 16 + 12
decreasing_by
  · simp only [Tier.length_all]
    omega
  · omega

theorem agree_tiers (ts : List Tier) (s : Input) (hs : Segment s.rest) :
    Agree more close Segment (tiers ts s) (tiers ts (s.before more close)) := by
  cases ts with
  | nil =>
    rw [tiers, tiers]
    exact agree_unary s hs
  | cons t ts =>
    rw [tiers, tiers]
    exact (agree_tiers ts s hs).andThen fun left s₁ (h₁ : s₁.size < s.size) _ hs₁ =>
      (agree_operators t ts left s₁ hs₁).widen
termination_by s.size * 16 + ts.length + 3
decreasing_by all_goals (simp only [List.length_nil, List.length_cons]; omega)

theorem agree_operators (t : Tier) (ts : List Tier) (left : Expr) (s : Input)
    (hs : Segment s.rest) :
    Agree more close Segment (operators t ts left s)
      (operators t ts left (s.before more close)) := by
  have inner : t.holds (.symbol .semicolon) = false := by cases t <;> rfl
  rw [operators, operators]
  rcases take?_inside more close hs _ inner with
    ⟨found, found'⟩ | ⟨operator, s₁, h₁, h₁', found, found', hs₁⟩
  · simp only [found, found']
    exact agree_pure hs
  · simp only [found, found']
    exact (agree_tiers ts s₁ hs₁).andThen fun right s₂ (h₂ : s₂.size < s₁.size) _ hs₂ =>
      (agree_operators t ts _ s₂ hs₂).widen
termination_by s.size * 16 + ts.length + 3

theorem agree_unary (s : Input) (hs : Segment s.rest) :
    Agree more close Segment (unary s) (unary (s.before more close)) := by
  rw [unary, unary]
  rcases take?_inside more close hs isUnary rfl with
    ⟨found, found'⟩ | ⟨operator, s₁, h₁, h₁', found, found', hs₁⟩
  · simp only [found, found']
    exact (agree_primary s hs).andThen fun callee s₁ (h₁ : s₁.size < s.size) _ hs₁ =>
      (agree_accesses callee s₁ hs₁).widen
  · simp only [found, found']
    exact (agree_unary s₁ hs₁).andThen fun right s₂ _ _ hs₂ => agree_pure hs₂
termination_by s.size * 16 + 1

theorem agree_accesses (target : Expr) (s : Input) (hs : Segment s.rest) :
    Agree more close Segment (accesses target s) (accesses target (s.before more close)) := by
  rw [accesses, accesses]
  rcases take_inside more close hs (.symbol .leftParen) with
    ⟨found, found'⟩ | ⟨_, s₁, h₁, h₁', found, found', hs₁⟩
  · simp only [found, found']
    rcases take_inside more close hs (.symbol .dot) with
      ⟨found, found'⟩ | ⟨_, s₁, h₁, h₁', found, found', hs₁⟩
    · simp only [found, found']
      exact agree_pure hs
    · simp only [found, found']
      exact (agree_expect hs₁).andThen fun name s₂ (h₂ : s₂.size < s₁.size) _ hs₂ =>
        (agree_accesses _ s₂ hs₂).widen
  · simp only [found, found']
    rcases take_inside more close hs₁ (.symbol .rightParen) with
      ⟨found, found'⟩ | ⟨paren, s₂, h₂, h₂', found, found', hs₂⟩
    · simp only [found, found']
      exact (agree_arguments 0 s₁ hs₁).andThen fun _ s₂ (h₂ : s₂.size < s₁.size) _ hs₂ =>
        (agree_accesses _ s₂ hs₂).widen
    · simp only [found, found']
      exact (agree_accesses _ s₂ hs₂).widen
termination_by s.size * 16

theorem agree_arguments (count : Nat) (s : Input) (hs : Segment s.rest) :
    Agree more close Segment (arguments count s) (arguments count (s.before more close)) := by
  have minor : ∀ f ∈ (if maxArguments ≤ count then [.parse .tooManyArguments s.peek] else []),
      Fault.stops f = false := by
    split
    · exact List.forall_mem_singleton.mpr rfl
    · exact List.forall_mem_nil _
  rw [arguments, arguments, peek_before hs]
  refine Agree.noting ((agree_expression s hs).andThen
    fun argument s₁ (h₁ : s₁.size < s.size) _ hs₁ => ?_) minor
  rcases take_inside more close hs₁ (.symbol .comma) with
    ⟨found, found'⟩ | ⟨_, s₂, h₂, h₂', found, found', hs₂⟩
  · simp only [found, found']
    exact (agree_expect hs₁).andThen fun paren s₂ _ _ hs₂ => agree_pure hs₂
  · simp only [found, found']
    exact (agree_arguments (count + 1) s₂ hs₂).andThen fun _ s₃ _ _ hs₃ => agree_pure hs₃
termination_by s.size * 16 + 13

theorem agree_primary (s : Input) (hs : Segment s.rest) :
    Agree more close Segment (primary s) (primary (s.before more close)) := by
  rw [primary, primary]
  obtain ⟨t, s₁, h₁, h₁', found, found', after⟩ := next?_before more close hs
  simp only [found, found']
  have kept {kind : TokenKind} (hk : t.kind = kind) (inner : kind ≠ .symbol .semicolon) :
      Segment s₁.rest :=
    after.segment (hk ▸ inner)
  split
  · next hk => exact agree_pure (kept hk nofun)
  · next hk => exact agree_pure (kept hk nofun)
  · next hk => exact agree_pure (kept hk nofun)
  · next hk => exact agree_pure (kept hk nofun)
  · next hk => exact agree_pure (kept hk nofun)
  · next hk => exact agree_tagged (kept hk nofun)
  · next hk => exact agree_tagged (kept hk nofun)
  · next hk =>
    refine (agree_expect (kept hk nofun)).andThen fun _ s₂ _ _ hs₂ => ?_
    exact (agree_expect hs₂).andThen fun method s₃ _ _ hs₃ => agree_tagged hs₃
  · next hk =>
    refine (agree_expression s₁ (kept hk nofun)).andThen fun inner s₂ _ _ hs₂ => ?_
    exact (agree_expect hs₂).andThen fun _ s₃ _ _ hs₃ => agree_pure hs₃
  · exact agree_expected hs rfl
termination_by s.size * 16

end

/-! ## Simple statements -/

theorem agree_clause {cause : ParseCause} (hs : Segment s.rest) (major : cause.stops = true) :
    Agree more close (· = []) (clause .semicolon cause s)
      (clause .semicolon cause (s.before more close)) := by
  rw [clause, clause, take, take]
  rcases take?_before more close hs (· = .symbol .semicolon) with
    ⟨found, found'⟩ | ⟨_, s₁, h₁, h₁', found, found', closed, after⟩
  · simp only [found, found']
    refine (agree_expression more close s hs).andThen fun value s₁ _ _ hs₁ => ?_
    exact (agree_expect_semicolon hs₁ major).andThen fun _ s₂ _ _ hs₂ => agree_pure hs₂
  · simp only [found, found']
    exact agree_pure (after.nil (of_decide_eq_true closed))

theorem agree_expressionStatement (hs : Segment s.rest) :
    Agree more close (· = []) (expressionStatement s)
      (expressionStatement (s.before more close)) := by
  refine (agree_expression more close s hs).andThen fun value s₁ _ _ hs₁ => ?_
  exact (agree_expect_semicolon hs₁).andThen fun _ s₂ _ _ hs₂ => agree_pure hs₂

theorem agree_printStatement (hs : Segment s.rest) :
    Agree more close (· = []) (printStatement s) (printStatement (s.before more close)) := by
  refine (agree_expression more close s hs).andThen fun value s₁ _ _ hs₁ => ?_
  exact (agree_expect_semicolon hs₁).andThen fun _ s₂ _ _ hs₂ => agree_pure hs₂

theorem agree_returnStatement (keyword : Token) (hs : Segment s.rest) :
    Agree more close (· = []) (returnStatement keyword s)
      (returnStatement keyword (s.before more close)) :=
  (agree_clause more close hs rfl).andThen fun _ _ _ _ hs₁ => agree_pure hs₁

theorem agree_varDeclaration (hs : Segment s.rest) :
    Agree more close (· = []) (varDeclaration s) (varDeclaration (s.before more close)) := by
  refine (agree_expect hs).andThen fun name s₁ _ _ hs₁ => ?_
  rcases take_inside more close hs₁ (.symbol .equal) with
    ⟨found, found'⟩ | ⟨_, s₂, h₂, h₂', found, found', hs₂⟩
  · simp only [found, found']
    exact (agree_expect_semicolon hs₁).andThen fun _ s₂ _ _ hs₂ => agree_pure hs₂
  · simp only [found, found']
    refine (agree_expression more close s₂ hs₂).andThen fun value s₃ _ _ hs₃ => ?_
    exact (agree_expect_semicolon hs₃).andThen fun _ s₄ _ _ hs₄ => agree_pure hs₄

/-- Words that start no simple statement. -/
def startsCompound : TokenKind → Bool
  | .keyword .classWord => true
  | .keyword .funWord => true
  | .keyword .forWord => true
  | .keyword .ifWord => true
  | .keyword .whileWord => true
  | .keyword .elseWord => true
  | _ => false

theorem agree_statement (hs : Segment s.rest)
    (simple : ∀ t ∈ s.rest.head?, startsCompound t.kind = false ∧ t.kind ≠ .symbol .leftBrace) :
    Agree more close (· = []) (statement s) (statement (s.before more close)) := by
  rw [statement, statement]
  obtain ⟨t, s₁, h₁, h₁', found, found', after⟩ := next?_before more close hs
  obtain ⟨compound, opening⟩ := simple t (by rw [next?_eq_some.mp found]; rfl)
  simp only [found, found']
  split
  · next hk => rw [hk] at compound; cases compound
  · next hk => rw [hk] at compound; cases compound
  · next hk => exact (agree_printStatement more close (after.segment (by simp [hk]))).widen
  · next hk => exact (agree_returnStatement more close t (after.segment (by simp [hk]))).widen
  · next hk => rw [hk] at compound; cases compound
  · next hk => exact absurd hk opening
  · exact agree_expressionStatement more close hs

/-- A simple statement is read, or is not, whatever follows. -/
theorem agree_declaration (hs : Segment s.rest)
    (simple : ∀ t ∈ s.rest.head?, startsCompound t.kind = false ∧ t.kind ≠ .symbol .leftBrace) :
    Agree more close (· = []) (declarationOrStuck s)
      (declarationOrStuck (s.before more close)) := by
  rw [declarationOrStuck, declarationOrStuck]
  obtain ⟨t, s₁, h₁, h₁', found, found', after⟩ := next?_before more close hs
  obtain ⟨compound, -⟩ := simple t (by rw [next?_eq_some.mp found]; rfl)
  simp only [found, found']
  split
  · next hk => rw [hk] at compound; cases compound
  · next hk => rw [hk] at compound; cases compound
  · next hk => exact (agree_varDeclaration more close (after.segment (by simp [hk]))).widen
  · exact agree_statement more close hs simple

/-! ## Going on after a segment -/

theorem skipStatement_segment (h : Segment (t :: ts)) (more : List Token) :
    skipStatement t (ts ++ more) = more := by
  induction ts generalizing t with
  | nil =>
    cases h with
    | last closed =>
      cases more with
      | nil => rfl
      | cons u us => rw [List.nil_append, skipStatement, closed]; rfl
  | cons u ts ih =>
    cases h with
    | more inner continued rest =>
      rw [List.cons_append, skipStatement, continued, if_neg (by simpa using inner)]
      exact ih rest

/-- Whatever token of a segment reading is stuck at, it goes on after the segment. -/
theorem recover_before (hs : Segment s.rest) :
    (s.before more close).recover = ⟨more, close, s.nextId⟩ := by
  obtain ⟨rest, close', id⟩ := s
  cases rest with
  | nil => cases hs
  | cons t ts => exact congrArg (Input.mk · close id) (skipStatement_segment hs more)

variable {fault : Fault} {noted : List Fault} {left : Input} {noLonger : left.size ≤ s.size}

/-- A declaration that is stuck in a segment is dropped with all of the segment, and its fault is
the only one that is not just noted. -/
theorem declaration_before (hs : Segment s.rest)
    (simple : ∀ t ∈ s.rest.head?, startsCompound t.kind = false ∧ t.kind ≠ .symbol .leftBrace)
    (stuck : declarationOrStuck s = .stuck fault noted left noLonger) :
    ((∀ f ∈ noted, f.stops = false) ∧ fault.stops = true) ∧
    ∀ pos, ∃ shorter, declaration (s.before more close) pos =
      ⟨none, noted ++ [fault], ⟨more, close, left.nextId⟩, shorter⟩ := by
  have agree := agree_declaration more close hs simple
  rw [stuck] at agree
  generalize reply : declarationOrStuck (s.before more close) = r at agree
  cases agree with
  | @stuck _ _ _ _ noLonger' kept minor major =>
    refine ⟨⟨minor, major⟩, fun pos => ?_⟩
    have recovered := recover_before more close kept
    refine ⟨recovered ▸ Input.size_recover_lt noLonger' pos, ?_⟩
    rw [declaration]
    show (declarationOrStuck (s.before more close)).recovered pos = _
    rw [reply]
    simp only [Reply.recovered, recovered]

end Grammar

end Lox
