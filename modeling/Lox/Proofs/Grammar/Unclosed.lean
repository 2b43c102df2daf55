import Lox.Proofs.Grammar.Adjoining
import Lox.Proofs.Grammar.Parentheses
import Lox.Proofs.Grammar.Tolerance

/-!
# Statements without their semicolon

A statement that lacks its semicolon is stuck at the token after it, unless what follows can be
taken to continue its expression. Where a simple statement follows it is one of the two: either the
one that lacks the semicolon is stuck just before the other, or they are read as one.
-/
namespace Lox.Grammar

/-- The reply is stuck at the next token of what is left and has noted nothing. -/
def Reply.Halts {α : Type} {n : Nat} (r : Reply α n) (cause : ParseCause) (left : Input) : Prop :=
  ∃ h, r = .stuck (.parse cause left.peek) [] left h

section
variable {α β : Type} {n m : Nat} {r : Reply α n} {le : n ≤ m} {first : α} {s left : Input}
  {next : α → (left : Input) → left.size < n → Reply β m} {cause : ParseCause} {kind : TokenKind}

theorem Reply.halts_expected {h : s.size ≤ n} : (expected (α := α) cause s h).Halts cause s :=
  ⟨h, rfl⟩

theorem Reply.Halts.widen (h : r.Halts cause left) : (r.widen le).Halts cause left := by
  obtain ⟨hl, rfl⟩ := h
  exact ⟨Nat.le_trans hl le, rfl⟩

theorem Reply.Halts.andThen (h : r.Halts cause left) : (r.andThen next le).Halts cause left := by
  obtain ⟨hl, rfl⟩ := h
  exact ⟨Nat.le_trans hl le, rfl⟩

theorem Reply.Reads.andHalts (h : r.Reads first s)
    (h' : ∀ hs, (next first s hs).Halts cause left) : (r.andThen next le).Halts cause left := by
  obtain ⟨hs, rfl⟩ := h
  obtain ⟨hl, he⟩ := h' hs
  exact ⟨hl, by rw [Reply.andThen, he]; rfl⟩

theorem Input.halts_expect (h : ∀ t ∈ s.rest.head?, t.kind ≠ kind) :
    (s.expect kind cause).Halts cause s := by
  rw [expect, take_eq_none.mpr h]
  exact Reply.halts_expected

end

variable {n m k : Nat} {w x s r before after : List Token}
  {t closing semicolon close : Token} {faults : List Fault}

/-! ## What may follow -/

/-- Tokens that start a simple statement. -/
def startsSimple (kind : TokenKind) : Bool :=
  kind = .keyword .varWord || kind = .keyword .printWord || kind = .keyword .returnWord ||
    startsExpression kind

/-- What stands where a semicolon is missing, up to the next semicolon: nothing, a statement that a
word announces, or an expression. -/
inductive Follower : List Token → Prop where
  | nothing : Follower []
  | word {t : Token} {w : List Token} (announced : startsStatement t.kind = true)
      (segment : Segment (t :: w)) : Follower (t :: w)
  | expression {w : List Token} {closing : Token}
      (valued : ∀ n, ∃ e m, Relaxed .nearest n w (.expression e) [] m)
      (closed : closing.kind = .symbol .semicolon) (segment : Segment (w ++ [closing])) :
      Follower (w ++ [closing])

theorem Segment.of_inner (first : t.kind ≠ .symbol .semicolon) (h : Inner w)
    (closed : closing.kind = .symbol .semicolon) : Segment (t :: (w ++ [closing])) := by
  induction w generalizing t with
  | nil => exact .more first (by rw [closed]; rfl) (.last closed)
  | cons u w ih =>
    obtain ⟨now, rest⟩ := List.forall_mem_cons.mp h
    simp only [inExpression, Bool.and_eq_true, decide_eq_true_eq, Bool.not_eq_true'] at now
    exact .more first now.2 (ih now.1 rest)

theorem Inner.segment (h : Inner w) (closed : closing.kind = .symbol .semicolon) :
    Segment (w ++ [closing]) := by
  cases w with
  | nil => exact .last closed
  | cons t w =>
    obtain ⟨now, rest⟩ := List.forall_mem_cons.mp h
    simp only [inExpression, Bool.and_eq_true, decide_eq_true_eq] at now
    exact .of_inner now.1 rest closed

theorem Follower.segment (h : Follower (t :: w)) : Segment (t :: w) := by
  generalize hs : t :: w = s at h
  cases h with
  | nothing => cases hs
  | word _ segment | expression _ _ segment => exact segment

/-- A declaration that starts as a simple statement is one. -/
theorem Derives.follower {tree : Stmt} (h : Derives .nearest n s (.declaration tree) m)
    (simple : ∀ t ∈ s.head?, startsSimple t.kind = true) : Follower s := by
  have other {t : Token} {kind : TokenKind} (keyed : t.kind = kind) (ht : t ∈ s.head?)
      (compound : startsSimple kind = false) : Follower s := by
    have := simple t ht
    rw [keyed, compound] at this
    cases this
  cases h with
  | ordinary executed =>
    cases executed with
    | evaluation evaluated =>
      cases evaluated with
      | expressionEnd valued closed =>
        exact .expression (fun n => (valued.relaxed trivial).anew n) closed
          ((valued.inner rfl).segment closed)
    | print keyed valued closed =>
      exact .word (by rw [keyed]; rfl)
        (.of_inner (by rw [keyed]; exact nofun) (valued.inner rfl) closed)
    | returnWith keyed valued closed =>
      exact .word (by rw [keyed]; rfl)
        (.of_inner (by rw [keyed]; exact nofun) (valued.inner rfl) closed)
    | block keyed | whileLoop keyed | forLoop keyed | ifThen keyed | ifElse keyed =>
      exact other keyed rfl rfl
  | variableDeclaration declared =>
    cases declared with
    | bareVariable keyed named closed =>
      exact .word (by rw [keyed]; rfl)
        (.of_inner (by rw [keyed]; exact nofun) (.of_eq named rfl) closed)
    | initializedVariable keyed named assigned valued closed =>
      have inner : Inner _ :=
        (Inner.of_eq named rfl).append ((Inner.of_eq assigned rfl).append (valued.inner rfl))
      exact .word (by rw [keyed]; rfl) (.of_inner (by rw [keyed]; exact nofun) inner closed)
  | functionDeclaration keyed | baseClass keyed | derivedClass keyed => exact other keyed rfl rfl

/-- The next token neither continues an expression nor ends a statement. -/
def Blocks (r : List Token) : Prop :=
  EndsExpression r ∧ ∀ t ∈ r.head?, t.kind ≠ .symbol .semicolon

theorem Blocks.of_head (h : Blocks s) (same : r.head? = s.head?) : Blocks r := by
  rw [Blocks, EndsExpression, Stops, same]
  exact h

theorem blocks_of_startsStatement (h : startsStatement t.kind = true) : Blocks (t :: w) := by
  have other {kind : TokenKind} (hk : startsStatement kind = false) : t.kind ≠ kind := by
    rintro rfl
    rw [hk] at h
    cases h
  refine ⟨⟨?_, ?_⟩, ?_⟩
  · rintro _ ⟨⟩
    refine ⟨other rfl, other rfl, fun tier _ => ?_⟩
    cases hb : tier.holds t.kind with
    | false => rfl
    | true =>
      have := inExpression_of_holds hb
      simp [inExpression, h] at this
  · rintro _ ⟨⟩
    exact other rfl
  · rintro _ ⟨⟩
    exact other rfl

/-- An expression goes on with no other one, unless that starts with an adjoining symbol. -/
theorem blocks_of_startsExpression (h : startsExpression t.kind = true)
    (apart : adjoining t.kind = false) : Blocks (t :: w) := by
  have other {kind : TokenKind} (hk : startsExpression kind = false) : t.kind ≠ kind := by
    rintro rfl
    rw [hk] at h
    cases h
  refine ⟨⟨?_, ?_⟩, ?_⟩
  · rintro _ ⟨⟩
    refine ⟨fun paren => ?_, other rfl, fun tier _ => ?_⟩
    · rw [paren] at apart
      cases apart
    · generalize t.kind = kind at h apart
      unfold Tier.holds
      split <;> first | rfl | exact absurd h (by decide) | exact absurd apart (by decide)
  · rintro _ ⟨⟩
    exact other rfl
  · rintro _ ⟨⟩
    exact other rfl

/-- Either what follows is apart or it adjoins. -/
theorem Follower.blocks_or_adjoins (h : Follower s) :
    Blocks s ∨ ∃ y closing kind, s = y ++ [closing] ∧ closing.kind = .symbol .semicolon ∧
      (∀ n, ∃ e m, Relaxed .nearest n y (.expression e) [] m) ∧ adjoining kind = true ∧
        StartsWith kind y := by
  cases h with
  | nothing => exact .inl ⟨⟨nofun, nofun⟩, nofun⟩
  | word announced => exact .inl (blocks_of_startsStatement announced)
  | @expression w closing valued closed =>
    obtain ⟨_, _, derived⟩ := valued 0
    obtain ⟨t, y, rfl, starts⟩ := derived.starts
    cases adjoins : adjoining t.kind with
    | false => exact .inl (blocks_of_startsExpression starts adjoins)
    | true =>
      refine .inr ⟨_, closing, _, rfl, closed, valued, adjoins, ?_⟩
      rintro _ ⟨⟩
      rfl

/-! ## Expressions and what follows -/

theorem halts_primary (h : ∀ t ∈ r.head?, startsStatement t.kind = true) :
    (primary ⟨r, close, n⟩).Halts .expression ⟨r, close, n⟩ := by
  rw [primary]
  cases r with
  | nil => exact Reply.halts_expected
  | cons t r =>
    have word := h t rfl
    simp only [Input.next?]
    split
    case h_10 => exact Reply.halts_expected
    all_goals
      next hk =>
        rw [hk] at word
        cases word

theorem halts_unary (h : ∀ t ∈ r.head?, startsStatement t.kind = true) :
    (unary ⟨r, close, n⟩).Halts .expression ⟨r, close, n⟩ := by
  have plain : (⟨r, close, n⟩ : Input).take? isUnary = none := by
    refine Input.take?_eq_none.mpr fun t ht => ?_
    cases hu : isUnary t.kind with
    | false => rfl
    | true =>
      have := inExpression_of_isUnary hu
      simp [inExpression, h t ht] at this
  rw [unary, plain]
  exact (halts_primary h).andThen

theorem halts_tiers (h : ∀ t ∈ r.head?, startsStatement t.kind = true) (ts : List Tier) :
    (tiers ts ⟨r, close, n⟩).Halts .expression ⟨r, close, n⟩ := by
  induction ts with
  | nil =>
    rw [tiers]
    exact halts_unary h
  | cons t ts ih =>
    rw [tiers]
    exact ih.andThen

/-- Where no expression starts, reading one is stuck at once. -/
theorem halts_expression (h : ∀ t ∈ r.head?, startsStatement t.kind = true) :
    (expression ⟨r, close, n⟩).Halts .expression ⟨r, close, n⟩ := by
  rw [expression]
  exact (halts_tiers h Tier.all).andThen

/-- An expression that should end here goes on with what follows, with one fault at most. -/
def Continues (n : Nat) (x s : List Token) : Prop :=
  ∃ y closing tree faults m, s = y ++ [closing] ∧ closing.kind = .symbol .semicolon ∧
    Relaxed .nearest n (x ++ y) (.expression tree) faults m ∧ faults.length ≤ 1

theorem Derives.blocks_or_continues {e : Expr} (h : Derives .nearest n x (.expression e) m)
    (follows : Follower s) : Blocks s ∨ Continues n x s := by
  rcases follows.blocks_or_adjoins with
    blocks | ⟨y, closing, _, rfl, closed, valued, adjoins, starts⟩
  · exact .inl blocks
  · obtain ⟨tree, faults, k, joined, most⟩ := (h.relaxed trivial).adjoin valued adjoins starts
    exact .inr ⟨y, closing, tree, faults, k, rfl, closed, joined, most⟩

/-! ## Statements and what follows -/

/-- A reader goes through the first tokens and is stuck at what follows, whatever comes after the
first token of that. -/
def HaltsAt (read : (s : Input) → Reply Stmt s.size) (n : Nat) (w s : List Token) : Prop :=
  ∃ cause m, ∀ r close, r.head? = s.head? →
    (read ⟨w ++ r, close, n⟩).Halts cause ⟨r, close, m⟩

/-- A statement without its semicolon is stuck at what follows or is one with it. -/
def Unclosed (n : Nat) (w s : List Token) : Prop :=
  HaltsAt statement n w s ∨ ∃ endsOpen tree faults m,
    Relaxed .nearest n (w ++ s) (.statement endsOpen tree) faults m ∧ faults.length ≤ 1

theorem Derives.reads {e : Expr} (h : Derives .nearest n x (.expression e) m) (blocks : Blocks r)
    (close : Token) : (expression ⟨x ++ r, close, n⟩).Reads e ⟨r, close, m⟩ :=
  h.recovers trivial r close blocks.1

theorem unclosed_evaluation {e : Expr} (h : Derives .nearest n x (.expression e) m)
    (follows : Follower s) : Unclosed n x s := by
  rcases h.blocks_or_continues follows with
    blocks | ⟨y, closing, _, _, _, rfl, closed, joined, most⟩
  · refine .inl ⟨.expressionEnd, m, fun r close same => ?_⟩
    have read := h.reads (blocks.of_head same) close
    obtain ⟨t, x, rfl, starts⟩ := h.starts trivial
    rw [statement]
    simp only [List.cons_append, Input.next?] at read ⊢
    split
    case h_7 =>
      exact read.andHalts fun _ => (Input.halts_expect (blocks.of_head same).2).andThen
    all_goals
      next hk =>
        rw [hk] at starts
        cases starts
  · rw [Unclosed, ← List.append_assoc]
    exact .inr ⟨_, _, _, _, .evaluation (.expressionEnd joined closed), most⟩

theorem unclosed_print {keyword : Token} {e : Expr} (keyed : keyword.kind = .keyword .printWord)
    (h : Derives .nearest n x (.expression e) m) (follows : Follower s) :
    Unclosed n (keyword :: x) s := by
  rcases h.blocks_or_continues follows with
    blocks | ⟨y, closing, _, _, _, rfl, closed, joined, most⟩
  · refine .inl ⟨.printEnd, m, fun r close same => ?_⟩
    have ends := blocks.of_head same
    rw [List.cons_append, statement]
    simp only [Input.next?, keyed]
    exact ((h.reads ends close).andHalts fun _ => (Input.halts_expect ends.2).andThen).widen
  · rw [Unclosed, List.cons_append, ← List.append_assoc]
    exact .inr ⟨_, _, _, _, .print keyed joined closed, most⟩

theorem unclosed_returnWith {keyword : Token} {e : Option Expr}
    (keyed : keyword.kind = .keyword .returnWord) (h : Derives .nearest n x (.optional e) m)
    (follows : Follower s) : Unclosed n (keyword :: x) s := by
  cases h with
  | omitted =>
    -- A return without a value takes an expression that follows as its value.
    have bare (hs : ∀ t ∈ s.head?, startsStatement t.kind = true) :
        HaltsAt statement n [keyword] s := by
      refine ⟨.expression, n, fun r close same => ?_⟩
      rw [← same] at hs
      have noEnd : (⟨r, close, n⟩ : Input).take (.symbol .semicolon) = none := by
        refine Input.take_eq_none.mpr fun t ht hk => ?_
        have := hs t ht
        rw [hk] at this
        cases this
      rw [List.cons_append, List.nil_append, statement]
      simp only [Input.next?, keyed]
      refine Reply.Halts.widen (Reply.Halts.andThen ?_)
      unfold clause
      simp only [noEnd]
      exact (halts_expression hs).andThen
    cases follows with
    | nothing => exact .inl (bare (by simp))
    | word announced => exact .inl (bare (by rintro _ ⟨⟩; exact announced))
    | expression valued closed =>
      obtain ⟨e, m, derived⟩ := valued n
      exact .inr ⟨_, _, _, _, .returnWith keyed (.given derived) closed, Nat.zero_le 1⟩
  | given present =>
    rcases present.blocks_or_continues follows with
      blocks | ⟨y, closing, _, _, _, rfl, closed, joined, most⟩
    · refine .inl ⟨.returnEnd, m, fun r close same => ?_⟩
      have ends := blocks.of_head same
      have read := present.reads ends close
      obtain ⟨t, x, rfl, starts⟩ := present.starts trivial
      rw [List.cons_append, statement]
      simp only [Input.next?, keyed]
      refine Reply.Halts.widen (Reply.Halts.andThen ?_)
      unfold clause
      simp only [List.cons_append] at read ⊢
      simp only [Input.take_cons_ne (not_closes_of_startsExpression starts (.inl rfl))]
      exact read.andHalts fun _ => (Input.halts_expect ends.2).andThen
    · rw [Unclosed, List.cons_append, ← List.append_assoc]
      exact .inr ⟨_, _, _, _, .returnWith keyed (.given joined) closed, most⟩

section
variable {w₁ w₂ w₃ : List Token} {keyword opening : Token} {test : Expr} {l : Nat}

theorem unclosed_whileLoop (keyed : keyword.kind = .keyword .whileWord)
    (opened : opening.kind = .symbol .leftParen)
    (tested : Derives .nearest n w (.expression test) m)
    (closed : closing.kind = .symbol .rightParen) (h : Unclosed m w₁ s) :
    Unclosed n (keyword :: opening :: (w ++ closing :: w₁)) s := by
  rcases h with ⟨cause, k, halts⟩ | ⟨_, _, _, _, joined, most⟩
  · refine .inl ⟨cause, k, fun r close same => ?_⟩
    rw [List.cons_append, List.cons_append, List.append_assoc, statement]
    simp only [Input.next?, keyed]
    refine Reply.Reads.andHalts (yields_condition opened (tested.recovers trivial) closed) fun _ => ?_
    exact (halts r close same).andThen
  · have loop := Relaxed.whileLoop keyed opened (tested.relaxed trivial) closed joined
    exact .inr ⟨_, _, _, _, by simpa using loop, most⟩

theorem unclosed_forLoop {semicolon : Token} {first : Option Stmt} {test after : Option Expr}
    (keyed : keyword.kind = .keyword .forWord) (opened : opening.kind = .symbol .leftParen)
    (initialized : Derives .nearest n w (.initializer first) m)
    (tested : Derives .nearest m w₁ (.optional test) k)
    (separated : semicolon.kind = .symbol .semicolon)
    (increased : Derives .nearest k w₂ (.optional after) l)
    (closed : closing.kind = .symbol .rightParen) (h : Unclosed l w₃ s) :
    Unclosed n (keyword :: opening :: (w ++ (w₁ ++ semicolon :: (w₂ ++ closing :: w₃)))) s := by
  rcases h with ⟨cause, i, halts⟩ | ⟨_, _, _, _, joined, most⟩
  · refine .inl ⟨cause, i, fun r close same => ?_⟩
    have hw : keyword :: opening :: (w ++ (w₁ ++ semicolon :: (w₂ ++ closing :: w₃))) ++ r =
        keyword :: opening :: (w ++ (w₁ ++ semicolon :: (w₂ ++ closing :: (w₃ ++ r)))) := by
      simp
    rw [hw, statement]
    simp only [Input.next?, keyed]
    refine Reply.Reads.andHalts (yields_forClauses opened (initialized.recovers trivial)
      (tested.recovers trivial) separated (increased.recovers trivial) closed) fun _ => ?_
    exact (halts r close same).andThen
  · have loop := Relaxed.forLoop keyed opened (initialized.relaxed trivial) (tested.relaxed trivial)
      separated (increased.relaxed trivial) closed joined
    exact .inr ⟨_, _, _, _, by simpa using loop, most⟩

theorem unclosed_ifThen (keyed : keyword.kind = .keyword .ifWord)
    (opened : opening.kind = .symbol .leftParen)
    (tested : Derives .nearest n w (.expression test) m)
    (closed : closing.kind = .symbol .rightParen) (h : Unclosed m w₁ s) :
    Unclosed n (keyword :: opening :: (w ++ closing :: w₁)) s := by
  rcases h with ⟨cause, k, halts⟩ | ⟨_, _, _, _, joined, most⟩
  · refine .inl ⟨cause, k, fun r close same => ?_⟩
    rw [List.cons_append, List.cons_append, List.append_assoc, statement]
    simp only [Input.next?, keyed]
    refine Reply.Reads.andHalts (yields_condition opened (tested.recovers trivial) closed) fun _ => ?_
    exact (halts r close same).andThen
  · have test := Relaxed.ifThen keyed opened (tested.relaxed trivial) closed joined
    exact .inr ⟨_, _, _, _, by simpa using test, most⟩

theorem unclosed_ifElse {elseToken : Token} {branch : Stmt}
    (keyed : keyword.kind = .keyword .ifWord) (opened : opening.kind = .symbol .leftParen)
    (tested : Derives .nearest n w (.expression test) m)
    (closed : closing.kind = .symbol .rightParen)
    (chosen : Derives .nearest m w₁ (.statement false branch) k)
    (alternated : elseToken.kind = .keyword .elseWord) (h : Unclosed k w₂ s) :
    Unclosed n (keyword :: opening :: (w ++ closing :: (w₁ ++ elseToken :: w₂))) s := by
  rcases h with ⟨cause, l, halts⟩ | ⟨_, _, _, _, joined, most⟩
  · refine .inl ⟨cause, l, fun r close same => ?_⟩
    have hw : keyword :: opening :: (w ++ closing :: (w₁ ++ elseToken :: w₂)) ++ r =
        keyword :: opening :: (w ++ closing :: (w₁ ++ elseToken :: (w₂ ++ r))) := by
      simp
    have branch := chosen.recovers trivial (elseToken :: (w₂ ++ r)) close nofun
    rw [hw, statement]
    simp only [Input.next?, keyed]
    refine Reply.Reads.andHalts (yields_condition opened (tested.recovers trivial) closed) fun _ => ?_
    refine Reply.Reads.andHalts branch fun _ => ?_
    simp only [Input.take_cons alternated]
    exact (halts r close same).andThen
  · have test := Relaxed.ifElse keyed opened (tested.relaxed trivial) closed (chosen.relaxed trivial)
      (fun _ => rfl) alternated joined
    exact .inr ⟨_, _, _, _, by simpa using test, most⟩

end

/-- A statement without the semicolon at its end. -/
theorem Derives.unclosed {endsOpen : Bool} {tree : Stmt}
    (h : Derives .nearest n w (.statement endsOpen tree) m) (cut : Cut w before semicolon [])
    (follows : Follower s) : Unclosed n before s := by
  generalize hp : Phrase.statement endsOpen tree = phrase at h
  induction h generalizing endsOpen tree before with
  | evaluation evaluated =>
    cases evaluated with
    | expressionEnd valued =>
      obtain ⟨rfl, -⟩ := cut.last (valued.inner rfl).not_semicolon
      exact unclosed_evaluation valued follows
  | print keyed valued =>
    obtain ⟨_, rfl, inner⟩ := cut.cons keyed rfl
    obtain ⟨rfl, -⟩ := inner.last (valued.inner rfl).not_semicolon
    exact unclosed_print keyed valued follows
  | returnWith keyed valued =>
    obtain ⟨_, rfl, inner⟩ := cut.cons keyed rfl
    obtain ⟨rfl, -⟩ := inner.last (valued.inner rfl).not_semicolon
    exact unclosed_returnWith keyed valued follows
  | block opened content closed =>
    obtain ⟨_, rfl, inner⟩ := cut.cons opened rfl
    obtain ⟨_, none, -⟩ := inner.ended content.nested closed rfl
    simp at none
  | whileLoop keyed opened tested closed _ _ ih =>
    cases hp
    obtain ⟨_, rfl, inner⟩ := cut.cons keyed rfl
    obtain ⟨_, rfl, body⟩ := inner.group opened tested.nested closed
    exact unclosed_whileLoop keyed opened tested closed (ih body rfl)
  | forLoop keyed opened initialized tested separated increased closed _ _ _ _ ih =>
    injection hp
    obtain ⟨_, rfl, body⟩ := cut.forLoop keyed opened initialized.nested tested.nested separated
      increased.nested closed
    exact unclosed_forLoop keyed opened initialized tested separated increased closed (ih body rfl)
  | ifThen keyed opened tested closed _ _ ih =>
    cases hp
    obtain ⟨_, rfl, inner⟩ := cut.cons keyed rfl
    obtain ⟨_, rfl, branch⟩ := inner.group opened tested.nested closed
    exact unclosed_ifThen keyed opened tested closed (ih branch rfl)
  | ifElse keyed opened tested closed chosen attached alternated _ _ _ ih =>
    cases hp
    obtain rfl := attached rfl
    obtain ⟨_, rfl, inner⟩ := cut.cons keyed rfl
    obtain ⟨_, rfl, branches⟩ := inner.group opened tested.nested closed
    rcases branches.append chosen.nested with ⟨_, none, -⟩ | ⟨_, rfl, last⟩
    · simp at none
    · obtain ⟨_, rfl, other⟩ := last.cons alternated rfl
      exact unclosed_ifElse keyed opened tested closed chosen alternated (ih other rfl)
  | _ => cases hp

/-! ## Declarations and what follows -/

/-- A declaration without its semicolon is stuck at what follows or is one with it. -/
def UnclosedDeclaration (n : Nat) (w s : List Token) : Prop :=
  HaltsAt declarationOrStuck n w s ∨ ∃ tree faults m,
    Relaxed .nearest n (w ++ s) (.declaration tree) faults m ∧ faults.length ≤ 1

theorem Follower.head (h : Follower s) :
    ∀ t ∈ s.head?, t.kind ≠ .symbol .equal ∧ t.kind ≠ .symbol .semicolon := by
  have other {t : Token} {kind : TokenKind} {starts : TokenKind → Bool}
      (h : starts t.kind = true) (hk : starts kind = false) : t.kind ≠ kind := by
    rintro rfl
    rw [hk] at h
    cases h
  cases h with
  | nothing => exact nofun
  | word announced =>
    rintro _ ⟨⟩
    exact ⟨other announced rfl, other announced rfl⟩
  | expression valued =>
    obtain ⟨_, _, derived⟩ := valued 0
    obtain ⟨t, _, rfl, starts⟩ := derived.starts
    rintro _ ⟨⟩
    exact ⟨other starts rfl, other starts rfl⟩

theorem unclosed_variableDeclaration {tree : Stmt}
    (h : Derives .nearest n w (.varDeclaration tree) m) (cut : Cut w before semicolon [])
    (follows : Follower s) : UnclosedDeclaration n before s := by
  cases h with
  | bareVariable keyed named =>
    obtain ⟨_, rfl, inner⟩ := cut.cons keyed rfl
    obtain ⟨_, rfl, last⟩ := inner.cons named rfl
    obtain ⟨rfl, -⟩ := last.only
    refine .inl ⟨.variableEnd, n, fun r close same => ?_⟩
    have head := follows.head
    rw [← same] at head
    have noValue : (⟨r, close, n⟩ : Input).take (.symbol .equal) = none :=
      Input.take_eq_none.mpr fun t ht => (head t ht).1
    rw [declarationOrStuck]
    simp only [List.cons_append, List.nil_append, Input.next?, keyed]
    refine Reply.Halts.widen ((Input.reads_expect_cons named).andHalts fun _ => ?_)
    simp only [noValue]
    exact (Input.halts_expect fun t ht => (head t ht).2).andThen
  | initializedVariable keyed named assigned valued =>
    obtain ⟨_, rfl, inner⟩ := cut.cons keyed rfl
    obtain ⟨_, rfl, inner'⟩ := inner.cons named rfl
    obtain ⟨_, rfl, value⟩ := inner'.cons assigned rfl
    obtain ⟨rfl, -⟩ := value.last (valued.inner rfl).not_semicolon
    rcases valued.blocks_or_continues follows with
      blocks | ⟨y, closing, _, _, _, rfl, closed, joined, most⟩
    · refine .inl ⟨.variableEnd, m, fun r close same => ?_⟩
      have ends := blocks.of_head same
      rw [declarationOrStuck]
      simp only [List.cons_append, Input.next?, keyed]
      refine Reply.Halts.widen ((Input.reads_expect_cons named).andHalts fun _ => ?_)
      simp only [Input.take_cons assigned]
      exact (valued.reads ends close).andHalts fun _ => (Input.halts_expect ends.2).andThen
    · have declared := Relaxed.initializedVariable keyed named assigned joined closed
      exact .inr ⟨_, _, _, .variableDeclaration (by simpa using declared), most⟩

theorem Derives.statement_start {endsOpen : Bool} {tree : Stmt}
    (h : Derives .nearest n w (.statement endsOpen tree) m) :
    ∃ t w', w = t :: w' ∧ opensStatement t.kind = true ∧ t.kind ≠ .symbol .semicolon := by
  cases h with
  | evaluation evaluated =>
    obtain ⟨t, w', rfl, starts⟩ := evaluated.starts trivial
    exact ⟨t, w', rfl, opensStatement_of_startsExpression starts,
      not_closes_of_startsExpression starts (.inl rfl)⟩
  | print keyed | returnWith keyed | block keyed | whileLoop keyed | forLoop keyed | ifThen keyed
  | ifElse keyed => exact ⟨_, _, rfl, by rw [keyed]; rfl, by rw [keyed]; exact nofun⟩

theorem declarationOrStuck_of_opens (opens : opensStatement t.kind = true) :
    declarationOrStuck ⟨t :: w, close, n⟩ = statement ⟨t :: w, close, n⟩ := by
  rw [declarationOrStuck]
  simp only [Input.next?]
  split
  case h_4 => rfl
  all_goals
    next hk =>
      rw [hk] at opens
      cases opens

/-- A function does not end with a semicolon. -/
theorem Derives.not_ended {decl : FunctionDecl} (h : Derives .nearest n w (.function decl) m)
    (cut : Cut w before semicolon []) : False := by
  cases h with
  | function named opened listed closed entered content left =>
    obtain ⟨_, -, body⟩ := cut.function named opened listed.nested closed entered
    obtain ⟨_, none, -⟩ := body.ended content.nested left rfl
    simp at none

/-- A declaration without the semicolon at its end. -/
theorem Derives.unclosed_declaration {tree : Stmt} (h : Derives .nearest n w (.declaration tree) m)
    (cut : Cut w before semicolon []) (follows : Follower s) : UnclosedDeclaration n before s := by
  cases h with
  | ordinary executed =>
    rcases executed.unclosed cut follows with ⟨cause, k, halts⟩ | ⟨_, _, _, _, joined, most⟩
    · refine .inl ⟨cause, k, fun r close same => ?_⟩
      obtain ⟨t, w', rfl, opens, other⟩ := executed.statement_start
      obtain ⟨b, rfl⟩ := cut.first other
      rw [List.cons_append, declarationOrStuck_of_opens opens]
      exact halts r close same
    · exact .inr ⟨_, _, _, .ordinary joined, most⟩
  | variableDeclaration declared => exact unclosed_variableDeclaration declared cut follows
  | functionDeclaration keyed declared =>
    obtain ⟨_, rfl, inner⟩ := cut.cons keyed rfl
    exact (declared.not_ended inner).elim
  | baseClass keyed named opened listed closed =>
    obtain ⟨_, rfl, inner⟩ := cut.cons keyed rfl
    obtain ⟨_, rfl, block⟩ := inner.cons named rfl
    obtain ⟨_, rfl, methods⟩ := block.cons opened rfl
    obtain ⟨_, none, -⟩ := methods.ended listed.nested closed rfl
    simp at none
  | derivedClass keyed named inherits parented opened listed closed =>
    obtain ⟨_, rfl, inner⟩ := cut.cons keyed rfl
    obtain ⟨_, rfl, parent⟩ := inner.cons named rfl
    obtain ⟨_, rfl, parent'⟩ := parent.cons inherits rfl
    obtain ⟨_, rfl, block⟩ := parent'.cons parented rfl
    obtain ⟨_, rfl, methods⟩ := block.cons opened rfl
    obtain ⟨_, none, -⟩ := methods.ended listed.nested closed rfl
    simp at none

end Lox.Grammar
