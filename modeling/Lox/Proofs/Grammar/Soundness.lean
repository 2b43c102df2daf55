import Lox.Proofs.Grammar.Reads
import Lox.Proofs.Grammar.Rules

/-!
# What is read is derivable

A reader that notes nothing has read a phrase of the grammar, in either style of `else`. The
proofs follow the recursion of the readers. The loops over operators and over accesses extend a
derivation of what stands before them.
-/
namespace Lox.Grammar

/-- The phrase is derivable from the tokens of `s` that `left` lacks. -/
def Covers (style : DanglingElse) (phrase : Phrase) (s left : Input) : Prop :=
  ∃ w, s.rest = w ++ left.rest ∧ s.close = left.close ∧
    Derives style s.nextId w phrase left.nextId

/-- A phrase derivable from the tokens that `start` has before `s` goes on to one before
`left`. -/
def Extends (style : DanglingElse) (before after : Phrase) (s left : Input) : Prop :=
  ∀ n w, Derives style n w before s.nextId →
    ∃ w', s.rest = w' ++ left.rest ∧ s.close = left.close ∧
      Derives style n (w ++ w') after left.nextId

variable {style : DanglingElse}

theorem Covers.extend {before after : Phrase} {s middle left : Input}
    (h : Covers style before s middle) (h' : Extends style before after middle left) :
    Covers style after s left := by
  obtain ⟨w, hw, hc, hd⟩ := h
  obtain ⟨w', hw', hc', hd'⟩ := h' _ w hd
  exact ⟨w ++ w', by rw [hw, hw', List.append_assoc], hc.trans hc', hd'⟩

/-! ## Targets of assignments -/

theorem tier_node_ne_var (t : Tier) (left right : Expr) (operator : Token) (id : Nat)
    (name : Token) : t.node left operator right ≠ .var id name := by
  cases t <;> exact fun h => nomatch h

theorem tier_node_ne_get (t : Tier) (left right object : Expr) (operator name : Token) :
    t.node left operator right ≠ .get object name := by
  cases t <;> exact fun h => nomatch h

/-- A variable is read from its name alone. -/
theorem Derives.of_var {n m id : Nat} {w : List Token} {name : Token}
    {ts : List Tier} (h : Derives style n w (.tier ts (.var id name)) m) :
    w = [name] ∧ name.kind = .identifier ∧ id = n ∧ m = n + 1 := by
  generalize hp : Phrase.tier ts (.var id name) = phrase at h
  induction h generalizing ts with
  | tightest base ih =>
    cases hp
    cases base with
    | access base =>
      cases base with
      | simple base =>
        cases base with
        | «variable» named => exact ⟨rfl, named, rfl, rfl⟩
  | tighter base ih =>
    cases hp
    exact ih rfl
  | operation =>
    injection hp with _ he
    exact absurd he.symm (tier_node_ne_var _ _ _ _ _ _)
  | _ => cases hp

/-- A property is read from a call, a dot and the name. -/
theorem Derives.of_get {n m : Nat} {w : List Token} {object : Expr}
    {name : Token} {ts : List Tier} (h : Derives style n w (.tier ts (.get object name)) m) :
    ∃ w' dot, w = w' ++ [dot, name] ∧ dot.kind = .symbol .dot ∧ name.kind = .identifier ∧
      Derives style n w' (.call object) m := by
  generalize hp : Phrase.tier ts (.get object name) = phrase at h
  induction h generalizing ts with
  | tightest base ih =>
    cases hp
    cases base with
    | access base =>
      cases base with
      | simple base => cases base
      | property owner dotted named => exact ⟨_, _, rfl, dotted, named, owner⟩
  | tighter base ih =>
    cases hp
    exact ih rfl
  | operation =>
    injection hp with _ he
    exact absurd he.symm (tier_node_ne_get _ _ _ _ _ _)
  | _ => cases hp

theorem reads_assignTo {n : Nat} {target value e : Expr} {equals : Token} {s left : Input}
    {h : s.size < n} (hr : (assignTo target equals value s h).Reads e left) :
    (∃ id name, target = .var id name ∧ e = .assign s.nextId name value ∧
      left = { s with nextId := s.nextId + 1 }) ∨
    (∃ object name, target = .get object name ∧ e = .set object name value ∧ left = s) := by
  unfold assignTo at hr
  split at hr
  · obtain ⟨rfl, rfl⟩ := Reply.reads_tagged.mp hr
    exact .inl ⟨_, _, rfl, rfl, rfl⟩
  · obtain ⟨rfl, rfl⟩ := Reply.reads_pure.mp hr
    exact .inr ⟨_, _, rfl, rfl, rfl⟩
  · cases (Reply.reads_done.mp hr).1

/-! ## Expressions -/

mutual

theorem covers_expression {s left : Input} {e : Expr} (h : (expression s).Reads e left) :
    Covers style (.expression e) s left := by
  rw [expression] at h
  obtain ⟨target, s₁, h₁, ht, h⟩ := Reply.reads_andThen.mp h
  obtain ⟨w, hw, hc, hd⟩ := covers_tiers ht
  split at h
  · obtain ⟨rfl, rfl⟩ := Reply.reads_pure.mp h
    exact ⟨w, hw, hc, .plain hd⟩
  · next equals s₂ _ he =>
    obtain ⟨assigned, rfl⟩ := Input.take_eq_some.mp he
    obtain ⟨value, s₃, h₃, hv, h⟩ := Reply.reads_andThen.mp h
    obtain ⟨w', hw', hc', hd'⟩ := covers_expression hv
    simp only [Input.push] at hw hc hd
    rcases reads_assignTo h with ⟨id, name, rfl, rfl, rfl⟩ | ⟨object, name, rfl, rfl, rfl⟩
    · obtain ⟨rfl, named, rfl, hm⟩ := hd.of_var
      exact ⟨name :: equals :: w', by simp [hw, hw'], hc.trans hc',
        .assignment named assigned (hm ▸ hd')⟩
    · obtain ⟨v, dot, rfl, dotted, named, owner⟩ := hd.of_get
      exact ⟨v ++ dot :: name :: equals :: w', by simp [hw, hw'], hc.trans hc',
        .propertyAssignment owner dotted named assigned hd'⟩
termination_by s.size * 16 + 12
decreasing_by
  · simp only [Tier.length_all]; omega
  · simp only [Input.size_push] at *; omega

theorem covers_tiers {ts : List Tier} {s left : Input} {e : Expr}
    (h : (tiers ts s).Reads e left) : Covers style (.tier ts e) s left := by
  match ts, h with
  | [], h =>
    rw [tiers] at h
    obtain ⟨w, hw, hc, hd⟩ := covers_unary h
    exact ⟨w, hw, hc, .tightest hd⟩
  | t :: ts, h =>
    rw [tiers] at h
    obtain ⟨first, s₁, h₁, ht, h⟩ := Reply.reads_andThen.mp h
    obtain ⟨w, hw, hc, hd⟩ := covers_tiers ht
    exact Covers.extend ⟨w, hw, hc, .tighter hd⟩ (extends_operators (Reply.reads_widen.mp h))
termination_by s.size * 16 + ts.length + 3
decreasing_by all_goals (simp only [List.length_nil, List.length_cons]; omega)

theorem extends_operators {t : Tier} {ts : List Tier} {before e : Expr} {s left : Input}
    (h : (operators t ts before s).Reads e left) :
    Extends style (.tier (t :: ts) before) (.tier (t :: ts) e) s left := by
  intro n w hd
  rw [operators] at h
  split at h
  · obtain ⟨rfl, rfl⟩ := Reply.reads_pure.mp h
    exact ⟨[], rfl, rfl, by simpa using hd⟩
  · next operator s₁ _ ho =>
    obtain ⟨operates, rfl⟩ := Input.take?_eq_some.mp ho
    obtain ⟨right, s₂, h₂, hr, h⟩ := Reply.reads_andThen.mp h
    obtain ⟨w₁, hw₁, hc₁, hd₁⟩ := covers_tiers hr
    obtain ⟨w₂, hw₂, hc₂, hd₂⟩ :=
      extends_operators (Reply.reads_widen.mp h) n _ (.operation hd operates hd₁)
    exact ⟨operator :: (w₁ ++ w₂), by simp [Input.push, hw₁, hw₂], hc₁.trans hc₂,
      by simpa using hd₂⟩
termination_by s.size * 16 + ts.length + 3
decreasing_by all_goals (simp only [Input.size_push] at *; omega)

theorem covers_unary {s left : Input} {e : Expr} (h : (unary s).Reads e left) :
    Covers style (.unary e) s left := by
  rw [unary] at h
  split at h
  · next operator s₁ _ ho =>
    obtain ⟨operates, rfl⟩ := Input.take?_eq_some.mp ho
    obtain ⟨right, s₂, h₂, hr, h⟩ := Reply.reads_andThen.mp h
    obtain ⟨rfl, rfl⟩ := Reply.reads_pure.mp h
    obtain ⟨w, hw, hc, hd⟩ := covers_unary hr
    exact ⟨operator :: w, by simp [Input.push, hw], hc, .unaryOperation operates hd⟩
  · obtain ⟨callee, s₁, h₁, hp, h⟩ := Reply.reads_andThen.mp h
    obtain ⟨w, hw, hc, hd⟩ := covers_primary hp
    obtain ⟨w', hw', hc', hd'⟩ :=
      Covers.extend ⟨w, hw, hc, .simple hd⟩ (extends_accesses (Reply.reads_widen.mp h))
    exact ⟨w', hw', hc', .access hd'⟩
termination_by s.size * 16 + 1
decreasing_by all_goals (simp only [Input.size_push] at *; omega)

theorem extends_accesses {before e : Expr} {s left : Input}
    (h : (accesses before s).Reads e left) : Extends style (.call before) (.call e) s left := by
  intro n w hd
  rw [accesses] at h
  split at h
  · next opening s₁ _ ho =>
    obtain ⟨opened, rfl⟩ := Input.take_eq_some.mp ho
    split at h
    · next paren s₂ _ hp =>
      obtain ⟨closed, rfl⟩ := Input.take_eq_some.mp hp
      obtain ⟨w', hw', hc', hd'⟩ :=
        extends_accesses (Reply.reads_widen.mp h) n _ (.emptyCall hd opened closed)
      exact ⟨opening :: paren :: w', by simp [Input.push, hw'], hc', by simpa using hd'⟩
    · obtain ⟨found, s₂, h₂, ha, h⟩ := Reply.reads_andThen.mp h
      obtain ⟨w₁, hw₁, hc₁, closed, bounded, hd₁⟩ := covers_arguments ha
      obtain ⟨w', hw', hc', hd'⟩ := extends_accesses (Reply.reads_widen.mp h) n _
        (.call hd opened hd₁ (by omega) closed)
      exact ⟨opening :: (w₁ ++ found.2 :: w'), by simp [Input.push, hw₁, hw'], hc₁.trans hc',
        by simpa using hd'⟩
  · split at h
    · next dot s₁ _ hd' =>
      obtain ⟨dotted, rfl⟩ := Input.take_eq_some.mp hd'
      obtain ⟨name, s₂, h₂, hn, h⟩ := Reply.reads_andThen.mp h
      obtain ⟨named, rfl⟩ := Input.reads_expect.mp hn
      obtain ⟨w', hw', hc', hd'⟩ :=
        extends_accesses (Reply.reads_widen.mp h) n _ (.property hd dotted named)
      exact ⟨dot :: name :: w', by simp [Input.push, hw'], hc', by simpa using hd'⟩
    · obtain ⟨rfl, rfl⟩ := Reply.reads_pure.mp h
      exact ⟨[], rfl, rfl, by simpa using hd⟩
termination_by s.size * 16
decreasing_by all_goals (simp only [Input.size_push] at *; omega)

/-- The closing parenthesis is read as well. -/
theorem covers_arguments {count : Nat} {s left : Input} {found : List Expr × Token}
    (h : (arguments count s).Reads found left) :
    ∃ w, s.rest = w ++ found.2 :: left.rest ∧ s.close = left.close ∧
      found.2.kind = .symbol .rightParen ∧ count + found.1.length ≤ maxArguments ∧
      Derives style s.nextId w (.arguments found.1) left.nextId := by
  rw [arguments] at h
  obtain ⟨uncrowded, h⟩ := Reply.reads_noting.mp h
  have hcount : count < maxArguments := by
    refine Nat.lt_of_not_le fun hle => ?_
    rw [if_pos hle] at uncrowded
    cases uncrowded
  obtain ⟨argument, s₁, h₁, ha, h⟩ := Reply.reads_andThen.mp h
  obtain ⟨w, hw, hc, hd⟩ := covers_expression ha
  split at h
  · next comma s₂ _ hs =>
    obtain ⟨separated, rfl⟩ := Input.take_eq_some.mp hs
    obtain ⟨more, s₃, h₃, hm, h⟩ := Reply.reads_andThen.mp h
    obtain ⟨rfl, rfl⟩ := Reply.reads_pure.mp h
    obtain ⟨w', hw', hc', closed, bounded, hd'⟩ := covers_arguments hm
    exact ⟨w ++ comma :: w', by simp [hw, Input.push, hw'], hc.trans hc', closed,
      by simp only [List.length_cons]; omega, .moreArguments hd separated hd'⟩
  · obtain ⟨paren, s₂, h₂, hp, h⟩ := Reply.reads_andThen.mp h
    obtain ⟨closed, rfl⟩ := Input.reads_expect.mp hp
    obtain ⟨rfl, rfl⟩ := Reply.reads_pure.mp h
    exact ⟨w, by simp [hw, Input.push], hc, closed, by simp; omega, .lastArgument hd⟩
termination_by s.size * 16 + 13
decreasing_by all_goals (simp only [Input.size_push] at *; omega)

theorem covers_primary {s left : Input} {e : Expr} (h : (primary s).Reads e left) :
    Covers style (.primary e) s left := by
  rw [primary] at h
  split at h
  · exact absurd h Reply.reads_expected
  · next t s₁ _ ht =>
    obtain rfl := Input.next?_eq_some.mp ht
    split at h
    · next hk =>
      obtain ⟨rfl, rfl⟩ := Reply.reads_pure.mp h
      exact ⟨[t], rfl, rfl, .literal (by simp [literal?, hk])⟩
    · next hk =>
      obtain ⟨rfl, rfl⟩ := Reply.reads_pure.mp h
      exact ⟨[t], rfl, rfl, .literal (by simp [literal?, hk])⟩
    · next hk =>
      obtain ⟨rfl, rfl⟩ := Reply.reads_pure.mp h
      exact ⟨[t], rfl, rfl, .literal (by simp [literal?, hk])⟩
    · next hk =>
      obtain ⟨rfl, rfl⟩ := Reply.reads_pure.mp h
      exact ⟨[t], rfl, rfl, .literal (by simp [literal?, hk])⟩
    · next hk =>
      obtain ⟨rfl, rfl⟩ := Reply.reads_pure.mp h
      exact ⟨[t], rfl, rfl, .literal (by simp [literal?, hk])⟩
    · next keyed =>
      obtain ⟨rfl, rfl⟩ := Reply.reads_tagged.mp h
      exact ⟨[t], rfl, rfl, .this keyed⟩
    · next named =>
      obtain ⟨rfl, rfl⟩ := Reply.reads_tagged.mp h
      exact ⟨[t], rfl, rfl, .variable named⟩
    · next keyed =>
      obtain ⟨dot, s₂, h₂, hd, h⟩ := Reply.reads_andThen.mp h
      obtain ⟨dotted, rfl⟩ := Input.reads_expect.mp hd
      obtain ⟨method, s₃, h₃, hm, h⟩ := Reply.reads_andThen.mp h
      obtain ⟨named, rfl⟩ := Input.reads_expect.mp hm
      obtain ⟨rfl, rfl⟩ := Reply.reads_tagged.mp h
      exact ⟨[t, dot, method], rfl, rfl, .super keyed dotted named⟩
    · next opened =>
      obtain ⟨inner, s₂, h₂, hi, h⟩ := Reply.reads_andThen.mp h
      obtain ⟨w, hw, hc, hd⟩ := covers_expression hi
      obtain ⟨closing, s₃, h₃, hp, h⟩ := Reply.reads_andThen.mp h
      obtain ⟨closed, rfl⟩ := Input.reads_expect.mp hp
      obtain ⟨rfl, rfl⟩ := Reply.reads_pure.mp h
      exact ⟨t :: (w ++ [closing]), by simp [Input.push, hw], hc, .grouping opened hd closed⟩
    · exact absurd h Reply.reads_expected
termination_by s.size * 16
decreasing_by all_goals (simp only [Input.size_push] at *; omega)

end

/-! ## Statements -/

theorem covers_clause {close : Symbol} {cause : ParseCause} {s left : Input} {e : Option Expr}
    (h : (clause close cause s).Reads e left) :
    ∃ closing, closing.kind = .symbol close ∧ Covers style (.optional e) s (left.push closing) := by
  unfold clause at h
  split at h
  · next closing s₁ _ ht =>
    obtain ⟨closed, rfl⟩ := Input.take_eq_some.mp ht
    obtain ⟨rfl, rfl⟩ := Reply.reads_pure.mp h
    exact ⟨closing, closed, [], rfl, rfl, .omitted⟩
  · obtain ⟨value, s₁, h₁, hv, h⟩ := Reply.reads_andThen.mp h
    obtain ⟨w, hw, hc, hd⟩ := covers_expression hv
    obtain ⟨closing, s₂, h₂, ht, h⟩ := Reply.reads_andThen.mp h
    obtain ⟨closed, rfl⟩ := Input.reads_expect.mp ht
    obtain ⟨rfl, rfl⟩ := Reply.reads_pure.mp h
    exact ⟨closing, closed, w, hw, hc, .given hd⟩

theorem covers_expressionStatement {s left : Input} {tree : Stmt}
    (h : (expressionStatement s).Reads tree left) : Covers style (.expressionStatement tree) s left := by
  obtain ⟨value, s₁, h₁, hv, h⟩ := Reply.reads_andThen.mp h
  obtain ⟨w, hw, hc, hd⟩ := covers_expression hv
  obtain ⟨closing, s₂, h₂, ht, h⟩ := Reply.reads_andThen.mp h
  obtain ⟨closed, rfl⟩ := Input.reads_expect.mp ht
  obtain ⟨rfl, rfl⟩ := Reply.reads_pure.mp h
  exact ⟨w ++ [closing], by simp [hw, Input.push], hc, .expressionEnd hd closed⟩

theorem covers_printStatement {s left : Input} {tree : Stmt} {keyword : Token}
    (keyed : keyword.kind = .keyword .printWord) (h : (printStatement s).Reads tree left) :
    Covers style (.statement false tree) (s.push keyword) left := by
  obtain ⟨value, s₁, h₁, hv, h⟩ := Reply.reads_andThen.mp h
  obtain ⟨w, hw, hc, hd⟩ := covers_expression hv
  obtain ⟨closing, s₂, h₂, ht, h⟩ := Reply.reads_andThen.mp h
  obtain ⟨closed, rfl⟩ := Input.reads_expect.mp ht
  obtain ⟨rfl, rfl⟩ := Reply.reads_pure.mp h
  exact ⟨keyword :: (w ++ [closing]), by simp [hw, Input.push], hc, .print keyed hd closed⟩

theorem covers_returnStatement {s left : Input} {tree : Stmt} {keyword : Token}
    (keyed : keyword.kind = .keyword .returnWord)
    (h : (returnStatement keyword s).Reads tree left) :
    Covers style (.statement false tree) (s.push keyword) left := by
  obtain ⟨value, s₁, h₁, hv, h⟩ := Reply.reads_andThen.mp h
  obtain ⟨closing, closed, w, hw, hc, hd⟩ := covers_clause hv
  obtain ⟨rfl, rfl⟩ := Reply.reads_pure.mp h
  exact ⟨keyword :: (w ++ [closing]), by simp [hw, Input.push], hc, .returnWith keyed hd closed⟩

theorem covers_varDeclaration {s left : Input} {tree : Stmt} {keyword : Token}
    (keyed : keyword.kind = .keyword .varWord) (h : (varDeclaration s).Reads tree left) :
    Covers style (.varDeclaration tree) (s.push keyword) left := by
  obtain ⟨name, s₁, h₁, hn, h⟩ := Reply.reads_andThen.mp h
  obtain ⟨named, rfl⟩ := Input.reads_expect.mp hn
  split at h
  · next equals s₂ _ he =>
    obtain ⟨assigned, rfl⟩ := Input.take_eq_some.mp he
    obtain ⟨value, s₃, h₃, hv, h⟩ := Reply.reads_andThen.mp h
    obtain ⟨w, hw, hc, hd⟩ := covers_expression hv
    obtain ⟨closing, s₄, h₄, ht, h⟩ := Reply.reads_andThen.mp h
    obtain ⟨closed, rfl⟩ := Input.reads_expect.mp ht
    obtain ⟨rfl, rfl⟩ := Reply.reads_pure.mp h
    exact ⟨keyword :: name :: equals :: (w ++ [closing]), by simp [hw, Input.push], hc,
      .initializedVariable keyed named assigned hd closed⟩
  · obtain ⟨closing, s₂, h₂, ht, h⟩ := Reply.reads_andThen.mp h
    obtain ⟨closed, rfl⟩ := Input.reads_expect.mp ht
    obtain ⟨rfl, rfl⟩ := Reply.reads_pure.mp h
    exact ⟨[keyword, name, closing], rfl, rfl, .bareVariable keyed named closed⟩

theorem covers_condition {opening closing : ParseCause} {s left : Input} {e : Expr}
    (h : (condition opening closing s).Reads e left) :
    ∃ o c w, o.kind = .symbol .leftParen ∧ c.kind = .symbol .rightParen ∧
      s.rest = o :: (w ++ c :: left.rest) ∧ s.close = left.close ∧
      Derives style s.nextId w (.expression e) left.nextId := by
  obtain ⟨o, s₁, h₁, ho, h⟩ := Reply.reads_andThen.mp h
  obtain ⟨opened, rfl⟩ := Input.reads_expect.mp ho
  obtain ⟨value, s₂, h₂, hv, h⟩ := Reply.reads_andThen.mp h
  obtain ⟨w, hw, hc, hd⟩ := covers_expression hv
  obtain ⟨c, s₃, h₃, ht, h⟩ := Reply.reads_andThen.mp h
  obtain ⟨closed, rfl⟩ := Input.reads_expect.mp ht
  obtain ⟨rfl, rfl⟩ := Reply.reads_pure.mp h
  exact ⟨o, c, w, opened, closed, by simp [hw, Input.push], hc, hd⟩

theorem covers_forInitializer {s left : Input} {first : Option Stmt}
    (h : (forInitializer s).Reads first left) : Covers style (.initializer first) s left := by
  unfold forInitializer at h
  split at h
  · next closing s₁ _ ht =>
    obtain ⟨closed, rfl⟩ := Input.take_eq_some.mp ht
    obtain ⟨rfl, rfl⟩ := Reply.reads_pure.mp h
    exact ⟨[closing], rfl, rfl, .noInitializer closed⟩
  · split at h
    · next keyword s₁ _ ht =>
      obtain ⟨keyed, rfl⟩ := Input.take_eq_some.mp ht
      obtain ⟨tree, s₂, h₂, hv, h⟩ := Reply.reads_andThen.mp h
      obtain ⟨w, hw, hc, hd⟩ := covers_varDeclaration keyed hv
      obtain ⟨rfl, rfl⟩ := Reply.reads_pure.mp h
      exact ⟨w, hw, hc, .variableInitializer hd⟩
    · obtain ⟨tree, s₂, h₂, hv, h⟩ := Reply.reads_andThen.mp h
      obtain ⟨w, hw, hc, hd⟩ := covers_expressionStatement hv
      obtain ⟨rfl, rfl⟩ := Reply.reads_pure.mp h
      exact ⟨w, hw, hc, .expressionInitializer hd⟩

/-- The tokens of a loop's clauses, with its parentheses. -/
theorem covers_forClauses {s left : Input} {clauses : ForClauses}
    (h : (forClauses s).Reads clauses left) :
    ∃ o semicolon c w₁ w₂ w₃ m k, o.kind = .symbol .leftParen ∧
      semicolon.kind = .symbol .semicolon ∧ c.kind = .symbol .rightParen ∧
      s.rest = o :: (w₁ ++ (w₂ ++ semicolon :: (w₃ ++ c :: left.rest))) ∧
      s.close = left.close ∧
      Derives style s.nextId w₁ (.initializer clauses.initializer) m ∧
      Derives style m w₂ (.optional clauses.condition) k ∧
      Derives style k w₃ (.optional clauses.increment) left.nextId := by
  obtain ⟨o, s₁, h₁, ho, h⟩ := Reply.reads_andThen.mp h
  obtain ⟨opened, rfl⟩ := Input.reads_expect.mp ho
  obtain ⟨first, s₂, h₂, hf, h⟩ := Reply.reads_andThen.mp h
  obtain ⟨w₁, hw₁, hc₁, hd₁⟩ := covers_forInitializer hf
  obtain ⟨test, s₃, h₃, ht, h⟩ := Reply.reads_andThen.mp h
  obtain ⟨semicolon, separated, w₂, hw₂, hc₂, hd₂⟩ := covers_clause ht
  obtain ⟨after, s₄, h₄, ha, h⟩ := Reply.reads_andThen.mp h
  obtain ⟨c, closed, w₃, hw₃, hc₃, hd₃⟩ := covers_clause ha
  obtain ⟨rfl, rfl⟩ := Reply.reads_pure.mp h
  simp only [Input.push] at hw₂ hw₃ hd₂ hd₃
  exact ⟨o, semicolon, c, w₁, w₂, w₃, s₂.nextId, s₃.nextId, opened, separated, closed,
    by simp [Input.push, hw₁, hw₂, hw₃], hc₁.trans (hc₂.trans hc₃), hd₁, hd₂, hd₃⟩

/-- The closing parenthesis is read as well. -/
theorem covers_parameters {count : Nat} {s left : Input} {names : List Token}
    (h : (parameters count s).Reads names left) :
    ∃ w closing, closing.kind = .symbol .rightParen ∧
      s = { left with rest := w ++ closing :: left.rest } ∧ Parameters w names ∧
      count + names.length ≤ maxArguments := by
  rw [parameters] at h
  obtain ⟨uncrowded, h⟩ := Reply.reads_noting.mp h
  have hcount : count < maxArguments := by
    refine Nat.lt_of_not_le fun hle => ?_
    rw [if_pos hle] at uncrowded
    cases uncrowded
  obtain ⟨name, s₁, h₁, hn, h⟩ := Reply.reads_andThen.mp h
  obtain ⟨named, rfl⟩ := Input.reads_expect.mp hn
  split at h
  · next comma s₂ _ hs =>
    obtain ⟨separated, rfl⟩ := Input.take_eq_some.mp hs
    obtain ⟨more, s₃, h₃, hm, h⟩ := Reply.reads_andThen.mp h
    obtain ⟨rfl, rfl⟩ := Reply.reads_pure.mp h
    obtain ⟨w, closing, closed, rfl, hp, bounded⟩ := covers_parameters hm
    exact ⟨name :: comma :: w, closing, closed, rfl, .more named separated hp,
      by simp only [List.length_cons]; omega⟩
  · obtain ⟨closing, s₂, h₂, hc, h⟩ := Reply.reads_andThen.mp h
    obtain ⟨closed, rfl⟩ := Input.reads_expect.mp hc
    obtain ⟨rfl, rfl⟩ := Reply.reads_pure.mp h
    exact ⟨[name], closing, closed, rfl, .last named, by simp; omega⟩
termination_by s.size
decreasing_by simp only [Input.size_push] at *; omega

theorem covers_signature {kind : Callable} {s left : Input} {head : Token × List Token}
    (h : (signature kind s).Reads head left) :
    ∃ o w c brace, head.1.kind = .identifier ∧ o.kind = .symbol .leftParen ∧
      c.kind = .symbol .rightParen ∧ brace.kind = .symbol .leftBrace ∧
      OptionalParameters w head.2 ∧
      s = { left with rest := head.1 :: o :: (w ++ c :: brace :: left.rest) } := by
  obtain ⟨name, s₁, h₁, hn, h⟩ := Reply.reads_andThen.mp h
  obtain ⟨named, rfl⟩ := Input.reads_expect.mp hn
  obtain ⟨o, s₂, h₂, ho, h⟩ := Reply.reads_andThen.mp h
  obtain ⟨opened, rfl⟩ := Input.reads_expect.mp ho
  obtain ⟨params, s₃, h₃, hp, h⟩ := Reply.reads_andThen.mp h
  obtain ⟨brace, s₄, h₄, hb, h⟩ := Reply.reads_andThen.mp h
  obtain ⟨entered, rfl⟩ := Input.reads_expect.mp hb
  obtain ⟨rfl, rfl⟩ := Reply.reads_pure.mp h
  split at hp
  · next c _ _ hc =>
    obtain ⟨closed, rfl⟩ := Input.take_eq_some.mp hc
    obtain ⟨rfl, rfl⟩ := Reply.reads_pure.mp hp
    exact ⟨o, [], c, brace, named, opened, closed, entered, .none, rfl⟩
  · obtain ⟨w, c, closed, rfl, hw, bounded⟩ := covers_parameters hp
    exact ⟨o, w, c, brace, named, opened, closed, entered, .some hw (by simpa using bounded), rfl⟩

/-- The tokens between the word `class` and the methods: with the methods they are a class. -/
theorem covers_classHead {s left : Input} {head : Token × Option Expr}
    (h : (classHead s).Reads head left) :
    ∃ w, s.rest = w ++ left.rest ∧ s.close = left.close ∧
      ∀ keyword w' methods closing m, keyword.kind = .keyword .classWord →
        Derives style left.nextId w' (.functions methods) m →
        closing.kind = .symbol .rightBrace →
        Derives style s.nextId (keyword :: (w ++ (w' ++ [closing])))
          (.declaration (.classDecl head.1 head.2 methods)) m := by
  obtain ⟨name, s₁, h₁, hn, h⟩ := Reply.reads_andThen.mp h
  obtain ⟨named, rfl⟩ := Input.reads_expect.mp hn
  split at h
  · next less s₂ _ hl =>
    obtain ⟨inherits, rfl⟩ := Input.take_eq_some.mp hl
    obtain ⟨parent, s₃, h₃, hp, h⟩ := Reply.reads_andThen.mp h
    obtain ⟨parented, rfl⟩ := Input.reads_expect.mp hp
    obtain ⟨superclass, s₄, h₄, hs, h⟩ := Reply.reads_andThen.mp h
    obtain ⟨rfl, rfl⟩ := Reply.reads_tagged.mp hs
    obtain ⟨brace, s₅, h₅, hb, h⟩ := Reply.reads_andThen.mp h
    obtain ⟨opened, he⟩ := Input.reads_expect.mp hb
    obtain ⟨rfl, rfl⟩ := Reply.reads_pure.mp h
    simp only [Input.push, Input.mk.injEq] at he
    obtain ⟨hrest, hclose, hid⟩ := he
    exact ⟨[name, less, parent, brace], by simp [Input.push, hrest], hclose,
      fun _ _ _ _ _ keyed listed closed =>
        .derivedClass keyed named inherits parented opened (hid ▸ listed) closed⟩
  · obtain ⟨brace, s₂, h₂, hb, h⟩ := Reply.reads_andThen.mp h
    obtain ⟨opened, rfl⟩ := Input.reads_expect.mp hb
    obtain ⟨rfl, rfl⟩ := Reply.reads_pure.mp h
    exact ⟨[name, brace], rfl, rfl, fun _ _ _ _ _ keyed listed closed =>
      .baseClass keyed named opened listed closed⟩

/-- A declaration that notes nothing was not dropped. -/
theorem Reply.reads_of_recovered {n : Nat} {r : Reply Stmt n} {pos : n ≠ 0} {tree : Option Stmt}
    {left : Input} {h : left.size < n} (hr : r.recovered pos = ⟨tree, [], left, h⟩) :
    ∃ stmt, tree = some stmt ∧ r.Reads stmt left := by
  cases r with
  | done stmt noted s hs =>
    obtain ⟨rfl, rfl, rfl⟩ := Recovered.mk.injEq .. ▸ hr
    exact ⟨stmt, rfl, hs, rfl⟩
  | stuck fault noted s hs =>
    injection hr with _ hn
    exact absurd hn (by simp)

/-- A statement that lacks an `else` at its end is not followed by one. -/
def CoversStatement (style : DanglingElse) (tree : Stmt) (s left : Input) : Prop :=
  ∃ endsOpen, Covers style (.statement endsOpen tree) s left ∧
    (endsOpen = true → ∀ t ∈ left.rest.head?, t.kind ≠ .keyword .elseWord)

/-- The closing brace is read as well. -/
def CoversBraced (style : DanglingElse) (phrase : Phrase) (s left : Input) : Prop :=
  ∃ closing, closing.kind = .symbol .rightBrace ∧ Covers style phrase s (left.push closing)

mutual

theorem covers_statement {s left : Input} {tree : Stmt} (h : (statement s).Reads tree left) :
    CoversStatement style tree s left := by
  rw [statement] at h
  split at h
  · obtain ⟨w, hw, hc, hd⟩ := covers_expressionStatement h
    exact ⟨false, ⟨w, hw, hc, .evaluation hd⟩, nofun⟩
  · next keyword s₁ _ ht =>
    obtain rfl := Input.next?_eq_some.mp ht
    split at h
    · next keyed =>
      obtain ⟨clauses, s₂, h₂, hf, h⟩ := Reply.reads_andThen.mp h
      obtain ⟨o, semicolon, c, w₁, w₂, w₃, m, k, opened, separated, closed, hw, hc, hd₁, hd₂, hd₃⟩ :=
        covers_forClauses hf
      obtain ⟨body, s₃, h₃, hb, h⟩ := Reply.reads_andThen.mp h
      obtain ⟨rfl, rfl⟩ := Reply.reads_pure.mp h
      obtain ⟨endsOpen, ⟨w, hw', hc', hd⟩, hopen⟩ := covers_statement hb
      exact ⟨endsOpen, ⟨_, by simp [Input.push, hw, hw'], hc.trans hc',
        .forLoop keyed opened hd₁ hd₂ separated hd₃ closed hd⟩, hopen⟩
    · next keyed =>
      obtain ⟨test, s₂, h₂, ht, h⟩ := Reply.reads_andThen.mp h
      obtain ⟨o, c, w, opened, closed, hw, hc, hd⟩ := covers_condition ht
      obtain ⟨branch, s₃, h₃, hb, h⟩ := Reply.reads_andThen.mp h
      obtain ⟨thenOpen, ⟨w₁, hw₁, hc₁, hd₁⟩, hopen⟩ := covers_statement hb
      split at h
      · next elseToken s₄ _ he =>
        obtain ⟨alternated, rfl⟩ := Input.take_eq_some.mp he
        obtain ⟨other, s₅, h₅, ho, h⟩ := Reply.reads_andThen.mp h
        obtain ⟨rfl, rfl⟩ := Reply.reads_pure.mp h
        obtain ⟨elseOpen, ⟨w₂, hw₂, hc₂, hd₂⟩, hopen₂⟩ := covers_statement ho
        have attached : thenOpen = false := by
          cases thenOpen with
          | false => rfl
          | true => exact absurd alternated (hopen rfl elseToken rfl)
        simp only [Input.push] at hw₁ hc₁ hd₁
        exact ⟨elseOpen, ⟨_, by simp [Input.push, hw, hw₁, hw₂], hc.trans (hc₁.trans hc₂),
          .ifElse keyed opened hd closed hd₁ (fun _ => attached) alternated hd₂⟩, hopen₂⟩
      · next he =>
        obtain ⟨rfl, rfl⟩ := Reply.reads_pure.mp h
        exact ⟨true, ⟨_, by simp [Input.push, hw, hw₁], hc.trans hc₁,
          .ifThen keyed opened hd closed hd₁⟩, fun _ => Input.take_eq_none.mp he⟩
    · next keyed =>
      exact ⟨false, covers_printStatement keyed (Reply.reads_widen.mp h), nofun⟩
    · next keyed =>
      exact ⟨false, covers_returnStatement keyed (Reply.reads_widen.mp h), nofun⟩
    · next keyed =>
      obtain ⟨test, s₂, h₂, ht, h⟩ := Reply.reads_andThen.mp h
      obtain ⟨o, c, w, opened, closed, hw, hc, hd⟩ := covers_condition ht
      obtain ⟨body, s₃, h₃, hb, h⟩ := Reply.reads_andThen.mp h
      obtain ⟨rfl, rfl⟩ := Reply.reads_pure.mp h
      obtain ⟨endsOpen, ⟨w₁, hw₁, hc₁, hd₁⟩, hopen⟩ := covers_statement hb
      exact ⟨endsOpen, ⟨_, by simp [Input.push, hw, hw₁], hc.trans hc₁,
        .whileLoop keyed opened hd closed hd₁⟩, hopen⟩
    · next opened =>
      obtain ⟨body, s₂, h₂, hb, h⟩ := Reply.reads_andThen.mp h
      obtain ⟨rfl, rfl⟩ := Reply.reads_pure.mp h
      obtain ⟨closing, closed, w, hw, hc, hd⟩ := covers_block hb
      exact ⟨false, ⟨keyword :: (w ++ [closing]), by simp [Input.push, hw], hc,
        .block opened hd closed⟩, nofun⟩
    · obtain ⟨w, hw, hc, hd⟩ := covers_expressionStatement h
      exact ⟨false, ⟨w, hw, hc, .evaluation hd⟩, nofun⟩
termination_by s.size * 4
decreasing_by all_goals (simp only [Input.size_push] at *; omega)

theorem covers_block {s left : Input} {trees : List Stmt} (h : (block s).Reads trees left) :
    CoversBraced style (.declarations trees) s left := by
  rw [block] at h
  split at h
  · next closing s₁ _ hc =>
    obtain ⟨closed, rfl⟩ := Input.take_eq_some.mp hc
    obtain ⟨rfl, rfl⟩ := Reply.reads_pure.mp h
    exact ⟨closing, closed, [], rfl, rfl, .noDeclarations⟩
  · split at h
    · exact absurd h Reply.reads_expected
    · next pos =>
      split at h
      next tree noted s₁ _ hdecl =>
      obtain ⟨rfl, hb⟩ := Reply.reads_noting.mp h
      obtain ⟨rest, s₂, h₂, hr, h⟩ := Reply.reads_andThen.mp hb
      obtain ⟨rfl, rfl⟩ := Reply.reads_pure.mp h
      obtain ⟨first, rfl, w, hw, hc, hd⟩ := covers_declaration hdecl
      obtain ⟨closing, closed, w₁, hw₁, hc₁, hd₁⟩ := covers_block hr
      exact ⟨closing, closed, w ++ w₁, by simp [hw, hw₁], hc.trans hc₁, .moreDeclarations hd hd₁⟩
termination_by s.size * 4 + 3

theorem covers_declaration {s left : Input} {pos : s.size ≠ 0} {tree : Option Stmt}
    {shorter : left.size < s.size} (h : declaration s pos = ⟨tree, [], left, shorter⟩) :
    ∃ first, tree = some first ∧ Covers style (.declaration first) s left := by
  rw [declaration] at h
  obtain ⟨first, ht, h⟩ := Reply.reads_of_recovered h
  refine ⟨first, ht, ?_⟩
  rw [declarationOrStuck] at h
  split at h
  · obtain ⟨_, ⟨w, hw, hc, hd⟩, _⟩ := covers_statement h
    exact ⟨w, hw, hc, .ordinary hd⟩
  · next keyword s₁ _ ht =>
    obtain rfl := Input.next?_eq_some.mp ht
    split at h
    · next keyed =>
      obtain ⟨head, s₂, h₂, hh, h⟩ := Reply.reads_andThen.mp h
      obtain ⟨methods, s₃, h₃, hm, h⟩ := Reply.reads_andThen.mp h
      obtain ⟨rfl, rfl⟩ := Reply.reads_pure.mp h
      obtain ⟨w, hw, hc, hd⟩ := covers_classHead hh
      obtain ⟨closing, closed, w₁, hw₁, hc₁, hd₁⟩ := covers_methods hm
      exact ⟨_, by simp [Input.push, hw, hw₁], hc.trans hc₁, hd keyword w₁ _ closing _ keyed hd₁ closed⟩
    · next keyed =>
      obtain ⟨decl, s₂, h₂, hf, h⟩ := Reply.reads_andThen.mp h
      obtain ⟨rfl, rfl⟩ := Reply.reads_pure.mp h
      obtain ⟨w, hw, hc, hd⟩ := covers_function hf
      exact ⟨keyword :: w, by simp [Input.push, hw], hc, .functionDeclaration keyed hd⟩
    · next keyed =>
      obtain ⟨w, hw, hc, hd⟩ := covers_varDeclaration keyed (Reply.reads_widen.mp h)
      exact ⟨w, hw, hc, .variableDeclaration hd⟩
    · obtain ⟨_, ⟨w, hw, hc, hd⟩, _⟩ := covers_statement h
      exact ⟨w, hw, hc, .ordinary hd⟩
termination_by s.size * 4 + 2
decreasing_by all_goals (simp only [Input.size_push] at *; omega)

theorem covers_methods {s left : Input} {methods : List FunctionDecl}
    (h : (Grammar.methods s).Reads methods left) : CoversBraced style (.functions methods) s left := by
  rw [Grammar.methods] at h
  split at h
  · next closing s₁ _ hc =>
    obtain ⟨closed, rfl⟩ := Input.take_eq_some.mp hc
    obtain ⟨rfl, rfl⟩ := Reply.reads_pure.mp h
    exact ⟨closing, closed, [], rfl, rfl, .noFunctions⟩
  · split at h
    · exact absurd h Reply.reads_expected
    · obtain ⟨method, s₁, h₁, hm, h⟩ := Reply.reads_andThen.mp h
      obtain ⟨rest, s₂, h₂, hr, h⟩ := Reply.reads_andThen.mp h
      obtain ⟨rfl, rfl⟩ := Reply.reads_pure.mp h
      obtain ⟨w, hw, hc, hd⟩ := covers_function hm
      obtain ⟨closing, closed, w₁, hw₁, hc₁, hd₁⟩ := covers_methods hr
      exact ⟨closing, closed, w ++ w₁, by simp [hw, hw₁], hc.trans hc₁, .moreFunctions hd hd₁⟩
termination_by s.size * 4 + 1

theorem covers_function {kind : Callable} {s left : Input} {decl : FunctionDecl}
    (h : (Grammar.function kind s).Reads decl left) : Covers style (.function decl) s left := by
  rw [Grammar.function] at h
  obtain ⟨head, s₁, h₁, hs, h⟩ := Reply.reads_andThen.mp h
  obtain ⟨o, w, c, brace, named, opened, closed, entered, listed, rfl⟩ := covers_signature hs
  obtain ⟨body, s₂, h₂, hb, h⟩ := Reply.reads_andThen.mp h
  obtain ⟨rfl, rfl⟩ := Reply.reads_pure.mp h
  obtain ⟨endBrace, ended, w₁, hw₁, hc₁, hd₁⟩ := covers_block hb
  exact ⟨_, by simp [hw₁, Input.push], hc₁,
    .function named opened listed closed entered hd₁ ended⟩
termination_by s.size * 4

end

/-! ## Programs -/

theorem derives_program {s : Input} (h : (program s).faults = []) :
    Derives style s.nextId s.rest (.declarations (program s).statements) (program s).nextId := by
  rw [program] at h ⊢
  split at h
  · next he =>
    rw [dif_pos he, List.length_eq_zero_iff.mp he]
    exact .noDeclarations
  · next pos =>
    rw [dif_neg pos]
    split at h
    next tree noted left shorter hdecl =>
    obtain ⟨rfl, hr⟩ := List.append_eq_nil_iff.mp h
    obtain ⟨first, rfl, w, hw, hc, hd⟩ := covers_declaration hdecl
    have hrest := derives_program hr
    rw [hw]
    exact .moreDeclarations hd hrest
termination_by s.size

end Lox.Grammar
