import Lox.Proofs.Grammar.Reads
import Lox.Proofs.Grammar.Relaxed

/-!
# What is derivable is read

A derivation in the style `nearest` of the relaxed grammar is followed rule by rule. A reader takes
as many tokens as it can, so each phrase is read back where the token after it does not continue it.
The loops take what stands before them as given: a left operand or a callee is read if the loop that
goes on from it reads the rest. Each rule is shown with the faults that are noted in its parts, of
which a derivation in the grammar itself has none.
-/
namespace Lox.Grammar

/-! ## What may follow -/

/-- The next token is neither an access nor an operator of the given tiers. -/
def Stops (ts : List Tier) (rest : List Token) : Prop :=
  ∀ t ∈ rest.head?, t.kind ≠ .symbol .leftParen ∧ t.kind ≠ .symbol .dot ∧
    ∀ tier ∈ ts, tier.holds t.kind = false

/-- The next token does not continue an expression. -/
def EndsExpression (rest : List Token) : Prop :=
  Stops Tier.all rest ∧ ∀ t ∈ rest.head?, t.kind ≠ .symbol .equal

theorem Stops.of_cons {t : Tier} {ts : List Tier} {rest : List Token} (h : Stops (t :: ts) rest) :
    Stops ts rest :=
  fun token ht => ⟨(h token ht).1, (h token ht).2.1,
    fun tier htier => (h token ht).2.2 tier (List.mem_cons_of_mem t htier)⟩

theorem Tier.holds_disjoint {t t' : Tier} {kind : TokenKind} (h : t.holds kind = true)
    (h' : t'.holds kind = true) : t = t' := by
  cases t <;> cases t' <;> first | rfl | skip
  all_goals
    unfold Tier.holds at h h'
    split at h <;> simp_all

/-- An operator of one tier does not continue an operand of tighter tiers. -/
theorem Stops.of_holds {t : Tier} {ts : List Tier} (distinct : t ∉ ts) {operator : Token}
    {rest : List Token} (h : t.holds operator.kind = true) : Stops ts (operator :: rest) := by
  rintro _ ⟨⟩
  refine ⟨?_, ?_, ?_⟩
  · intro hk
    rw [hk] at h
    cases t <;> cases h
  · intro hk
    rw [hk] at h
    cases t <;> cases h
  · intro tier htier
    cases hb : tier.holds operator.kind with
    | false => rfl
    | true => exact absurd (Tier.holds_disjoint h hb ▸ htier) distinct

theorem Stops.of_equal {ts : List Tier} {equals : Token} {rest : List Token}
    (h : equals.kind = .symbol .equal) : Stops ts (equals :: rest) := by
  rintro _ ⟨⟩
  rw [h]
  exact ⟨nofun, nofun, fun tier _ => by cases tier <;> rfl⟩

/-- Symbols at which expressions end. -/
theorem endsExpression_cons {t : Token} {rest : List Token} {s : Symbol} (h : t.kind = .symbol s)
    (hs : s = .rightParen ∨ s = .comma ∨ s = .semicolon) : EndsExpression (t :: rest) := by
  constructor
  · rintro _ ⟨⟩
    rw [h]
    rcases hs with rfl | rfl | rfl
    all_goals exact ⟨nofun, nofun, fun tier _ => by cases tier <;> rfl⟩
  · rintro _ ⟨⟩
    rw [h]
    rcases hs with rfl | rfl | rfl <;> exact nofun

theorem accesses_stop {e : Expr} {rest : List Token} {close : Token} {n : Nat}
    (h : Stops [] rest) : (accesses e ⟨rest, close, n⟩).Reads e ⟨rest, close, n⟩ := by
  have hp : (⟨rest, close, n⟩ : Input).take (.symbol .leftParen) = none :=
    Input.take_eq_none.mpr fun t ht => (h t ht).1
  have hd : (⟨rest, close, n⟩ : Input).take (.symbol .dot) = none :=
    Input.take_eq_none.mpr fun t ht => (h t ht).2.1
  rw [accesses, hp]
  simp only [hd]
  exact Reply.reads_pure.mpr ⟨rfl, rfl⟩

theorem operators_stop {t : Tier} {ts : List Tier} {e : Expr} {rest : List Token} {close : Token}
    {n : Nat} (h : Stops (t :: ts) rest) :
    (operators t ts e ⟨rest, close, n⟩).Reads e ⟨rest, close, n⟩ := by
  have ho : (⟨rest, close, n⟩ : Input).take? t.holds = none :=
    Input.take?_eq_none.mpr fun token ht => (h token ht).2.2 t List.mem_cons_self
  rw [operators, ho]
  exact Reply.reads_pure.mpr ⟨rfl, rfl⟩

/-! ## Reading a derivation -/

/-- A symbol that closes an optional expression. -/
def closesOptional (s : Symbol) : Prop := s = .semicolon ∨ s = .rightParen

/-- How the tokens of a phrase are read before any tokens that may follow, with these faults noted
on the way. -/
def Phrase.Recovers (faults : List Fault) : Phrase → Nat → List Token → Nat → Prop
  | .primary e, n, w, m => ∀ rest close,
      (Grammar.primary ⟨w ++ rest, close, n⟩).Yields e faults ⟨rest, close, m⟩
  | .call e, n, w, m => ∀ rest close e' more left,
      (accesses e ⟨rest, close, m⟩).Yields e' more left →
      (Grammar.unary ⟨w ++ rest, close, n⟩).Yields e' (faults ++ more) left
  | .unary e, n, w, m => ∀ rest close, Stops [] rest →
      (Grammar.unary ⟨w ++ rest, close, n⟩).Yields e faults ⟨rest, close, m⟩
  | .tier [] e, n, w, m => ∀ rest close, Stops [] rest →
      (tiers [] ⟨w ++ rest, close, n⟩).Yields e faults ⟨rest, close, m⟩
  | .tier (t :: ts) e, n, w, m => (t :: ts).Nodup → ∀ rest close e' more left, Stops ts rest →
      (operators t ts e ⟨rest, close, m⟩).Yields e' more left →
      (tiers (t :: ts) ⟨w ++ rest, close, n⟩).Yields e' (faults ++ more) left
  | .expression e, n, w, m => ∀ rest close, EndsExpression rest →
      (Grammar.expression ⟨w ++ rest, close, n⟩).Yields e faults ⟨rest, close, m⟩
  | .optional e, n, w, m => ∀ rest close symbol cause closing, closesOptional symbol →
      closing.kind = .symbol symbol →
      (clause symbol cause ⟨w ++ closing :: rest, close, n⟩).Yields e faults ⟨rest, close, m⟩
  | .arguments es, n, w, m =>
      (∀ rest close closing, closing.kind = .symbol .rightParen →
        (Grammar.arguments 0 ⟨w ++ closing :: rest, close, n⟩).Yields (es, closing) faults
          ⟨rest, close, m⟩) ∧
      ∀ rest close comma others more left, comma.kind = .symbol .comma →
        (Grammar.arguments es.length ⟨rest, close, m⟩).Yields others more left →
        (Grammar.arguments 0 ⟨w ++ comma :: rest, close, n⟩).Yields (es ++ others.1, others.2)
          (faults ++ more) left
  | .varDeclaration s, n, w, m => ∀ rest close, ∃ t w', w = t :: w' ∧ t.kind = .keyword .varWord ∧
      (Grammar.varDeclaration ⟨w' ++ rest, close, n⟩).Yields s faults ⟨rest, close, m⟩
  | .expressionStatement s, n, w, m => ∀ rest close,
      (Grammar.expressionStatement ⟨w ++ rest, close, n⟩).Yields s faults ⟨rest, close, m⟩
  | .initializer s, n, w, m => ∀ rest close,
      (forInitializer ⟨w ++ rest, close, n⟩).Yields s faults ⟨rest, close, m⟩
  | .statement endsOpen s, n, w, m => ∀ rest close,
      (endsOpen = true → ∀ t ∈ rest.head?, t.kind ≠ .keyword .elseWord) →
      (Grammar.statement ⟨w ++ rest, close, n⟩).Yields s faults ⟨rest, close, m⟩
  | .declaration s, n, w, m => ∀ rest close, (∀ t ∈ rest.head?, t.kind ≠ .keyword .elseWord) →
      (declarationOrStuck ⟨w ++ rest, close, n⟩).Yields s faults ⟨rest, close, m⟩
  | .declarations ss, n, w, m =>
      (∀ rest close closing, closing.kind = .symbol .rightBrace →
        (block ⟨w ++ closing :: rest, close, n⟩).Yields ss faults ⟨rest, close, m⟩) ∧
      ∀ close, program ⟨w, close, n⟩ = ⟨ss, faults, m⟩
  | .function d, n, w, m => ∀ kind rest close,
      (Grammar.function kind ⟨w ++ rest, close, n⟩).Yields d faults ⟨rest, close, m⟩
  | .functions ds, n, w, m => ∀ rest close closing, closing.kind = .symbol .rightBrace →
      (methods ⟨w ++ closing :: rest, close, n⟩).Yields ds faults ⟨rest, close, m⟩

section
variable {n m k : Nat} {w w₁ rest : List Token} {t name dot equals opening closing close : Token}
  {faults faults₁ faults₂ faults₃ : List Fault}

theorem isUnary_of_startsPrimary {kind : TokenKind} (h : startsPrimary kind = true) :
    isUnary kind = false := by
  unfold isUnary
  split
  · cases h
  · cases h
  · rfl

/-- An expression starts with no symbol that closes one. -/
theorem not_closes_of_startsExpression {s : Symbol} (h : startsExpression t.kind = true)
    (hs : closesOptional s) : t.kind ≠ .symbol s := by
  intro hk
  rw [hk] at h
  rcases hs with rfl | rfl <;> cases h

theorem reads_primary_literal {value : Literal} (h : literal? t.kind = some value) :
    (primary ⟨t :: rest, close, n⟩).Reads (.literal value) ⟨rest, close, n⟩ := by
  rw [primary]
  simp only [Input.next?]
  unfold literal? at h
  split at h
  case h_6 => cases h
  all_goals
    next hk =>
      cases h
      simp only [hk]
      exact Reply.reads_pure.mpr ⟨rfl, rfl⟩

theorem reads_primary_this (h : t.kind = .keyword .thisWord) :
    (primary ⟨t :: rest, close, n⟩).Reads (.thisRef n t) ⟨rest, close, n + 1⟩ := by
  rw [primary]
  simp only [Input.next?, h]
  exact Reply.reads_tagged.mpr ⟨rfl, rfl⟩

theorem reads_primary_variable (h : t.kind = .identifier) :
    (primary ⟨t :: rest, close, n⟩).Reads (.var n t) ⟨rest, close, n + 1⟩ := by
  rw [primary]
  simp only [Input.next?, h]
  exact Reply.reads_tagged.mpr ⟨rfl, rfl⟩

theorem reads_primary_super (h : t.kind = .keyword .superWord) (hd : dot.kind = .symbol .dot)
    (hn : name.kind = .identifier) :
    (primary ⟨t :: dot :: name :: rest, close, n⟩).Reads (.superRef n t name)
      ⟨rest, close, n + 1⟩ := by
  rw [primary]
  simp only [Input.next?, h]
  refine (Input.reads_expect_cons hd).andThen fun _ => ?_
  refine (Input.reads_expect_cons hn).andThen fun _ => ?_
  exact Reply.reads_tagged.mpr ⟨rfl, rfl⟩

theorem recovers_grouping {inner : Expr} (h : opening.kind = .symbol .leftParen)
    (hi : (Phrase.expression inner).Recovers faults n w m)
    (hc : closing.kind = .symbol .rightParen) :
    (Phrase.primary (.grouping inner)).Recovers faults n (opening :: (w ++ [closing])) m := by
  intro rest close
  rw [List.cons_append, List.append_assoc, primary]
  simp only [Input.next?, h]
  refine (hi _ _ (endsExpression_cons hc (.inl rfl))).andReads fun _ => ?_
  refine (Input.reads_expect_cons hc).andThen fun _ => ?_
  exact Reply.reads_pure.mpr ⟨rfl, rfl⟩

/-- What a primary expression reads, the loop over accesses goes on from. -/
theorem recovers_simple {e : Expr} (hw : (Phrase.primary e).Starts w)
    (h : (Phrase.primary e).Recovers faults n w m) : (Phrase.call e).Recovers faults n w m := by
  intro rest close e' more left ha
  obtain ⟨t, w', rfl, ht⟩ := hw
  rw [unary, List.cons_append, Input.take?_cons_ne (isUnary_of_startsPrimary ht)]
  exact (h rest close).andThen fun _ => ha.widen

theorem recovers_emptyCall {callee : Expr} (h : (Phrase.call callee).Recovers faults n w m)
    (ho : opening.kind = .symbol .leftParen) (hc : closing.kind = .symbol .rightParen) :
    (Phrase.call (.call callee closing [])).Recovers faults n (w ++ [opening, closing]) m := by
  intro rest close e' more left ha
  rw [List.append_assoc]
  refine h _ _ _ _ _ ?_
  rw [accesses, List.cons_append, Input.take_cons ho]
  simp only [List.cons_append, Input.take_cons hc]
  exact ha.widen

theorem recovers_call {callee : Expr} {trees : List Expr}
    (h : (Phrase.call callee).Recovers faults n w m) (ho : opening.kind = .symbol .leftParen)
    (hw : (Phrase.arguments trees).Starts w₁)
    (hl : (Phrase.arguments trees).Recovers faults₁ m w₁ k)
    (hc : closing.kind = .symbol .rightParen) :
    (Phrase.call (.call callee closing trees)).Recovers (faults ++ faults₁) n
      (w ++ opening :: (w₁ ++ [closing])) k := by
  intro rest close e' more left ha
  obtain ⟨t, w', rfl, ht⟩ := hw
  rw [List.append_assoc, List.append_assoc]
  refine h _ _ _ _ _ ?_
  have hr := hl.1 rest close closing hc
  rw [List.cons_append, List.append_assoc, accesses, Input.take_cons ho]
  simp only [List.cons_append, Input.take_cons_ne (not_closes_of_startsExpression ht (.inr rfl))]
  exact hr.andThen fun _ => ha.widen

theorem recovers_property {object : Expr} (h : (Phrase.call object).Recovers faults n w m)
    (hd : dot.kind = .symbol .dot) (hn : name.kind = .identifier) :
    (Phrase.call (.get object name)).Recovers faults n (w ++ [dot, name]) m := by
  intro rest close e' more left ha
  rw [List.append_assoc]
  refine h _ _ _ _ _ ?_
  rw [accesses, List.cons_append, Input.take_cons_ne (by simp [hd])]
  simp only [Input.take_cons hd]
  exact (Input.reads_expect_cons hn).andYields fun _ => ha.widen

theorem recovers_unaryOperation {operator : Token} {right : Expr}
    (ho : isUnary operator.kind = true) (h : (Phrase.unary right).Recovers faults n w m) :
    (Phrase.unary (.unary operator right)).Recovers faults n (operator :: w) m := by
  intro rest close hs
  rw [unary, List.cons_append, Input.take?_cons ho]
  exact (h rest close hs).andReads fun _ => Reply.reads_pure.mpr ⟨rfl, rfl⟩

theorem recovers_access {e : Expr} (h : (Phrase.call e).Recovers faults n w m) :
    (Phrase.unary e).Recovers faults n w m := by
  intro rest close hs
  have hr := h rest close _ _ _ (accesses_stop hs)
  rwa [List.append_nil] at hr

/-- An expression of a tier is read where no operator of the tier follows. -/
theorem Phrase.Recovers.tier {ts : List Tier} {e : Expr}
    (h : (Phrase.tier ts e).Recovers faults n w m) (distinct : ts.Nodup) (hs : Stops ts rest) :
    (tiers ts ⟨w ++ rest, close, n⟩).Yields e faults ⟨rest, close, m⟩ := by
  cases ts with
  | nil => exact h rest close hs
  | cons t ts =>
    have hr := h distinct rest close e _ _ hs.of_cons (operators_stop hs)
    rwa [List.append_nil] at hr

theorem recovers_tighter {t : Tier} {ts : List Tier} {e : Expr}
    (h : (Phrase.tier ts e).Recovers faults n w m) :
    (Phrase.tier (t :: ts) e).Recovers faults n w m := by
  intro distinct rest close e' more left hs ho
  rw [tiers]
  exact (h.tier distinct.of_cons hs).andThen fun _ => ho.widen

theorem recovers_operation {t : Tier} {ts : List Tier} {left right : Expr} {operator : Token}
    (h : (Phrase.tier (t :: ts) left).Recovers faults n w m) (ho : t.holds operator.kind = true)
    (h' : (Phrase.tier ts right).Recovers faults₁ m w₁ k) :
    (Phrase.tier (t :: ts) (t.node left operator right)).Recovers (faults ++ faults₁) n
      (w ++ operator :: w₁) k := by
  intro distinct rest close e' more left' hs hr
  rw [List.append_assoc, List.append_assoc]
  refine h distinct _ _ _ _ _ (Stops.of_holds (List.nodup_cons.mp distinct).1 ho) ?_
  rw [operators, List.cons_append, Input.take?_cons ho]
  exact (h'.tier distinct.of_cons hs).andThen fun _ => hr.widen

theorem recovers_plain {e : Expr} (h : (Phrase.tier Tier.all e).Recovers faults n w m) :
    (Phrase.expression e).Recovers faults n w m := by
  intro rest close he
  have hn : (⟨rest, close, m⟩ : Input).take (.symbol .equal) = none := Input.take_eq_none.mpr he.2
  rw [expression]
  refine (h.tier (by decide) he.1).andReads fun _ => ?_
  simp only [hn]
  exact Reply.reads_pure.mpr ⟨rfl, rfl⟩

/-- After a target and an equals sign a value is read. What comes of the three is the same whatever
the target. -/
theorem recovers_assignTo {target value tree : Expr} {noted : List Fault} {left : Nat}
    (h : (Phrase.tier Tier.all target).Recovers faults n w m) (he : equals.kind = .symbol .equal)
    (h' : (Phrase.expression value).Recovers faults₁ m w₁ k)
    (assigned : ∀ rest close size (hs : (⟨rest, close, k⟩ : Input).size < size),
      (assignTo target equals value ⟨rest, close, k⟩ hs).Yields tree noted ⟨rest, close, left⟩) :
    (Phrase.expression tree).Recovers (faults ++ (faults₁ ++ noted)) n (w ++ equals :: w₁)
      left := by
  intro rest close hr
  rw [expression, List.append_assoc]
  refine (h.tier (by decide) (Stops.of_equal he)).andThen fun _ => ?_
  simp only [List.cons_append, Input.take_cons he]
  exact (h' rest close hr).andThen fun _ => assigned ..

theorem recovers_assignment {id : Nat} {value : Expr}
    (h : (Phrase.tier Tier.all (.var id name)).Recovers faults n w m)
    (he : equals.kind = .symbol .equal) (h' : (Phrase.expression value).Recovers faults₁ m w₁ k) :
    (Phrase.expression (.assign k name value)).Recovers (faults ++ faults₁) n
      (w ++ equals :: w₁) (k + 1) := by
  have assigned : ∀ rest close size (hs : (⟨rest, close, k⟩ : Input).size < size),
      (assignTo (.var id name) equals value ⟨rest, close, k⟩ hs).Yields (.assign k name value) []
        ⟨rest, close, k + 1⟩ :=
    fun _ _ _ hs => ⟨hs, rfl⟩
  have hr := recovers_assignTo h he h' assigned
  rwa [List.append_nil] at hr

theorem recovers_propertyAssignment {object value : Expr}
    (h : (Phrase.tier Tier.all (.get object name)).Recovers faults n w m)
    (he : equals.kind = .symbol .equal) (h' : (Phrase.expression value).Recovers faults₁ m w₁ k) :
    (Phrase.expression (.set object name value)).Recovers (faults ++ faults₁) n
      (w ++ equals :: w₁) k := by
  have assigned : ∀ rest close size (hs : (⟨rest, close, k⟩ : Input).size < size),
      (assignTo (.get object name) equals value ⟨rest, close, k⟩ hs).Yields
        (.set object name value) [] ⟨rest, close, k⟩ :=
    fun _ _ _ hs => ⟨hs, rfl⟩
  have hr := recovers_assignTo h he h' assigned
  rwa [List.append_nil] at hr

theorem recovers_invalidAssignment {tree value : Expr}
    (h : (Phrase.tier Tier.all tree).Recovers faults n w m) (invalid : assignable tree = false)
    (he : equals.kind = .symbol .equal) (h' : (Phrase.expression value).Recovers faults₁ m w₁ k) :
    (Phrase.expression tree).Recovers (faults ++ (faults₁ ++ [.parse .assignmentTarget equals])) n
      (w ++ equals :: w₁) k := by
  refine recovers_assignTo h he h' fun rest close size hs => ⟨hs, ?_⟩
  cases tree with
  | var | get => cases invalid
  | _ => rfl

/-- The last argument, whatever number it is. -/
theorem yields_lastArgument {e : Expr} {count : Nat}
    (h : (Phrase.expression e).Recovers faults n (t :: w) m)
    (hc : closing.kind = .symbol .rightParen) :
    (arguments count ⟨t :: w ++ closing :: rest, close, n⟩).Yields ([e], closing)
      (crowding .tooManyArguments count t ++ faults) ⟨rest, close, m⟩ := by
  rw [arguments]
  refine Reply.Yields.noting ?_ (crowding .tooManyArguments count t)
  refine (h _ _ (endsExpression_cons hc (.inl rfl))).andReads fun _ => ?_
  simp only [Input.take_cons_ne (show closing.kind ≠ .symbol .comma by simp [hc])]
  refine (Input.reads_expect_cons hc).andThen fun _ => ?_
  exact Reply.reads_pure.mpr ⟨rfl, rfl⟩

/-- An argument before others, whatever number it is. -/
theorem yields_argument {comma : Token} {e : Expr} {count : Nat} {others : List Expr × Token}
    {left : Input} (h : (Phrase.expression e).Recovers faults n (t :: w) m)
    (hs : comma.kind = .symbol .comma)
    (h' : (arguments (count + 1) ⟨rest, close, m⟩).Yields others faults₁ left) :
    (arguments count ⟨t :: w ++ comma :: rest, close, n⟩).Yields (e :: others.1, others.2)
      (crowding .tooManyArguments count t ++ (faults ++ faults₁)) left := by
  rw [arguments]
  refine Reply.Yields.noting ?_ (crowding .tooManyArguments count t)
  refine (h _ _ (endsExpression_cons hs (.inr (.inl rfl)))).andThen fun _ => ?_
  simp only [Input.take_cons hs]
  exact h'.andReads fun _ => Reply.reads_pure.mpr ⟨rfl, rfl⟩

theorem recovers_firstArgument {e : Expr} (hw : (Phrase.expression e).Starts w)
    (h : (Phrase.expression e).Recovers faults n w m) :
    (Phrase.arguments [e]).Recovers faults n w m := by
  obtain ⟨t, w', rfl, -⟩ := hw
  exact ⟨fun _ _ _ hc => yields_lastArgument h hc, fun _ _ _ _ _ _ hs ho => yields_argument h hs ho⟩

theorem recovers_nextArgument {comma : Token} {e : Expr} {es : List Expr}
    (h : (Phrase.arguments es).Recovers faults n w m) (hs : comma.kind = .symbol .comma)
    (h' : (Phrase.expression e).Recovers faults₁ m (t :: w₁) k) :
    (Phrase.arguments (es ++ [e])).Recovers
      (faults ++ (crowding .tooManyArguments es.length t ++ faults₁)) n (w ++ comma :: t :: w₁)
      k := by
  constructor
  · intro rest close closing hc
    rw [List.append_assoc]
    exact h.2 _ _ _ _ _ _ hs (yields_lastArgument h' hc)
  · intro rest close comma' others more left hs' ho
    rw [List.length_append] at ho
    rw [List.append_assoc, List.append_assoc, List.append_assoc, List.append_assoc]
    exact h.2 _ _ _ _ _ _ hs (yields_argument h' hs' ho)

theorem recovers_given {e : Expr} (hw : (Phrase.expression e).Starts w)
    (h : (Phrase.expression e).Recovers faults n w m) :
    (Phrase.optional (some e)).Recovers faults n w m := by
  intro rest close symbol cause closing hs hc
  obtain ⟨t, w', rfl, ht⟩ := hw
  have ends : EndsExpression (closing :: rest) := by
    rcases hs with rfl | rfl
    · exact endsExpression_cons hc (.inr (.inr rfl))
    · exact endsExpression_cons hc (.inl rfl)
  have hr := h (closing :: rest) close ends
  unfold clause
  simp only [List.cons_append] at hr ⊢
  simp only [Input.take_cons_ne (not_closes_of_startsExpression ht hs)]
  refine hr.andReads fun _ => ?_
  refine (Input.reads_expect_cons hc).andThen fun _ => ?_
  exact Reply.reads_pure.mpr ⟨rfl, rfl⟩

/-! ### Statements -/

theorem recovers_omitted : (Phrase.optional none).Recovers [] n [] n := by
  intro rest close symbol cause closing _ hc
  unfold clause
  simp only [List.nil_append, Input.take_cons hc]
  exact Reply.reads_pure.mpr ⟨rfl, rfl⟩

theorem recovers_bareVariable {keyword : Token} (hk : keyword.kind = .keyword .varWord)
    (hn : name.kind = .identifier) (hc : closing.kind = .symbol .semicolon) :
    (Phrase.varDeclaration (.varDecl name none)).Recovers [] n [keyword, name, closing] n := by
  refine fun rest close => ⟨keyword, _, rfl, hk, ?_⟩
  show (varDeclaration ⟨name :: closing :: rest, close, n⟩).Reads _ _
  refine (Input.reads_expect_cons hn).andThen fun _ => ?_
  simp only [Input.take_cons_ne (show closing.kind ≠ .symbol .equal by rw [hc]; exact nofun)]
  refine (Input.reads_expect_cons hc).andThen fun _ => ?_
  exact Reply.reads_pure.mpr ⟨rfl, rfl⟩

theorem recovers_initializedVariable {keyword : Token} {value : Expr}
    (hk : keyword.kind = .keyword .varWord) (hn : name.kind = .identifier)
    (he : equals.kind = .symbol .equal) (h : (Phrase.expression value).Recovers faults n w m)
    (hc : closing.kind = .symbol .semicolon) :
    (Phrase.varDeclaration (.varDecl name (some value))).Recovers faults n
      (keyword :: name :: equals :: (w ++ [closing])) m := by
  refine fun rest close => ⟨keyword, _, rfl, hk, ?_⟩
  rw [List.cons_append, List.cons_append, List.append_assoc]
  refine (Input.reads_expect_cons hn).andYields fun _ => ?_
  simp only [Input.take_cons he]
  refine (h _ _ (endsExpression_cons hc (.inr (.inr rfl)))).andReads fun _ => ?_
  refine (Input.reads_expect_cons hc).andThen fun _ => ?_
  exact Reply.reads_pure.mpr ⟨rfl, rfl⟩

theorem recovers_expressionEnd {value : Expr} (h : (Phrase.expression value).Recovers faults n w m)
    (hc : closing.kind = .symbol .semicolon) :
    (Phrase.expressionStatement (.expression value)).Recovers faults n (w ++ [closing]) m := by
  intro rest close
  rw [List.append_assoc]
  refine (h _ _ (endsExpression_cons hc (.inr (.inr rfl)))).andReads fun _ => ?_
  refine (Input.reads_expect_cons hc).andThen fun _ => ?_
  exact Reply.reads_pure.mpr ⟨rfl, rfl⟩

theorem recovers_noInitializer (hc : closing.kind = .symbol .semicolon) :
    (Phrase.initializer none).Recovers [] n [closing] n := by
  intro rest close
  unfold forInitializer
  simp only [List.cons_append, List.nil_append, Input.take_cons hc]
  exact Reply.reads_pure.mpr ⟨rfl, rfl⟩

theorem recovers_variableInitializer {tree : Stmt}
    (h : (Phrase.varDeclaration tree).Recovers faults n w m) :
    (Phrase.initializer (some tree)).Recovers faults n w m := by
  intro rest close
  obtain ⟨t, w', rfl, ht, hr⟩ := h rest close
  unfold forInitializer
  simp only [List.cons_append, Input.take_cons ht,
    Input.take_cons_ne (show t.kind ≠ .symbol .semicolon by rw [ht]; exact nofun)]
  exact hr.andReads fun _ => Reply.reads_pure.mpr ⟨rfl, rfl⟩

theorem recovers_expressionInitializer {tree : Stmt}
    (hw : (Phrase.expressionStatement tree).Starts w)
    (h : (Phrase.expressionStatement tree).Recovers faults n w m) :
    (Phrase.initializer (some tree)).Recovers faults n w m := by
  intro rest close
  have hr := h rest close
  obtain ⟨t, w', rfl, ht⟩ := hw
  have hv : t.kind ≠ .keyword .varWord := by
    intro hk
    rw [hk] at ht
    cases ht
  unfold forInitializer
  simp only [List.cons_append, Input.take_cons_ne hv,
    Input.take_cons_ne (not_closes_of_startsExpression ht (.inl rfl))]
  exact hr.andReads fun _ => Reply.reads_pure.mpr ⟨rfl, rfl⟩

theorem recovers_evaluation {tree : Stmt} (hw : (Phrase.expressionStatement tree).Starts w)
    (h : (Phrase.expressionStatement tree).Recovers faults n w m) :
    (Phrase.statement false tree).Recovers faults n w m := by
  intro rest close _
  have hr := h rest close
  obtain ⟨t, w', rfl, ht⟩ := hw
  rw [statement]
  simp only [List.cons_append, Input.next?]
  split
  case h_7 => exact hr
  all_goals
    next hk =>
      rw [hk] at ht
      cases ht

theorem recovers_print {keyword : Token} {value : Expr} (hk : keyword.kind = .keyword .printWord)
    (h : (Phrase.expression value).Recovers faults n w m) (hc : closing.kind = .symbol .semicolon) :
    (Phrase.statement false (.print value)).Recovers faults n (keyword :: (w ++ [closing])) m := by
  intro rest close _
  rw [List.cons_append, List.append_assoc, statement]
  simp only [Input.next?, hk]
  refine Reply.Yields.widen ?_
  refine (h _ _ (endsExpression_cons hc (.inr (.inr rfl)))).andReads fun _ => ?_
  refine (Input.reads_expect_cons hc).andThen fun _ => ?_
  exact Reply.reads_pure.mpr ⟨rfl, rfl⟩

theorem recovers_returnWith {keyword : Token} {value : Option Expr}
    (hk : keyword.kind = .keyword .returnWord) (h : (Phrase.optional value).Recovers faults n w m)
    (hc : closing.kind = .symbol .semicolon) :
    (Phrase.statement false (.returnWith keyword value)).Recovers faults n
      (keyword :: (w ++ [closing])) m := by
  intro rest close _
  rw [List.cons_append, List.append_assoc, statement]
  simp only [Input.next?, hk]
  refine Reply.Yields.widen ?_
  refine (h rest close .semicolon .returnEnd closing (.inl rfl) hc).andReads fun _ => ?_
  exact Reply.reads_pure.mpr ⟨rfl, rfl⟩

theorem recovers_block {body : List Stmt} (ho : opening.kind = .symbol .leftBrace)
    (h : (Phrase.declarations body).Recovers faults n w m)
    (hc : closing.kind = .symbol .rightBrace) :
    (Phrase.statement false (.block body)).Recovers faults n (opening :: (w ++ [closing])) m := by
  intro rest close _
  rw [List.cons_append, List.append_assoc, statement]
  simp only [Input.next?, ho]
  refine (h.1 rest close closing hc).andReads fun _ => ?_
  exact Reply.reads_pure.mpr ⟨rfl, rfl⟩

theorem yields_condition {test : Expr} {openCause closeCause : ParseCause}
    (ho : opening.kind = .symbol .leftParen) (h : (Phrase.expression test).Recovers faults n w m)
    (hc : closing.kind = .symbol .rightParen) :
    (condition openCause closeCause ⟨opening :: (w ++ closing :: rest), close, n⟩).Yields test
      faults ⟨rest, close, m⟩ := by
  refine (Input.reads_expect_cons ho).andYields fun _ => ?_
  refine (h _ _ (endsExpression_cons hc (.inl rfl))).andReads fun _ => ?_
  refine (Input.reads_expect_cons hc).andThen fun _ => ?_
  exact Reply.reads_pure.mpr ⟨rfl, rfl⟩

theorem recovers_whileLoop {keyword : Token} {test : Expr} {endsOpen : Bool} {body : Stmt}
    (hk : keyword.kind = .keyword .whileWord) (ho : opening.kind = .symbol .leftParen)
    (h : (Phrase.expression test).Recovers faults n w m) (hc : closing.kind = .symbol .rightParen)
    (h' : (Phrase.statement endsOpen body).Recovers faults₁ m w₁ k) :
    (Phrase.statement endsOpen (.whileLoop test body)).Recovers (faults ++ faults₁) n
      (keyword :: opening :: (w ++ closing :: w₁)) k := by
  intro rest close he
  rw [List.cons_append, List.cons_append, List.append_assoc, statement]
  simp only [Input.next?, hk]
  refine (yields_condition ho h hc).andThen fun _ => ?_
  refine (h' rest close he).andReads fun _ => ?_
  exact Reply.reads_pure.mpr ⟨rfl, rfl⟩

theorem yields_forClauses {semicolon : Token} {first : Option Stmt} {test after : Option Expr}
    {l : Nat} {w₂ : List Token} (ho : opening.kind = .symbol .leftParen)
    (hf : (Phrase.initializer first).Recovers faults n w m)
    (ht : (Phrase.optional test).Recovers faults₁ m w₁ k)
    (hs : semicolon.kind = .symbol .semicolon)
    (ha : (Phrase.optional after).Recovers faults₂ k w₂ l)
    (hc : closing.kind = .symbol .rightParen) :
    (forClauses
      ⟨opening :: (w ++ (w₁ ++ semicolon :: (w₂ ++ closing :: rest))), close, n⟩).Yields
      ⟨first, test, after⟩ (faults ++ (faults₁ ++ faults₂)) ⟨rest, close, l⟩ := by
  refine (Input.reads_expect_cons ho).andYields fun _ => ?_
  refine (hf _ _).andThen fun _ => ?_
  refine (ht _ _ .semicolon .conditionEnd semicolon (.inl rfl) hs).andThen fun _ => ?_
  refine (ha _ _ .rightParen .forClose closing (.inr rfl) hc).andReads fun _ => ?_
  exact Reply.reads_pure.mpr ⟨rfl, rfl⟩

theorem recovers_forLoop {keyword semicolon : Token} {first : Option Stmt}
    {test after : Option Expr} {endsOpen : Bool} {body : Stmt} {l i : Nat} {w₂ w₃ : List Token}
    (hk : keyword.kind = .keyword .forWord) (ho : opening.kind = .symbol .leftParen)
    (hf : (Phrase.initializer first).Recovers faults n w m)
    (ht : (Phrase.optional test).Recovers faults₁ m w₁ k)
    (hs : semicolon.kind = .symbol .semicolon)
    (ha : (Phrase.optional after).Recovers faults₂ k w₂ l)
    (hc : closing.kind = .symbol .rightParen)
    (hb : (Phrase.statement endsOpen body).Recovers faults₃ l w₃ i) :
    (Phrase.statement endsOpen (ForClauses.loop ⟨first, test, after⟩ body)).Recovers
      (faults ++ (faults₁ ++ (faults₂ ++ faults₃))) n
      (keyword :: opening :: (w ++ (w₁ ++ semicolon :: (w₂ ++ closing :: w₃)))) i := by
  intro rest close he
  have hw : keyword :: opening :: (w ++ (w₁ ++ semicolon :: (w₂ ++ closing :: w₃))) ++ rest =
      keyword :: opening :: (w ++ (w₁ ++ semicolon :: (w₂ ++ closing :: (w₃ ++ rest)))) := by
    simp
  have hn : faults ++ (faults₁ ++ (faults₂ ++ faults₃)) =
      faults ++ (faults₁ ++ faults₂) ++ faults₃ := by
    simp
  rw [hw, hn, statement]
  simp only [Input.next?, hk]
  refine (yields_forClauses ho hf ht hs ha hc).andThen fun _ => ?_
  refine (hb rest close he).andReads fun _ => ?_
  exact Reply.reads_pure.mpr ⟨rfl, rfl⟩

theorem recovers_ifThen {keyword : Token} {test : Expr} {endsOpen : Bool} {branch : Stmt}
    (hk : keyword.kind = .keyword .ifWord) (ho : opening.kind = .symbol .leftParen)
    (h : (Phrase.expression test).Recovers faults n w m) (hc : closing.kind = .symbol .rightParen)
    (h' : (Phrase.statement endsOpen branch).Recovers faults₁ m w₁ k) :
    (Phrase.statement true (.ifElse test branch none)).Recovers (faults ++ faults₁) n
      (keyword :: opening :: (w ++ closing :: w₁)) k := by
  intro rest close he
  have hn : (⟨rest, close, k⟩ : Input).take (.keyword .elseWord) = none :=
    Input.take_eq_none.mpr (he rfl)
  rw [List.cons_append, List.cons_append, List.append_assoc, statement]
  simp only [Input.next?, hk]
  refine (yields_condition ho h hc).andThen fun _ => ?_
  refine (h' rest close fun _ => he rfl).andReads fun _ => ?_
  simp only [hn]
  exact Reply.reads_pure.mpr ⟨rfl, rfl⟩

theorem recovers_ifElse {keyword elseToken : Token} {test : Expr} {elseOpen : Bool}
    {branch other : Stmt} {l : Nat} {w₂ : List Token}
    (hk : keyword.kind = .keyword .ifWord) (ho : opening.kind = .symbol .leftParen)
    (h : (Phrase.expression test).Recovers faults n w m) (hc : closing.kind = .symbol .rightParen)
    (hb : (Phrase.statement false branch).Recovers faults₁ m w₁ k)
    (he : elseToken.kind = .keyword .elseWord)
    (ha : (Phrase.statement elseOpen other).Recovers faults₂ k w₂ l) :
    (Phrase.statement elseOpen (.ifElse test branch (some other))).Recovers
      (faults ++ (faults₁ ++ faults₂)) n
      (keyword :: opening :: (w ++ closing :: (w₁ ++ elseToken :: w₂))) l := by
  intro rest close hopen
  have hw : keyword :: opening :: (w ++ closing :: (w₁ ++ elseToken :: w₂)) ++ rest =
      keyword :: opening :: (w ++ closing :: (w₁ ++ elseToken :: (w₂ ++ rest))) := by
    simp
  rw [hw, statement]
  simp only [Input.next?, hk]
  refine (yields_condition ho h hc).andThen fun _ => ?_
  refine (hb _ _ (by simp)).andThen fun _ => ?_
  simp only [Input.take_cons he]
  refine (ha rest close hopen).andReads fun _ => ?_
  exact Reply.reads_pure.mpr ⟨rfl, rfl⟩

/-! ### Declarations -/

theorem recovers_ordinary {endsOpen : Bool} {tree : Stmt}
    (hw : (Phrase.statement endsOpen tree).Starts w)
    (h : (Phrase.statement endsOpen tree).Recovers faults n w m) :
    (Phrase.declaration tree).Recovers faults n w m := by
  intro rest close he
  have hr := h rest close fun _ => he
  obtain ⟨t, w', rfl, ht⟩ := hw
  rw [declarationOrStuck]
  simp only [List.cons_append, Input.next?]
  split
  case h_4 => exact hr
  all_goals
    next hk =>
      rw [hk] at ht
      cases ht

theorem recovers_variableDeclaration {tree : Stmt}
    (h : (Phrase.varDeclaration tree).Recovers faults n w m) :
    (Phrase.declaration tree).Recovers faults n w m := by
  intro rest close _
  obtain ⟨t, w', rfl, ht, hr⟩ := h rest close
  rw [declarationOrStuck]
  simp only [List.cons_append, Input.next?, ht]
  exact hr.widen

theorem recovers_functionDeclaration {keyword : Token} {decl : FunctionDecl}
    (hk : keyword.kind = .keyword .funWord) (h : (Phrase.function decl).Recovers faults n w m) :
    (Phrase.declaration (.functionDecl decl)).Recovers faults n (keyword :: w) m := by
  intro rest close _
  rw [declarationOrStuck]
  simp only [List.cons_append, Input.next?, hk]
  refine (h .function rest close).andReads fun _ => ?_
  exact Reply.reads_pure.mpr ⟨rfl, rfl⟩

theorem recovers_baseClass {keyword : Token} {decls : List FunctionDecl}
    (hk : keyword.kind = .keyword .classWord) (hn : name.kind = .identifier)
    (ho : opening.kind = .symbol .leftBrace) (h : (Phrase.functions decls).Recovers faults n w m)
    (hc : closing.kind = .symbol .rightBrace) :
    (Phrase.declaration (.classDecl name none decls)).Recovers faults n
      (keyword :: name :: opening :: (w ++ [closing])) m := by
  intro rest close _
  have head : (classHead ⟨name :: opening :: (w ++ closing :: rest), close, n⟩).Reads (name, none)
      ⟨w ++ closing :: rest, close, n⟩ := by
    refine (Input.reads_expect_cons hn).andThen fun _ => ?_
    simp only [Input.take_cons_ne (show opening.kind ≠ .symbol .less by rw [ho]; exact nofun)]
    refine (Input.reads_expect_cons ho).andThen fun _ => ?_
    exact Reply.reads_pure.mpr ⟨rfl, rfl⟩
  have hw : keyword :: name :: opening :: (w ++ [closing]) ++ rest =
      keyword :: name :: opening :: (w ++ closing :: rest) := by
    simp
  rw [hw, declarationOrStuck]
  simp only [Input.next?, hk]
  refine head.andYields fun _ => ?_
  refine (h rest close closing hc).andReads fun _ => ?_
  exact Reply.reads_pure.mpr ⟨rfl, rfl⟩

theorem recovers_derivedClass {keyword less parent : Token} {decls : List FunctionDecl}
    (hk : keyword.kind = .keyword .classWord) (hn : name.kind = .identifier)
    (hl : less.kind = .symbol .less) (hp : parent.kind = .identifier)
    (ho : opening.kind = .symbol .leftBrace)
    (h : (Phrase.functions decls).Recovers faults (n + 1) w m)
    (hc : closing.kind = .symbol .rightBrace) :
    (Phrase.declaration (.classDecl name (some (.var n parent)) decls)).Recovers faults n
      (keyword :: name :: less :: parent :: opening :: (w ++ [closing])) m := by
  intro rest close _
  have head : (classHead
      ⟨name :: less :: parent :: opening :: (w ++ closing :: rest), close, n⟩).Reads
      (name, some (.var n parent)) ⟨w ++ closing :: rest, close, n + 1⟩ := by
    refine (Input.reads_expect_cons hn).andThen fun _ => ?_
    simp only [Input.take_cons hl]
    refine (Input.reads_expect_cons hp).andThen fun _ => ?_
    refine (Reply.reads_tagged.mpr ⟨rfl, rfl⟩).andThen fun _ => ?_
    refine (Input.reads_expect_cons ho).andThen fun _ => ?_
    exact Reply.reads_pure.mpr ⟨rfl, rfl⟩
  have hw : keyword :: name :: less :: parent :: opening :: (w ++ [closing]) ++ rest =
      keyword :: name :: less :: parent :: opening :: (w ++ closing :: rest) := by
    simp
  rw [hw, declarationOrStuck]
  simp only [Input.next?, hk]
  refine head.andYields fun _ => ?_
  refine (h rest close closing hc).andReads fun _ => ?_
  exact Reply.reads_pure.mpr ⟨rfl, rfl⟩

/-- Of a first parameter and others, it is one beyond the bound if `count` before it are as many as
the bound. -/
theorem crowding_cons (count : Nat) (name : Token) (names : List Token) :
    ((name :: names).drop (maxArguments - count)).map (Fault.parse .tooManyParameters) =
      crowding .tooManyParameters count name ++
        (names.drop (maxArguments - (count + 1))).map (.parse .tooManyParameters) := by
  unfold crowding
  split
  · next full =>
    rw [Nat.sub_eq_zero_of_le full, Nat.sub_eq_zero_of_le (Nat.le_succ_of_le full)]
    rfl
  · next room =>
    obtain ⟨left, hl⟩ : ∃ left, maxArguments - count = left + 1 :=
      ⟨maxArguments - count - 1, by omega⟩
    rw [Nat.sub_succ, hl]
    rfl

/-- Parameters to the end of their list, the first one being number `count`. -/
theorem yields_parameters {names : List Token} {count : Nat} (h : Parameters w names)
    (hc : closing.kind = .symbol .rightParen) :
    (parameters count ⟨w ++ closing :: rest, close, n⟩).Yields names
      ((names.drop (maxArguments - count)).map (.parse .tooManyParameters)) ⟨rest, close, n⟩ := by
  induction h generalizing count with
  | @last name named =>
    rw [List.cons_append, List.nil_append, parameters, crowding_cons, List.drop_nil]
    refine Reply.Yields.noting ?_ (crowding .tooManyParameters count name)
    refine (Input.reads_expect_cons named).andYields fun _ => ?_
    simp only [Input.take_cons_ne (show closing.kind ≠ .symbol .comma by rw [hc]; exact nofun)]
    exact (Input.reads_expect_cons hc).andThen fun _ => Reply.reads_pure.mpr ⟨rfl, rfl⟩
  | @more name comma w names named separated _ ih =>
    rw [List.cons_append, List.cons_append, parameters, crowding_cons]
    refine Reply.Yields.noting ?_ (crowding .tooManyParameters count name)
    refine (Input.reads_expect_cons named).andYields fun _ => ?_
    simp only [Input.take_cons separated]
    exact ih.andReads fun _ => Reply.reads_pure.mpr ⟨rfl, rfl⟩

theorem Parameters.starts {names : List Token} (h : Parameters w names) :
    ∃ t w', w = t :: w' ∧ t.kind = .identifier := by
  cases h with
  | last named => exact ⟨_, _, rfl, named⟩
  | more named => exact ⟨_, _, rfl, named⟩

theorem yields_signature {kind : Callable} {brace : Token} {names : List Token}
    (hn : name.kind = .identifier) (ho : opening.kind = .symbol .leftParen)
    (h : w = [] ∧ names = [] ∨ Parameters w names) (hc : closing.kind = .symbol .rightParen)
    (hb : brace.kind = .symbol .leftBrace) :
    (signature kind ⟨name :: opening :: (w ++ closing :: brace :: rest), close, n⟩).Yields
      (name, names) ((names.drop maxArguments).map (.parse .tooManyParameters))
      ⟨rest, close, n⟩ := by
  rcases h with ⟨rfl, rfl⟩ | listed
  · rw [List.nil_append]
    refine (Input.reads_expect_cons hn).andThen fun _ => ?_
    refine (Input.reads_expect_cons ho).andThen fun _ => ?_
    simp only [Input.take_cons hc]
    refine (Reply.reads_pure.mpr ⟨rfl, rfl⟩).andThen fun _ => ?_
    refine (Input.reads_expect_cons hb).andThen fun _ => ?_
    exact Reply.reads_pure.mpr ⟨rfl, rfl⟩
  · have hr : (parameters 0 ⟨w ++ closing :: brace :: rest, close, n⟩).Yields names
        ((names.drop maxArguments).map (.parse .tooManyParameters)) ⟨brace :: rest, close, n⟩ :=
      yields_parameters listed hc
    obtain ⟨t, w', rfl, ht⟩ := listed.starts
    rw [List.cons_append] at hr ⊢
    refine (Input.reads_expect_cons hn).andYields fun _ => ?_
    refine (Input.reads_expect_cons ho).andYields fun _ => ?_
    simp only [
      Input.take_cons_ne (show t.kind ≠ .symbol .rightParen by rw [ht]; exact nofun)]
    refine hr.andReads fun _ => ?_
    refine (Input.reads_expect_cons hb).andThen fun _ => ?_
    exact Reply.reads_pure.mpr ⟨rfl, rfl⟩

theorem recovers_function {names : List Token} {body : List Stmt} {brace endBrace : Token}
    (hn : name.kind = .identifier) (ho : opening.kind = .symbol .leftParen)
    (h : w = [] ∧ names = [] ∨ Parameters w names) (hc : closing.kind = .symbol .rightParen)
    (hb : brace.kind = .symbol .leftBrace) (h' : (Phrase.declarations body).Recovers faults n w₁ m)
    (he : endBrace.kind = .symbol .rightBrace) :
    (Phrase.function ⟨name, names, body⟩).Recovers
      ((names.drop maxArguments).map (.parse .tooManyParameters) ++ faults) n
      (name :: opening :: (w ++ closing :: brace :: (w₁ ++ [endBrace]))) m := by
  intro kind rest close
  have hw : name :: opening :: (w ++ closing :: brace :: (w₁ ++ [endBrace])) ++ rest =
      name :: opening :: (w ++ closing :: brace :: (w₁ ++ endBrace :: rest)) := by
    simp
  rw [hw, function]
  refine (yields_signature hn ho h hc hb).andThen fun _ => ?_
  refine (h'.1 rest close endBrace he).andReads fun _ => ?_
  exact Reply.reads_pure.mpr ⟨rfl, rfl⟩

theorem recovers_noFunctions : (Phrase.functions []).Recovers [] n [] n := by
  intro rest close closing hc
  rw [List.nil_append, methods, Input.take_cons hc]
  exact Reply.reads_pure.mpr ⟨rfl, rfl⟩

theorem recovers_moreFunctions {decl : FunctionDecl} {decls : List FunctionDecl}
    (hw : (Phrase.function decl).Starts w) (h : (Phrase.function decl).Recovers faults n w m)
    (h' : (Phrase.functions decls).Recovers faults₁ m w₁ k) :
    (Phrase.functions (decl :: decls)).Recovers (faults ++ faults₁) n (w ++ w₁) k := by
  intro rest close closing hc
  have hr := h .method (w₁ ++ closing :: rest) close
  obtain ⟨t, w', rfl, ht⟩ := hw
  rw [List.append_assoc, List.cons_append, methods,
    Input.take_cons_ne (show t.kind ≠ .symbol .rightBrace by simp [ht])]
  simp only
  rw [if_neg (by simp [Input.size])]
  refine hr.andThen fun _ => ?_
  refine (h' rest close closing hc).andReads fun _ => ?_
  exact Reply.reads_pure.mpr ⟨rfl, rfl⟩

theorem declaration_of_yields {s left : Input} {tree : Stmt}
    (h : (declarationOrStuck s).Yields tree faults left) (pos : s.size ≠ 0) :
    ∃ shorter, declaration s pos = ⟨some tree, faults, left, shorter⟩ := by
  obtain ⟨shorter, he⟩ := h
  refine ⟨shorter, ?_⟩
  rw [declaration]
  show (declarationOrStuck s).recovered pos = ⟨some tree, faults, left, shorter⟩
  rw [he]
  rfl

theorem recovers_noDeclarations : (Phrase.declarations []).Recovers [] n [] n := by
  constructor
  · intro rest close closing hc
    rw [List.nil_append, block, Input.take_cons hc]
    exact Reply.reads_pure.mpr ⟨rfl, rfl⟩
  · intro close
    rw [program, dif_pos (by rfl)]

/-- Of a program whose first declaration is read, or is dropped with its fault, the rest is read as
a program. -/
theorem program_cons {s left : Input} {first : Option Stmt} {pos : s.size ≠ 0}
    {shorter : left.size < s.size}
    (h : declaration s pos = ⟨first, faults, left, shorter⟩) :
    program s = ⟨first.toList ++ (program left).statements, faults ++ (program left).faults,
      (program left).nextId⟩ := by
  rw [program, dif_neg pos, h]

theorem noElse_of_starts {trees : List Stmt} (h : (Phrase.declarations trees).Starts w) :
    ∀ t ∈ w.head?, t.kind ≠ .keyword .elseWord := by
  intro t ht hk
  have := h t ht
  rw [hk] at this
  cases this

theorem starts_append {trees : List Stmt}
    (h : ∃ t w', w = t :: w' ∧ startsDeclaration t.kind = true) :
    (Phrase.declarations trees).Starts (w ++ w₁) := by
  obtain ⟨t, w', rfl, ht⟩ := h
  rintro _ ⟨⟩
  exact ht

/-- A first declaration of others, be it a statement or dropped with its fault. -/
theorem recovers_cons {first : Option Stmt} {trees : List Stmt}
    (hw : ∃ t w', w = t :: w' ∧ t.kind ≠ .symbol .rightBrace)
    (h : ∀ rest close, (∀ t ∈ rest.head?, t.kind ≠ .keyword .elseWord) → ∀ pos, ∃ shorter,
      declaration ⟨w ++ rest, close, n⟩ pos = ⟨first, faults, ⟨rest, close, m⟩, shorter⟩)
    (hw' : (Phrase.declarations trees).Starts w₁)
    (h' : (Phrase.declarations trees).Recovers faults₁ m w₁ k) :
    (Phrase.declarations (first.toList ++ trees)).Recovers (faults ++ faults₁) n (w ++ w₁) k := by
  obtain ⟨t, w', rfl, ht⟩ := hw
  have noElse := noElse_of_starts hw'
  constructor
  · intro rest close closing hc
    have pos : (⟨t :: (w' ++ (w₁ ++ closing :: rest)), close, n⟩ : Input).size ≠ 0 :=
      Nat.succ_ne_zero _
    have hr := h (w₁ ++ closing :: rest) close <| by
      cases w₁ with
      | nil =>
        rintro _ ⟨⟩ hk
        rw [hc] at hk
        cases hk
      | cons t' w₁ => exact noElse
    rw [List.cons_append] at hr
    obtain ⟨shorter, hd⟩ := hr pos
    rw [List.append_assoc, List.cons_append, block, Input.take_cons_ne ht]
    simp only
    rw [dif_neg pos, hd]
    refine Reply.Yields.noting ?_ faults
    refine (h'.1 rest close closing hc).andReads fun _ => ?_
    exact Reply.reads_pure.mpr ⟨rfl, rfl⟩
  · intro close
    obtain ⟨shorter, hd⟩ := h w₁ close noElse (Nat.succ_ne_zero _)
    rw [program_cons hd, h'.2 close]

theorem recovers_moreDeclarations {tree : Stmt} {trees : List Stmt}
    (hw : (Phrase.declaration tree).Starts w) (h : (Phrase.declaration tree).Recovers faults n w m)
    (hw' : (Phrase.declarations trees).Starts w₁)
    (h' : (Phrase.declarations trees).Recovers faults₁ m w₁ k) :
    (Phrase.declarations (tree :: trees)).Recovers (faults ++ faults₁) n (w ++ w₁) k := by
  obtain ⟨t, w', rfl, ht⟩ := hw
  simp only [startsDeclaration, Bool.and_eq_true, decide_eq_true_eq] at ht
  exact recovers_cons ⟨t, w', rfl, ht.2⟩
    (fun rest close he pos => declaration_of_yields (h rest close he) pos) hw' h'

end

/-- What is derivable in the relaxed grammar in the style `nearest` is read as its tree, with its
faults noted. -/
theorem Relaxed.recovers {n m : Nat} {w : List Token} {phrase : Phrase} {faults : List Fault}
    (h : Relaxed .nearest n w phrase faults m) : phrase.Recovers faults n w m := by
  induction h with
  | literal denotes => exact fun _ _ => reads_primary_literal denotes
  | this keyed => exact fun _ _ => reads_primary_this keyed
  | «variable» named => exact fun _ _ => reads_primary_variable named
  | super keyed dotted named => exact fun _ _ => reads_primary_super keyed dotted named
  | grouping opened _ closed ih => exact recovers_grouping opened ih closed
  | simple base ih => exact recovers_simple base.starts ih
  | emptyCall _ opened closed ih => exact recovers_emptyCall ih opened closed
  | call _ opened listed closed ih ih' => exact recovers_call ih opened listed.starts ih' closed
  | property _ dotted named ih => exact recovers_property ih dotted named
  | unaryOperation operates _ ih => exact recovers_unaryOperation operates ih
  | access _ ih => exact recovers_access ih
  | tightest _ ih =>
    intro rest close hs
    rw [tiers]
    exact ih rest close hs
  | tighter _ ih => exact recovers_tighter ih
  | operation _ operates _ ih ih' => exact recovers_operation ih operates ih'
  | plain _ ih => exact recovers_plain ih
  | assignment _ assigned _ ih ih' => exact recovers_assignment ih assigned ih'
  | propertyAssignment _ assigned _ ih ih' => exact recovers_propertyAssignment ih assigned ih'
  | invalidAssignment _ invalid assigned _ ih ih' =>
    exact recovers_invalidAssignment ih invalid assigned ih'
  | firstArgument argument ih => exact recovers_firstArgument argument.starts ih
  | nextArgument _ separated _ ih ih' => exact recovers_nextArgument ih separated ih'
  | omitted => exact recovers_omitted
  | given present ih => exact recovers_given present.starts ih
  | bareVariable keyed named closed => exact recovers_bareVariable keyed named closed
  | initializedVariable keyed named assigned _ closed ih =>
    exact recovers_initializedVariable keyed named assigned ih closed
  | expressionEnd _ closed ih => exact recovers_expressionEnd ih closed
  | noInitializer closed => exact recovers_noInitializer closed
  | variableInitializer _ ih => exact recovers_variableInitializer ih
  | expressionInitializer evaluated ih => exact recovers_expressionInitializer evaluated.starts ih
  | evaluation evaluated ih => exact recovers_evaluation evaluated.starts ih
  | print keyed _ closed ih => exact recovers_print keyed ih closed
  | returnWith keyed _ closed ih => exact recovers_returnWith keyed ih closed
  | block opened _ closed ih => exact recovers_block opened ih closed
  | whileLoop keyed opened _ closed _ ih ih' => exact recovers_whileLoop keyed opened ih closed ih'
  | forLoop keyed opened _ _ separated _ closed _ ih ih₁ ih₂ ih₃ =>
    exact recovers_forLoop keyed opened ih ih₁ separated ih₂ closed ih₃
  | ifThen keyed opened _ closed _ ih ih' => exact recovers_ifThen keyed opened ih closed ih'
  | ifElse keyed opened _ closed _ attached alternated _ ih ih₁ ih₂ =>
    obtain rfl := attached rfl
    exact recovers_ifElse keyed opened ih closed ih₁ alternated ih₂
  | ordinary executed ih => exact recovers_ordinary executed.starts ih
  | variableDeclaration _ ih => exact recovers_variableDeclaration ih
  | functionDeclaration keyed _ ih => exact recovers_functionDeclaration keyed ih
  | baseClass keyed named opened _ closed ih =>
    exact recovers_baseClass keyed named opened ih closed
  | derivedClass keyed named inherits parented opened _ closed ih =>
    exact recovers_derivedClass keyed named inherits parented opened ih closed
  | noDeclarations => exact recovers_noDeclarations
  | moreDeclarations first rest ih ih' =>
    exact recovers_moreDeclarations first.starts ih rest.starts ih'
  | function named opened listed closed entered _ left ih =>
    exact recovers_function named opened listed closed entered ih left
  | noFunctions => exact recovers_noFunctions
  | moreFunctions first _ ih ih' => exact recovers_moreFunctions first.starts ih ih'

/-- What is derivable in the style `nearest` is read as its tree, with no fault noted. -/
theorem Derives.recovers {n m : Nat} {w : List Token} {phrase : Phrase}
    (h : Derives .nearest n w phrase m) (single : phrase.Single) : phrase.Recovers [] n w m :=
  (h.relaxed single).recovers

/-- A derivable program is read to its end without a fault. -/
theorem program_of_derives (close : Token) {n m : Nat} {w : List Token} {trees : List Stmt}
    (h : Program .nearest n w trees m) : program ⟨w, close, n⟩ = ⟨trees, [], m⟩ :=
  (Derives.recovers h trivial).2 close

end Lox.Grammar
