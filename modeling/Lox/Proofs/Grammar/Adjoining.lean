import Lox.Proofs.Grammar.Relaxed

/-!
# Expressions one after the other

Two expressions with nothing in between are one expression where the second one starts with a
parenthesis, which is then taken to hold arguments, or with a minus sign, which is then taken to
subtract. If the second one is an assignment its target has become longer and may be invalid now, so
there is one fault more at most.
-/
namespace Lox.Grammar

variable {style : DanglingElse} {n m k : Nat} {x y : List Token} {faults faults₁ : List Fault}
  {e e' : Expr}

/-- Tokens that start with one of this kind, if with any. -/
def StartsWith (kind : TokenKind) (w : List Token) : Prop := ∀ t ∈ w.head?, t.kind = kind

theorem StartsWith.of_append {kind : TokenKind} {z : List Token} (h : StartsWith kind (y ++ z)) :
    StartsWith kind y := by
  intro t ht
  cases y with
  | nil => cases ht
  | cons u y => exact h t ht

/-- A call goes on with accesses to what stands in parentheses. -/
theorem Relaxed.adjoin_call (h : Relaxed style n x (.call e) faults m)
    (h' : Relaxed style m y (.call e') faults₁ k) (paren : StartsWith (.symbol .leftParen) y) :
    ∃ tree, Relaxed style n (x ++ y) (.call tree) (faults ++ faults₁) k := by
  generalize hp : Phrase.call e' = phrase at h'
  induction h' generalizing e' with
  | simple base =>
    cases base with
    | literal denotes =>
      rw [paren _ rfl] at denotes
      cases denotes
    | this keyed | «variable» keyed | super keyed =>
      rw [paren _ rfl] at keyed
      cases keyed
    | grouping opened content closed => exact ⟨_, .call h opened (.firstArgument content) closed⟩
  | emptyCall _ opened closed ih =>
    obtain ⟨tree, joined⟩ := ih h paren.of_append rfl
    rw [← List.append_assoc]
    exact ⟨_, .emptyCall joined opened closed⟩
  | call _ opened listed closed ih =>
    obtain ⟨tree, joined⟩ := ih h paren.of_append rfl
    rw [← List.append_assoc, ← List.append_assoc]
    exact ⟨_, .call joined opened listed closed⟩
  | property _ dotted named ih =>
    obtain ⟨tree, joined⟩ := ih h paren.of_append rfl
    rw [← List.append_assoc]
    exact ⟨_, .property joined dotted named⟩
  | _ => cases hp

theorem Relaxed.adjoin_unary (h : Relaxed style n x (.unary e) faults m)
    (h' : Relaxed style m y (.unary e') faults₁ k) (paren : StartsWith (.symbol .leftParen) y) :
    ∃ tree, Relaxed style n (x ++ y) (.unary tree) (faults ++ faults₁) k := by
  generalize hp : Phrase.unary e = phrase at h
  induction h generalizing e with
  | unaryOperation operates _ ih =>
    obtain ⟨tree, joined⟩ := ih h' rfl
    exact ⟨_, .unaryOperation operates joined⟩
  | access base =>
    cases h' with
    | unaryOperation operates =>
      rw [paren _ rfl] at operates
      cases operates
    | access base' =>
      obtain ⟨tree, joined⟩ := base.adjoin_call base' paren
      exact ⟨_, .access joined⟩
  | _ => cases hp

/-- Whatever two expressions of these tiers stand one after the other, if the second one starts with
a token of this kind, they are one. -/
def Adjoins (style : DanglingElse) (kind : TokenKind) (ts : List Tier) : Prop :=
  ∀ ⦃n m k : Nat⦄ ⦃x y : List Token⦄ ⦃faults faults₁ : List Fault⦄ ⦃e e' : Expr⦄,
    Relaxed style n x (.tier ts e) faults m → Relaxed style m y (.tier ts e') faults₁ k →
      StartsWith kind y →
        ∃ tree, Relaxed style n (x ++ y) (.tier ts tree) (faults ++ faults₁) k

/-- What holds of the operands holds of the operations: the last operand of the one and the first of
the other are one operand. -/
theorem Adjoins.cons {kind : TokenKind} {ts : List Tier} (h : Adjoins style kind ts) (t : Tier) :
    Adjoins style kind (t :: ts) := by
  intro n m k x y faults faults₁ e e' hx hy starts
  generalize hp : Phrase.tier (t :: ts) e' = phrase at hy
  induction hy generalizing e' with
  | tighter base =>
    cases hp
    cases hx with
    | tighter base' =>
      obtain ⟨tree, joined⟩ := h base' base starts
      exact ⟨_, .tighter joined⟩
    | operation before operates after =>
      obtain ⟨tree, joined⟩ := h after base starts
      rw [List.append_assoc, List.append_assoc]
      exact ⟨_, .operation before operates joined⟩
  | operation _ operates after ih =>
    cases hp
    obtain ⟨tree, joined⟩ := ih hx starts.of_append rfl
    rw [← List.append_assoc, ← List.append_assoc]
    exact ⟨_, .operation joined operates after⟩
  | _ => cases hp

theorem adjoins_paren (ts : List Tier) : Adjoins style (.symbol .leftParen) ts := by
  induction ts with
  | nil =>
    intro n m k x y faults faults₁ e e' hx hy starts
    cases hx with
    | tightest base =>
      cases hy with
      | tightest base' =>
        obtain ⟨tree, joined⟩ := base.adjoin_unary base' starts
        exact ⟨_, .tightest joined⟩
  | cons t ts ih => exact ih.cons t

/-- Without its minus sign an expression of a tier is still one. -/
theorem Relaxed.unnegated {ts : List Tier} (h : Relaxed style n y (.tier ts e) faults m)
    (starts : StartsWith (.symbol .minus) y) :
    ∃ operator z tree, y = operator :: z ∧ operator.kind = .symbol .minus ∧
      Relaxed style n z (.tier ts tree) faults m := by
  generalize hp : Phrase.tier ts e = phrase at h
  induction h generalizing ts e with
  | tightest base =>
    cases hp
    cases base with
    | unaryOperation operates operand =>
      exact ⟨_, _, _, rfl, starts _ rfl, .tightest operand⟩
    | access base =>
      obtain ⟨t, _, rfl, primary⟩ := base.starts
      rw [starts t rfl] at primary
      cases primary
  | tighter _ ih =>
    cases hp
    obtain ⟨operator, z, tree, rfl, minus, rest⟩ := ih starts rfl
    exact ⟨operator, z, _, rfl, minus, .tighter rest⟩
  | operation _ operates after ih =>
    cases hp
    obtain ⟨operator, z, tree, rfl, minus, rest⟩ := ih starts.of_append rfl
    exact ⟨operator, _, _, List.cons_append, minus, .operation rest operates after⟩
  | _ => cases hp

theorem adjoins_minus (ts : List Tier) : Adjoins style (.symbol .minus) (.sum :: ts) := by
  intro n m k x y faults faults₁ e e' hx hy starts
  generalize hp : Phrase.tier (.sum :: ts) e' = phrase at hy
  induction hy generalizing e' with
  | tighter base =>
    cases hp
    obtain ⟨operator, z, tree, rfl, minus, rest⟩ := base.unnegated starts
    exact ⟨_, .operation hx (by rw [minus]; rfl) rest⟩
  | operation _ operates after ih =>
    cases hp
    obtain ⟨tree, joined⟩ := ih hx starts.of_append rfl
    rw [← List.append_assoc, ← List.append_assoc]
    exact ⟨_, .operation joined operates after⟩
  | _ => cases hp

/-- Symbols that an expression may start with and that one may go on with. -/
def adjoining (kind : TokenKind) : Bool := kind = .symbol .leftParen || kind = .symbol .minus

theorem adjoins_all {kind : TokenKind} (h : adjoining kind = true) :
    Adjoins style kind Tier.all := by
  simp only [adjoining, Bool.or_eq_true, decide_eq_true_eq] at h
  rcases h with rfl | rfl
  · exact adjoins_paren _
  · exact ((((adjoins_minus [.product]).cons .comparison).cons .equality).cons .conjunction).cons
      .disjunction

/-- What follows an equals sign is the value of some assignment, with one fault more at most. -/
theorem Relaxed.assigned {equals : Token} (h : Relaxed style n x (.tier Tier.all e) faults m)
    (assigned : equals.kind = .symbol .equal)
    (h' : Relaxed style m y (.expression e') faults₁ k) :
    ∃ tree faults' k', Relaxed style n (x ++ equals :: y) (.expression tree) faults' k' ∧
      faults'.length ≤ faults.length + faults₁.length + 1 := by
  cases hs : assignable e with
  | false => exact ⟨_, _, _, .invalidAssignment h hs assigned h', by simp; omega⟩
  | true =>
    cases e with
    | var => exact ⟨_, _, _, .assignment h assigned h', by simp⟩
    | get => exact ⟨_, _, _, .propertyAssignment h assigned h', by simp⟩
    | _ => cases hs

/-- An expression goes on with one that starts with an adjoining symbol. The numbers in the second
one depend on where the first one ends. -/
theorem Relaxed.adjoin {kind : TokenKind} (h : Relaxed style n x (.expression e) faults m)
    (h' : ∀ n, ∃ e m, Relaxed style n y (.expression e) faults₁ m) (adjoins : adjoining kind = true)
    (starts : StartsWith kind y) :
    ∃ tree faults' k, Relaxed style n (x ++ y) (.expression tree) faults' k ∧
      faults'.length ≤ faults.length + faults₁.length + 1 := by
  generalize hp : Phrase.expression e = phrase at h
  induction h generalizing e with
  | @plain _ _ _ m _ base =>
    obtain ⟨e', k, h'⟩ := h' m
    cases h' with
    | plain base' =>
      obtain ⟨tree, joined⟩ := adjoins_all adjoins base base' starts
      exact ⟨_, _, _, .plain joined, by simp⟩
    | assignment target equal valued | propertyAssignment target equal valued
    | invalidAssignment target _ equal valued =>
      obtain ⟨tree, joined⟩ := adjoins_all adjoins base target starts.of_append
      obtain ⟨tree', faults', k', assignment, most⟩ := joined.assigned equal valued
      rw [← List.append_assoc]
      exact ⟨_, _, _, assignment, by simp at most ⊢; omega⟩
  | assignment target equal _ _ ih =>
    obtain ⟨value, faults', k, joined, most⟩ := ih rfl
    rw [List.append_assoc]
    exact ⟨_, _, _, .assignment target equal joined, by simp; omega⟩
  | propertyAssignment target equal _ _ ih =>
    obtain ⟨value, faults', k, joined, most⟩ := ih rfl
    rw [List.append_assoc]
    exact ⟨_, _, _, .propertyAssignment target equal joined, by simp; omega⟩
  | invalidAssignment target invalid equal _ _ ih =>
    obtain ⟨value, faults', k, joined, most⟩ := ih rfl
    rw [List.append_assoc]
    exact ⟨_, _, _, .invalidAssignment target invalid equal joined, by simp; omega⟩
  | _ => cases hp

end Lox.Grammar
