import Lox.Proofs.Grammar.Relaxed
import Lox.Proofs.Grammar.Semicolons

/-!
# Parentheses around semicolons

What is derivable has its parentheses nested. No expression holds a semicolon, so a semicolon within
parentheses is one of the two in the header of a `for`, and every other one ends a statement.
-/
namespace Lox.Grammar

variable {style : DanglingElse} {n m : Nat} {w w₁ before after : List Token}
  {t opening closing semicolon : Token}

/-! ## Nesting -/

/-- By how much a token changes the number of open parentheses. -/
def nesting : TokenKind → Int
  | .symbol .leftParen => 1
  | .symbol .rightParen => -1
  | _ => 0

/-- How many parentheses are open after some tokens. -/
def depth : List Token → Int
  | [] => 0
  | t :: ts => nesting t.kind + depth ts

@[simp] theorem depth_nil : depth [] = 0 := rfl

@[simp] theorem depth_cons (t : Token) (w : List Token) :
    depth (t :: w) = nesting t.kind + depth w := rfl

@[simp] theorem depth_append (w w₁ : List Token) : depth (w ++ w₁) = depth w + depth w₁ := by
  induction w with
  | nil => simp
  | cons t w ih => rw [List.cons_append, depth_cons, depth_cons, ih, Int.add_assoc]

/-- Each parenthesis that is closed was opened before, and each that is opened is closed. -/
structure Nested (w : List Token) : Prop where
  balanced : depth w = 0
  opened : ∀ before after, w = before ++ after → 0 ≤ depth before

namespace Nested

theorem nil : Nested [] where
  balanced := rfl
  opened before after h := by
    obtain ⟨rfl, -⟩ := List.append_eq_nil_iff.mp h.symm
    exact Int.le_refl 0

theorem cons (outside : nesting t.kind = 0) (h : Nested w) : Nested (t :: w) where
  balanced := by rw [depth_cons, outside, h.balanced]; rfl
  opened before after split := by
    cases before with
    | nil => exact Int.le_refl 0
    | cons u before =>
      obtain ⟨rfl, rest⟩ := List.cons_eq_cons.mp split
      have := h.opened before after rest
      rw [depth_cons]
      omega

theorem append (h : Nested w) (h₁ : Nested w₁) : Nested (w ++ w₁) where
  balanced := by rw [depth_append, h.balanced, h₁.balanced]; rfl
  opened before after split := by
    rcases List.append_eq_append_iff.mp split with ⟨a, rfl, h'⟩ | ⟨a, h', rfl⟩
    · have := h₁.opened a after h'
      rw [depth_append, h.balanced]
      omega
    · exact h.opened before a h'

/-- Before a token after them there are no more parentheses closed than opened. -/
theorem opened_before (h : Nested w) (split : w ++ [closing] = before ++ after) :
    0 ≤ depth before ∨ before = w ++ [closing] ∧ after = [] := by
  rcases List.append_eq_append_iff.mp split with ⟨a, rfl, rest⟩ | ⟨a, rest, -⟩
  · cases a with
    | nil => exact .inl (by simp [h.balanced])
    | cons u a =>
      obtain ⟨rfl, rest'⟩ := List.cons_eq_cons.mp rest
      obtain ⟨rfl, rfl⟩ := List.append_eq_nil_iff.mp rest'.symm
      exact .inr ⟨rfl, rfl⟩
  · exact .inl (h.opened before a rest)

/-- Within a pair of parentheses one more is open. -/
theorem depth_within (h : Nested w) (opens : opening.kind = .symbol .leftParen)
    (split : opening :: (w ++ [closing]) = before ++ t :: after) (inner : nesting t.kind = 0) :
    0 < depth before := by
  cases before with
  | nil =>
    obtain ⟨rfl, -⟩ := List.cons_eq_cons.mp split
    rw [opens] at inner
    cases inner
  | cons u before =>
    obtain ⟨rfl, rest⟩ := List.cons_eq_cons.mp split
    rcases h.opened_before rest with nonneg | ⟨-, last⟩
    · rw [depth_cons, opens]
      show 0 < 1 + depth before
      omega
    · cases last

theorem enclosed (opens : opening.kind = .symbol .leftParen) (h : Nested w)
    (closes : closing.kind = .symbol .rightParen) : Nested (opening :: (w ++ [closing])) where
  balanced := by simp [opens, closes, h.balanced, nesting]
  opened before after split := by
    cases before with
    | nil => exact Int.le_refl 0
    | cons u before =>
      obtain ⟨rfl, rest⟩ := List.cons_eq_cons.mp split
      rw [depth_cons, opens]
      show 0 ≤ 1 + depth before
      rcases h.opened_before rest with nonneg | ⟨rfl, -⟩
      · omega
      · simp [closes, h.balanced, nesting]

end Nested

/-! ## What is derivable is nested -/

theorem nesting_of_literal {kind : TokenKind} {value : Literal} (h : literal? kind = some value) :
    nesting kind = 0 := by
  unfold literal? at h
  split at h <;> first | rfl | cases h

theorem nesting_of_holds {tier : Tier} {kind : TokenKind} (h : tier.holds kind = true) :
    nesting kind = 0 := by
  unfold Tier.holds at h
  split at h <;> first | rfl | cases h

theorem nesting_of_isUnary {kind : TokenKind} (h : isUnary kind = true) : nesting kind = 0 := by
  unfold isUnary at h
  split at h <;> first | rfl | cases h

/-- A token of a kind that is no parenthesis. -/
theorem nesting_of_eq {kind : TokenKind} (h : t.kind = kind)
    (outside : nesting kind = 0) : nesting t.kind = 0 :=
  h ▸ outside

theorem Nested.snoc (h : Nested w) (outside : nesting t.kind = 0) : Nested (w ++ [t]) :=
  h.append (.cons outside .nil)

theorem Parameters.nested {names : List Token} (h : Parameters w names) : Nested w := by
  induction h with
  | last named => exact .cons (nesting_of_eq named rfl) .nil
  | more named separated _ ih =>
    exact .cons (nesting_of_eq named rfl) (.cons (nesting_of_eq separated rfl) ih)

theorem OptionalParameters.nested {names : List Token} (h : OptionalParameters w names) :
    Nested w := by
  cases h with
  | none => exact .nil
  | some listed => exact listed.nested

/-- Parentheses with what they enclose, before other tokens. -/
theorem Nested.group (opens : opening.kind = .symbol .leftParen) (h : Nested w)
    (closes : closing.kind = .symbol .rightParen) (h₁ : Nested w₁) :
    Nested (opening :: (w ++ closing :: w₁)) := by
  have both := (Nested.enclosed opens h closes).append h₁
  rwa [List.cons_append, List.append_assoc] at both

theorem Derives.nested {phrase : Phrase} (h : Derives style n w phrase m) : Nested w := by
  induction h with
  | literal denotes => exact .cons (nesting_of_literal denotes) .nil
  | this keyed => exact .cons (nesting_of_eq keyed rfl) .nil
  | «variable» named => exact .cons (nesting_of_eq named rfl) .nil
  | super keyed dotted named =>
    exact .cons (nesting_of_eq keyed rfl) (.cons (nesting_of_eq dotted rfl)
      (.cons (nesting_of_eq named rfl) .nil))
  | grouping opened _ closed ih => exact .enclosed opened ih closed
  | simple _ ih | access _ ih | tightest _ ih | tighter _ ih | plain _ ih | lastArgument _ ih
  | given _ ih | variableInitializer _ ih | expressionInitializer _ ih | evaluation _ ih
  | ordinary _ ih | variableDeclaration _ ih => exact ih
  | emptyCall _ opened closed ih => exact ih.append (.enclosed opened .nil closed)
  | call _ opened _ _ closed ih ih' => exact ih.append (.enclosed opened ih' closed)
  | property _ dotted named ih =>
    exact ih.append (.cons (nesting_of_eq dotted rfl) (.cons (nesting_of_eq named rfl) .nil))
  | unaryOperation operates _ ih => exact .cons (nesting_of_isUnary operates) ih
  | operation _ operates _ ih ih' => exact ih.append (.cons (nesting_of_holds operates) ih')
  | assignment named assigned _ ih =>
    exact .cons (nesting_of_eq named rfl) (.cons (nesting_of_eq assigned rfl) ih)
  | propertyAssignment _ dotted named assigned _ ih ih' =>
    exact ih.append (.cons (nesting_of_eq dotted rfl) (.cons (nesting_of_eq named rfl)
      (.cons (nesting_of_eq assigned rfl) ih')))
  | moreArguments _ separated _ ih ih' => exact ih.append (.cons (nesting_of_eq separated rfl) ih')
  | omitted | noDeclarations | noFunctions => exact .nil
  | bareVariable keyed named closed =>
    exact .cons (nesting_of_eq keyed rfl) (.cons (nesting_of_eq named rfl)
      (.cons (nesting_of_eq closed rfl) .nil))
  | initializedVariable keyed named assigned _ closed ih =>
    exact .cons (nesting_of_eq keyed rfl) (.cons (nesting_of_eq named rfl)
      (.cons (nesting_of_eq assigned rfl) (ih.snoc (nesting_of_eq closed rfl))))
  | expressionEnd _ closed ih => exact ih.snoc (nesting_of_eq closed rfl)
  | noInitializer closed => exact .cons (nesting_of_eq closed rfl) .nil
  | print keyed _ closed ih | returnWith keyed _ closed ih =>
    exact .cons (nesting_of_eq keyed rfl) (ih.snoc (nesting_of_eq closed rfl))
  | block opened _ closed ih =>
    exact .cons (nesting_of_eq opened rfl) (ih.snoc (nesting_of_eq closed rfl))
  | whileLoop keyed opened _ closed _ ih ih' | ifThen keyed opened _ closed _ ih ih' =>
    exact .cons (nesting_of_eq keyed rfl) (.group opened ih closed ih')
  | forLoop keyed opened _ _ separated _ closed _ ih ih₁ ih₂ ih₃ =>
    have header := ih.append (ih₁.append (.cons (nesting_of_eq separated rfl) ih₂))
    have loop := Nested.cons (nesting_of_eq keyed rfl) (.group opened header closed ih₃)
    simpa using loop
  | ifElse keyed opened _ closed _ _ alternated _ ih ih₁ ih₂ =>
    exact .cons (nesting_of_eq keyed rfl) (.group opened ih closed
      (ih₁.append (.cons (nesting_of_eq alternated rfl) ih₂)))
  | functionDeclaration keyed _ ih => exact .cons (nesting_of_eq keyed rfl) ih
  | baseClass keyed named opened _ closed ih =>
    exact .cons (nesting_of_eq keyed rfl) (.cons (nesting_of_eq named rfl)
      (.cons (nesting_of_eq opened rfl) (ih.snoc (nesting_of_eq closed rfl))))
  | derivedClass keyed named inherits parented opened _ closed ih =>
    exact .cons (nesting_of_eq keyed rfl) (.cons (nesting_of_eq named rfl)
      (.cons (nesting_of_eq inherits rfl) (.cons (nesting_of_eq parented rfl)
        (.cons (nesting_of_eq opened rfl) (ih.snoc (nesting_of_eq closed rfl))))))
  | moreDeclarations _ _ ih ih' | moreFunctions _ _ ih ih' => exact ih.append ih'
  | function named opened listed closed entered _ left ih =>
    exact .cons (nesting_of_eq named rfl) (.group opened listed.nested closed
      (.cons (nesting_of_eq entered rfl) (ih.snoc (nesting_of_eq left rfl))))

/-! ## Expressions hold no semicolon -/

def Phrase.isExpression : Phrase → Bool
  | .primary _ => true
  | .call _ => true
  | .unary _ => true
  | .tier _ _ => true
  | .expression _ => true
  | .optional _ => true
  | .arguments _ => true
  | _ => false

/-- A token that may stand within an expression: it neither ends nor starts a statement. -/
def inExpression (kind : TokenKind) : Bool :=
  kind ≠ .symbol .semicolon && !startsStatement kind

theorem inExpression_of_literal {kind : TokenKind} {value : Literal}
    (h : literal? kind = some value) : inExpression kind = true := by
  unfold literal? at h
  split at h <;> first | rfl | cases h

theorem inExpression_of_holds {tier : Tier} {kind : TokenKind} (h : tier.holds kind = true) :
    inExpression kind = true := by
  unfold Tier.holds at h
  split at h <;> first | rfl | cases h

theorem inExpression_of_isUnary {kind : TokenKind} (h : isUnary kind = true) :
    inExpression kind = true := by
  unfold isUnary at h
  split at h <;> first | rfl | cases h

/-- Tokens that may all stand within an expression. -/
def Inner (w : List Token) : Prop := ∀ t ∈ w, inExpression t.kind = true

namespace Inner

theorem nil : Inner [] := List.forall_mem_nil _

theorem cons (first : inExpression t.kind = true) (h : Inner w) : Inner (t :: w) :=
  List.forall_mem_cons.mpr ⟨first, h⟩

theorem append (h : Inner w) (h₁ : Inner w₁) : Inner (w ++ w₁) :=
  List.forall_mem_append.mpr ⟨h, h₁⟩

theorem of_eq {kind : TokenKind} (h : t.kind = kind) (inner : inExpression kind = true) :
    Inner [t] :=
  cons (h ▸ inner) nil

end Inner

theorem Inner.not_semicolon (h : Inner w) : ∀ t ∈ w, t.kind ≠ .symbol .semicolon := by
  intro t ht hk
  have := h t ht
  rw [hk] at this
  cases this

theorem Derives.inner {phrase : Phrase} (h : Derives style n w phrase m)
    (expression : phrase.isExpression = true) : Inner w := by
  induction h with
  | literal denotes => exact .cons (inExpression_of_literal denotes) .nil
  | this keyed => exact .of_eq keyed rfl
  | «variable» named => exact .of_eq named rfl
  | super keyed dotted named =>
    exact (Inner.of_eq keyed rfl).append ((Inner.of_eq dotted rfl).append (.of_eq named rfl))
  | grouping opened _ closed ih =>
    exact (Inner.of_eq opened rfl).append ((ih rfl).append (.of_eq closed rfl))
  | simple _ ih | access _ ih | tightest _ ih | tighter _ ih | plain _ ih | lastArgument _ ih
  | given _ ih => exact ih rfl
  | emptyCall _ opened closed ih =>
    exact (ih rfl).append ((Inner.of_eq opened rfl).append (.of_eq closed rfl))
  | call _ opened _ _ closed ih ih' =>
    exact (ih rfl).append ((Inner.of_eq opened rfl).append ((ih' rfl).append (.of_eq closed rfl)))
  | property _ dotted named ih =>
    exact (ih rfl).append ((Inner.of_eq dotted rfl).append (.of_eq named rfl))
  | unaryOperation operates _ ih => exact .cons (inExpression_of_isUnary operates) (ih rfl)
  | operation _ operates _ ih ih' =>
    exact (ih rfl).append (.cons (inExpression_of_holds operates) (ih' rfl))
  | assignment named assigned _ ih =>
    exact (Inner.of_eq named rfl).append ((Inner.of_eq assigned rfl).append (ih rfl))
  | propertyAssignment _ dotted named assigned _ ih ih' =>
    exact (ih rfl).append ((Inner.of_eq dotted rfl).append ((Inner.of_eq named rfl).append
      ((Inner.of_eq assigned rfl).append (ih' rfl))))
  | moreArguments _ separated _ ih ih' =>
    exact (ih rfl).append ((Inner.of_eq separated rfl).append (ih' rfl))
  | omitted => exact .nil
  | _ => cases expression

/-! ## Semicolons outside parentheses -/

/-- Neither a semicolon nor a parenthesis. -/
def isFlat : TokenKind → Bool
  | .symbol .semicolon => false
  | .symbol .leftParen => false
  | .symbol .rightParen => false
  | _ => true

theorem nesting_of_isFlat {kind : TokenKind} (h : isFlat kind = true) : nesting kind = 0 := by
  unfold nesting
  split
  · cases h
  · cases h
  · rfl

theorem not_semicolon_of_isFlat {kind : TokenKind} (h : isFlat kind = true) :
    kind ≠ .symbol .semicolon := by
  rintro rfl
  cases h

/-- A semicolon outside parentheses, with what stands before and after it. -/
structure Cut (w before : List Token) (semicolon : Token) (after : List Token) : Prop where
  split : w = before ++ semicolon :: after
  closed : semicolon.kind = .symbol .semicolon
  outside : depth before = 0

namespace Cut

/-- The semicolon is not the first token if that is another one. -/
theorem first (h : Cut (t :: w) before semicolon after) (other : t.kind ≠ .symbol .semicolon) :
    ∃ b, before = t :: b := by
  obtain ⟨split, closed, -⟩ := h
  cases before with
  | nil =>
    obtain ⟨rfl, -⟩ := List.cons_eq_cons.mp split
    exact absurd closed other
  | cons u before =>
    obtain ⟨rfl, -⟩ := List.cons_eq_cons.mp split
    exact ⟨before, rfl⟩

/-- What stands before the semicolon without the first token, if that is no parenthesis either. -/
theorem cons {kind : TokenKind} (h : Cut (t :: w) before semicolon after) (keyed : t.kind = kind)
    (flat : isFlat kind = true) : ∃ b, before = t :: b ∧ Cut w b semicolon after := by
  obtain ⟨b, rfl⟩ := h.first (keyed ▸ not_semicolon_of_isFlat flat)
  obtain ⟨split, closed, outside⟩ := h
  rw [depth_cons, keyed, nesting_of_isFlat flat, Int.zero_add] at outside
  exact ⟨b, rfl, (List.cons_eq_cons.mp split).2, closed, outside⟩

/-- Of two parts one holds the semicolon. -/
theorem append (h : Cut (w ++ w₁) before semicolon after) (nested : Nested w) :
    (∃ a, after = a ++ w₁ ∧ Cut w before semicolon a) ∨
      ∃ b, before = w ++ b ∧ Cut w₁ b semicolon after := by
  obtain ⟨split, closed, outside⟩ := h
  rcases List.append_eq_append_iff.mp split with ⟨b, rfl, rest⟩ | ⟨a, rest, rest'⟩
  · rw [depth_append, nested.balanced, Int.zero_add] at outside
    exact .inr ⟨b, rfl, rest, closed, outside⟩
  · cases a with
    | nil =>
      rw [List.append_nil] at rest
      exact .inr ⟨[], by rw [rest, List.append_nil], rest'.symm, closed, rfl⟩
    | cons u a =>
      obtain ⟨rfl, rest''⟩ := List.cons_eq_cons.mp rest'
      exact .inl ⟨a, rest'', rest, closed, outside⟩

/-- The semicolon is not within parentheses. -/
theorem group (h : Cut (opening :: (w ++ closing :: w₁)) before semicolon after)
    (opens : opening.kind = .symbol .leftParen) (nested : Nested w)
    (closes : closing.kind = .symbol .rightParen) :
    ∃ b, before = opening :: (w ++ closing :: b) ∧ Cut w₁ b semicolon after := by
  have inParts : Cut (opening :: (w ++ [closing]) ++ w₁) before semicolon after := by
    rw [List.cons_append, List.append_assoc]
    exact h
  rcases inParts.append (.enclosed opens nested closes) with ⟨a, -, inside⟩ | ⟨b, rfl, rest⟩
  · have := nested.depth_within opens inside.split (by rw [inside.closed]; rfl)
    rw [inside.outside] at this
    cases this
  · exact ⟨b, by simp, rest⟩

/-- The semicolon is not in the header of a loop. -/
theorem forLoop {keyword separator : Token} {w₂ w₃ : List Token}
    (h : Cut (keyword :: opening :: (w ++ (w₁ ++ separator :: (w₂ ++ closing :: w₃)))) before
      semicolon after)
    (keyed : keyword.kind = .keyword .forWord) (opens : opening.kind = .symbol .leftParen)
    (initialized : Nested w) (tested : Nested w₁) (separated : separator.kind = .symbol .semicolon)
    (increased : Nested w₂) (closes : closing.kind = .symbol .rightParen) :
    ∃ b, before = keyword :: opening :: (w ++ (w₁ ++ separator :: (w₂ ++ closing :: b))) ∧
      Cut w₃ b semicolon after := by
  have header := initialized.append (tested.append (.cons (nesting_of_eq separated rfl) increased))
  obtain ⟨b₀, rfl, inner⟩ := h.cons keyed rfl
  have whole : Cut (opening :: (w ++ (w₁ ++ separator :: w₂) ++ closing :: w₃)) b₀ semicolon
      after := by
    simpa using inner
  obtain ⟨b, rfl, body⟩ := whole.group opens header closes
  exact ⟨b, by simp, body⟩

/-- The semicolon that ends a statement is the only one. -/
theorem last (h : Cut (w ++ [closing]) before semicolon after)
    (inner : ∀ t ∈ w, t.kind ≠ .symbol .semicolon) : before = w ∧ after = [] := by
  obtain ⟨split, closed, -⟩ := h
  rcases List.append_eq_append_iff.mp split with ⟨b, rfl, rest⟩ | ⟨a, rfl, rest⟩
  · cases b with
    | nil =>
      obtain ⟨rfl, rfl⟩ := List.cons_eq_cons.mp rest
      exact ⟨List.append_nil w, rfl⟩
    | cons u b => simp at rest
  · cases a with
    | nil =>
      obtain ⟨rfl, rfl⟩ := List.cons_eq_cons.mp rest
      exact ⟨(List.append_nil before).symm, rfl⟩
    | cons u a =>
      obtain ⟨rfl, -⟩ := List.cons_eq_cons.mp rest
      exact absurd closed (inner _ (by simp))

theorem only (h : Cut [closing] before semicolon after) : before = [] ∧ after = [] :=
  Cut.last (show Cut ([] ++ [closing]) before semicolon after from h) (List.forall_mem_nil _)

/-- What ends with another token goes on after the semicolon. -/
theorem ended {kind : TokenKind} (h : Cut (w ++ [closing]) before semicolon after)
    (nested : Nested w) (keyed : closing.kind = kind) (flat : isFlat kind = true) :
    ∃ a, after = a ++ [closing] ∧ Cut w before semicolon a := by
  rcases h.append nested with inside | ⟨b, -, rest⟩
  · exact inside
  · obtain ⟨c, -, ⟨split, -, -⟩⟩ := rest.cons keyed flat
    simp at split

/-- The semicolon is in the body of the function. -/
theorem function {name brace : Token}
    (h : Cut (name :: opening :: (w ++ closing :: brace :: w₁)) before semicolon after)
    (named : name.kind = .identifier) (opens : opening.kind = .symbol .leftParen)
    (listed : Nested w) (closes : closing.kind = .symbol .rightParen)
    (entered : brace.kind = .symbol .leftBrace) :
    ∃ b, before = name :: opening :: (w ++ closing :: brace :: b) ∧ Cut w₁ b semicolon after := by
  obtain ⟨_, rfl, signature⟩ := h.cons named rfl
  obtain ⟨_, rfl, block⟩ := signature.group opens listed closes
  obtain ⟨b, rfl, rest⟩ := block.cons entered rfl
  exact ⟨b, rfl, rest⟩

end Cut

end Lox.Grammar
