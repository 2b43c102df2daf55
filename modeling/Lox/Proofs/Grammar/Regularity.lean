import Lox.Proofs.Grammar.Building

/-!
# Regular trees

A node is regular if its tokens have the kinds that the grammar has at their places, if a
superclass is a variable, and if no branch and no loop body is a declaration. Every node of a tree
that is read is regular, whatever the tokens are and however many faults are found on the way.
-/
namespace Lox

/-! ## The kinds of operators -/

def unaryKinds : List TokenKind := [.symbol .bang, .symbol .minus]

/-- The operators of arithmetic, of comparison and of equality. -/
def binaryKinds : List TokenKind :=
  [.symbol .plus, .symbol .minus, .symbol .star, .symbol .slash, .symbol .greater,
    .symbol .greaterEqual, .symbol .less, .symbol .lessEqual, .symbol .equalEqual,
    .symbol .bangEqual]

def logicalKinds : List TokenKind := [.keyword .orWord, .keyword .andWord]

/-! ## What holds throughout a tree -/

namespace Scope.Part

/-- A property of a part and of all parts below it. -/
inductive Throughout (P : Part → Prop) : Part → Prop where
  | intro {p : Part} (here : P p) (below : ∀ ctx, ∀ c ∈ p.children ctx, Throughout P c.2) :
      Throughout P p

variable {P : Part → Prop} {p : Part}

theorem Throughout.here (h : p.Throughout P) : P p := by
  cases h with
  | intro here _ => exact here

theorem Throughout.child (h : p.Throughout P) {ctx : Context} {c : Context × Part}
    (hc : c ∈ p.children ctx) : c.2.Throughout P := by
  cases h with
  | intro _ below => exact below ctx c hc

theorem Throughout.part (h : p.Throughout P) {q : Part}
    (hq : q ∈ (p.children .top).map Prod.snd) : q.Throughout P := by
  obtain ⟨c, hc, rfl⟩ := List.mem_map.mp hq
  exact h.child hc

theorem Throughout.combine {Q R : Part → Prop} (both : ∀ q : Part, P q → Q q → R q)
    (h : p.Throughout P) (h' : p.Throughout Q) : p.Throughout R := by
  induction h with
  | intro here _ ih => exact .intro (both _ here h'.here) fun ctx c hc => ih ctx c hc (h'.child hc)

theorem Throughout.of_children {parts : List Part} (here : P p)
    (children : ∀ ctx, (p.children ctx).map Prod.snd = parts)
    (below : ∀ q ∈ parts, q.Throughout P) : p.Throughout P :=
  .intro here fun ctx _ hc => below _ (children ctx ▸ List.mem_map_of_mem hc)

theorem Throughout.leaf (here : P p) (children : ∀ ctx, p.children ctx = []) : p.Throughout P :=
  .of_children here (fun ctx => congrArg (List.map Prod.snd) (children ctx)) (List.forall_mem_nil _)

variable {p₁ p₂ p₃ : Part}

theorem Throughout.one (here : P p) (children : ∀ ctx, (p.children ctx).map Prod.snd = [p₁])
    (h₁ : p₁.Throughout P) : p.Throughout P :=
  .of_children here children (List.forall_mem_singleton.mpr h₁)

theorem Throughout.two (here : P p) (children : ∀ ctx, (p.children ctx).map Prod.snd = [p₁, p₂])
    (h₁ : p₁.Throughout P) (h₂ : p₂.Throughout P) : p.Throughout P :=
  .of_children here children (List.forall_mem_cons.mpr ⟨h₁, List.forall_mem_singleton.mpr h₂⟩)

theorem Throughout.three (here : P p)
    (children : ∀ ctx, (p.children ctx).map Prod.snd = [p₁, p₂, p₃]) (h₁ : p₁.Throughout P)
    (h₂ : p₂.Throughout P) (h₃ : p₃.Throughout P) : p.Throughout P :=
  .of_children here children
    (List.forall_mem_cons.mpr ⟨h₁, List.forall_mem_cons.mpr ⟨h₂, List.forall_mem_singleton.mpr h₃⟩⟩)

/-- What holds throughout a program holds throughout each part that the walk comes to. -/
theorem Throughout.visited {program : List Stmt} (h : (stmts program).Throughout P) {ctx : Context}
    (visits : Visits program ctx p) : p.Throughout P := by
  have below : ∀ c, Relation.ReflTransGen Enters (.top, .stmts program) c → c.2.Throughout P := by
    intro c hc
    induction hc with
    | refl => exact h
    | tail _ hb ih => exact ih.child hb
  exact below _ visits

/-- What the grammar asks of a node itself. -/
def Regular : Part → Prop
  | expr (.assign _ name _) => name.kind = .identifier
  | expr (.binary _ operator _) => operator.kind ∈ binaryKinds
  | expr (.call _ paren _) => paren.kind = .symbol .rightParen
  | expr (.get _ name) => name.kind = .identifier
  | expr (.logical _ operator _) => operator.kind ∈ logicalKinds
  | expr (.set _ name _) => name.kind = .identifier
  | expr (.superRef _ keyword method) =>
    keyword.kind = .keyword .superWord ∧ method.kind = .identifier
  | expr (.thisRef _ keyword) => keyword.kind = .keyword .thisWord
  | expr (.unary operator _) => operator.kind ∈ unaryKinds
  | expr (.var _ name) => name.kind = .identifier
  | stmt (.classDecl name parent _) =>
    name.kind = .identifier ∧ ∀ e ∈ parent, ∃ id n, e = .var id n
  | stmt (.functionDecl decl) => decl.name.kind = .identifier
  | stmt (.ifElse _ branch other) => branch.declares = false ∧ ∀ s ∈ other, s.declares = false
  | stmt (.returnWith keyword _) => keyword.kind = .keyword .returnWord
  | stmt (.varDecl name _) => name.kind = .identifier
  | stmt (.whileLoop _ body) => body.declares = false
  | function _ decl => ∀ name ∈ decl.params, name.kind = .identifier
  | functions decls => ∀ decl ∈ decls, decl.name.kind = .identifier
  | _ => True

end Scope.Part

namespace Grammar

open Scope (Part)

/-! ## Operators by their tiers -/

theorem mem_of_isUnary {kind : TokenKind} (h : isUnary kind = true) : kind ∈ unaryKinds := by
  unfold isUnary at h
  split at h
  · decide
  · decide
  · cases h

theorem mem_of_isBinary {kind : TokenKind} (h : isBinary kind = true) : kind ∈ binaryKinds := by
  cases kind with
  | symbol s =>
    cases s <;> first
      | decide
      | cases h
  | _ => cases h

theorem mem_of_isLogical {kind : TokenKind} (h : isLogical kind = true) : kind ∈ logicalKinds := by
  cases kind with
  | keyword k =>
    cases k <;> first
      | decide
      | cases h
  | _ => cases h

/-- All nodes of a part that readers make are regular. -/
theorem Built.regular {n m : Nat} {p : Part} (h : Built n m p) : p.Throughout Part.Regular := by
  induction h with
  | literal | noExprs | noStmts => exact .leaf trivial fun _ => rfl
  | this keyed => exact .leaf keyed fun _ => rfl
  | «variable» named => exact .leaf named fun _ => rfl
  | super keyed named => exact .leaf ⟨keyed, named⟩ fun _ => rfl
  | noFunctions => exact .leaf (List.forall_mem_nil _) fun _ => rfl
  | grouping _ ih | expression _ ih | print _ ih | block _ ih =>
    exact .one trivial (fun _ => rfl) ih
  | property _ named ih => exact .one named (fun _ => rfl) ih
  | unary operates _ ih => exact .one (mem_of_isUnary operates) (fun _ => rfl) ih
  | assignment named _ _ ih => exact .one named (fun _ => rfl) ih
  | functionDecl named _ ih => exact .one named (fun _ => rfl) ih
  | function listed _ ih => exact .one listed (fun _ => rfl) ih
  | call _ _ closed ih ih' => exact .two closed (fun _ => rfl) ih ih'
  | binary _ operates _ ih ih' => exact .two (mem_of_isBinary operates) (fun _ => rfl) ih ih'
  | logical _ operates _ ih ih' => exact .two (mem_of_isLogical operates) (fun _ => rfl) ih ih'
  | propertyAssignment _ named _ ih ih' => exact .two named (fun _ => rfl) ih' ih
  | moreExprs _ _ ih ih' | moreStmts _ _ ih ih' => exact .two trivial (fun _ => rfl) ih ih'
  | whileLoop _ _ plain ih ih' => exact .two plain (fun _ => rfl) ih ih'
  | @«return» _ _ keyword value keyed _ _ ih =>
    cases value with
    | none => exact .leaf keyed fun _ => rfl
    | some e => exact .one keyed (fun _ => rfl) (ih e rfl)
  | @varDecl _ _ name value named _ _ ih =>
    cases value with
    | none => exact .leaf named fun _ => rfl
    | some e => exact .one named (fun _ => rfl) (ih e rfl)
  | baseClass named _ ih =>
    exact .one ⟨named, fun e he => absurd he (Option.not_mem_none e)⟩ (fun _ => rfl) ih
  | derivedClass named parented _ _ ih =>
    refine .two ⟨named, ?_⟩ (fun _ => rfl) (.leaf parented fun _ => rfl) ih
    rintro _ ⟨⟩
    exact ⟨_, _, rfl⟩
  | @increment _ _ _ after _ _ _ _ ih ih' =>
    have last : (Part.stmts []).Throughout Part.Regular := .leaf trivial fun _ => rfl
    have increased : (Part.stmt (.expression after)).Throughout Part.Regular :=
      .one trivial (fun _ => rfl) ih
    exact .one trivial (fun _ => rfl)
      (.two trivial (fun _ => rfl) ih' (.two trivial (fun _ => rfl) increased last))
  | ifThen _ _ plain ih ih' =>
    exact .two ⟨plain, fun s hs => absurd hs (Option.not_mem_none s)⟩ (fun _ => rfl) ih ih'
  | ifElse _ _ plain _ plain' ih ih' ih'' =>
    refine .three ⟨plain, ?_⟩ (fun _ => rfl) ih ih' ih''
    rintro _ ⟨⟩
    exact plain'
  | moreFunctions named _ _ ih ih' =>
    exact .two (List.forall_mem_cons.mpr ⟨named, ih'.here⟩) (fun _ => rfl) ih ih'

/-- Every tree that is read is regular throughout, whether or not faults are found. -/
theorem regular_parse (tokens : List Token) (n : Nat) :
    (Part.stmts (parse tokens n).statements).Throughout Part.Regular :=
  (built_parse tokens n).regular

end Grammar

end Lox
