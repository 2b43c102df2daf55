import Lox.Proofs.Alike.Code
import Lox.Proofs.Grammar.Rules
import Mathlib.Data.List.Forall2

/-!
# Sources of programs that are alike

A program that is alike to one with a derivation has a derivation of the same form. Its tokens are
those of the first one, with other lines and with some names spelled as in their scopes.
-/
namespace Lox

open Scope (Part thisName superName)
open Grammar (Phrase Derives DanglingElse Tier Parameters OptionalParameters ForClauses)

namespace Link

variable (L : Link)

/-- A token that stands for another one: the same with a line that corresponds, or a name with an
allowed spelling. -/
def Tokens (t t' : Token) : Prop :=
  L.Same t t' ∨ t.kind = .identifier ∧ ∃ f, L.spellings f ∧ L.Spelled f t t'

/-- Parts that are alike in some scopes whose spellings are allowed. -/
def Parts (part part' : Part) : Prop :=
  ∃ fs, (∀ f ∈ fs, L.spellings f) ∧ L.Alike fs part part'

/-- Phrases of one kind whose trees are alike. -/
inductive Phrases : Phrase → Phrase → Prop where
  | primary {e e' : Expr} (alike : L.Parts (.expr e) (.expr e')) :
      Phrases (.primary e) (.primary e')
  | call {e e' : Expr} (alike : L.Parts (.expr e) (.expr e')) : Phrases (.call e) (.call e')
  | unary {e e' : Expr} (alike : L.Parts (.expr e) (.expr e')) : Phrases (.unary e) (.unary e')
  | tier (tiers : List Tier) {e e' : Expr} (alike : L.Parts (.expr e) (.expr e')) :
      Phrases (.tier tiers e) (.tier tiers e')
  | expression {e e' : Expr} (alike : L.Parts (.expr e) (.expr e')) :
      Phrases (.expression e) (.expression e')
  | omitted : Phrases (.optional none) (.optional none)
  | given {e e' : Expr} (alike : L.Parts (.expr e) (.expr e')) :
      Phrases (.optional (some e)) (.optional (some e'))
  | arguments {es es' : List Expr} (alike : L.Parts (.exprs es) (.exprs es')) :
      Phrases (.arguments es) (.arguments es')
  | varDeclaration {s s' : Stmt} (alike : L.Parts (.stmt s) (.stmt s')) :
      Phrases (.varDeclaration s) (.varDeclaration s')
  | expressionStatement {s s' : Stmt} (alike : L.Parts (.stmt s) (.stmt s')) :
      Phrases (.expressionStatement s) (.expressionStatement s')
  | noInitializer : Phrases (.initializer none) (.initializer none)
  | initializer {s s' : Stmt} (alike : L.Parts (.stmt s) (.stmt s')) :
      Phrases (.initializer (some s)) (.initializer (some s'))
  | statement (endsOpen : Bool) {s s' : Stmt} (alike : L.Parts (.stmt s) (.stmt s')) :
      Phrases (.statement endsOpen s) (.statement endsOpen s')
  | declaration {s s' : Stmt} (alike : L.Parts (.stmt s) (.stmt s')) :
      Phrases (.declaration s) (.declaration s')
  | declarations {ss ss' : List Stmt} (alike : L.Parts (.stmts ss) (.stmts ss')) :
      Phrases (.declarations ss) (.declarations ss')
  | function {kind : Scope.FunctionKind} {decl decl' : FunctionDecl}
      (alike : L.Parts (.function kind decl) (.function kind decl')) :
      Phrases (.function decl) (.function decl')
  | functions {decls decls' : List FunctionDecl}
      (alike : L.Parts (.functions decls) (.functions decls')) :
      Phrases (.functions decls) (.functions decls')

/-- Numbers that correspond have one difference, and each line has one that corresponds. -/
structure Shifts (a b : Nat) : Prop where
  numbers : ∀ id id' d, L.occurrences id id' d → id' + a = id + b
  lines : ∀ line, ∃ line', L.lines line line'

variable {L} {a b : Nat} {fs : List Spelling} {t t' : Token} {id id' : Nat}

theorem Tokens.kind (h : L.Tokens t t') : t'.kind = t.kind := by
  rcases h with same | ⟨_, _, _, spelled⟩
  · exact same.kind
  · exact spelled.kind

/-- A token that is in no tree has one that stands for it. -/
theorem Shifts.token (h : L.Shifts a b) {kind : TokenKind} (ht : t.kind = kind) :
    ∃ t', L.Tokens t t' ∧ t'.kind = kind := by
  obtain ⟨line, hl⟩ := h.lines t.line
  exact ⟨⟨t.kind, t.lexeme, line⟩, .inl ⟨rfl, rfl, hl⟩, ht⟩

theorem Spelled.token {f : Spelling} (h : L.Spelled f t t') (spelling : L.spellings f)
    (named : t.kind = .identifier) : L.Tokens t t' :=
  .inr ⟨named, f, spelling, h⟩

theorem Occurs.token (h : L.Occurs fs id t id' t') (all : ∀ f ∈ fs, L.spellings f)
    (named : t.kind = .identifier) : L.Tokens t t' := by
  obtain ⟨d, _, spelled⟩ := h
  exact spelled.token (spellings_spellingAt all d) named

/-- `this` and `super` are spelled in one way. -/
theorem Occurs.same (h : L.Occurs fs id t id' t') (all : ∀ f ∈ fs, L.spellings f)
    (reserved : t.lexeme = thisName ∨ t.lexeme = superName) : L.Same t t' := by
  obtain ⟨d, _, spelled⟩ := h
  have fixed := (L.keywords t.lexeme reserved).2 _ (spellings_spellingAt all d)
  exact ⟨spelled.kind, spelled.lexeme.trans fixed, spelled.line⟩

theorem Occurs.number (h : L.Occurs fs id t id' t') (shifts : L.Shifts a b) {n n' : Nat}
    (hn : n' + a = n + b) (numbered : id = n) : id' = n' := by
  obtain ⟨d, hd, _⟩ := h
  have := shifts.numbers _ _ _ hd
  omega

/-- As many expressions are listed. -/
theorem Alike.length_exprs {es es' : List Expr} (h : L.Alike fs (.exprs es) (.exprs es')) :
    es.length = es'.length := by
  induction es generalizing es' with
  | nil =>
    cases h
    rfl
  | cons e es ih =>
    cases h with
    | moreExprs _ rest => exact congrArg (· + 1) (ih rest)

theorem parameters_alike {f : Spelling} (shifts : L.Shifts a b) (spelling : L.spellings f)
    {w params params' : List Token} (h : Parameters w params)
    (alike : List.Forall₂ (L.Spelled f) params params') :
    ∃ w', List.Forall₂ L.Tokens w w' ∧ Parameters w' params' := by
  induction h generalizing params' with
  | last named =>
    cases alike with
    | cons spelled rest =>
      cases rest
      exact ⟨_, .cons (spelled.token spelling named) .nil, .last (spelled.kind.trans named)⟩
  | more named separated _ ih =>
    cases alike with
    | cons spelled rest =>
      obtain ⟨w', hw, parameters⟩ := ih rest
      obtain ⟨comma', hc, kc⟩ := shifts.token separated
      exact ⟨_, .cons (spelled.token spelling named) (.cons hc hw),
        .more (spelled.kind.trans named) kc parameters⟩

theorem optionalParameters_alike {f : Spelling} (shifts : L.Shifts a b) (spelling : L.spellings f)
    {w params params' : List Token} (h : OptionalParameters w params)
    (alike : List.Forall₂ (L.Spelled f) params params') :
    ∃ w', List.Forall₂ L.Tokens w w' ∧ OptionalParameters w' params' := by
  cases h with
  | none =>
    cases alike
    exact ⟨[], .nil, .none⟩
  | some listed bounded =>
    obtain ⟨w', hw, parameters⟩ := parameters_alike shifts spelling listed alike
    exact ⟨w', hw, .some parameters (alike.length_eq ▸ bounded)⟩

theorem spellings_spellingHere (all : ∀ f ∈ fs, L.spellings f) : L.spellings (spellingHere fs) := by
  cases fs with
  | nil => exact L.plain
  | cons f fs => exact all f List.mem_cons_self

/-- What is alike to the node of a tier is a node of that tier. -/
theorem Alike.node {tier : Tier} {left right e : Expr} {operator : Token}
    (h : L.Alike fs (.expr (tier.node left operator right)) (.expr e)) :
    ∃ left' operator' right', e = tier.node left' operator' right' ∧
      L.Alike fs (.expr left) (.expr left') ∧ L.Same operator operator' ∧
      L.Alike fs (.expr right) (.expr right') := by
  cases tier with
  | disjunction | conjunction =>
    cases h with
    | logical before operates after => exact ⟨_, _, _, rfl, before, operates, after⟩
  | _ =>
    cases h with
    | binary before operates after => exact ⟨_, _, _, rfl, before, operates, after⟩

theorem Alike.returned {keyword : Token} {value : Option Expr} {s : Stmt}
    (h : L.Alike fs (.stmt (.returnWith keyword value)) (.stmt s))
    (all : ∀ f ∈ fs, L.spellings f) :
    ∃ keyword' value', s = .returnWith keyword' value' ∧ L.Same keyword keyword' ∧
      L.Phrases (.optional value) (.optional value') := by
  cases h with
  | bareReturn keyed => exact ⟨_, _, rfl, keyed, .omitted⟩
  | returnWith keyed evaluated => exact ⟨_, _, rfl, keyed, .given ⟨fs, all, evaluated⟩⟩

/-- What is alike to a `while` loop that a `for` stands for is one that a `for` stands for. -/
theorem Alike.whileOfFor {test after : Option Expr} {body s : Stmt}
    (h : L.Alike fs (.stmt (ForClauses.loop ⟨none, test, after⟩ body)) (.stmt s))
    (all : ∀ f ∈ fs, L.spellings f) (endsOpen : Bool) :
    ∃ test' after' body', s = ForClauses.loop ⟨none, test', after'⟩ body' ∧
      L.Phrases (.optional test) (.optional test') ∧
      L.Phrases (.optional after) (.optional after') ∧
      L.Phrases (.statement endsOpen body) (.statement endsOpen body') := by
  cases h with
  | @whileLoop _ _ condition' _ inner' tested repeated =>
    have condition : ∃ test', condition' = test'.getD (.literal (.bool true)) ∧
        L.Phrases (.optional test) (.optional test') := by
      cases test with
      | none =>
        cases tested
        exact ⟨none, rfl, .omitted⟩
      | some e => exact ⟨some condition', rfl, .given ⟨fs, all, tested⟩⟩
    obtain ⟨test', rfl, given⟩ := condition
    cases after with
    | none => exact ⟨test', none, inner', rfl, given, .omitted, .statement _ ⟨fs, all, repeated⟩⟩
    | some increment =>
      cases repeated with
      | @block f _ _ _ spelling content =>
        have within := List.forall_mem_cons.mpr ⟨spelling, all⟩
        cases content with
        | moreStmts first rest =>
          cases rest with
          | moreStmts second rest =>
            cases rest
            cases second with
            | expression evaluated =>
              exact ⟨test', _, _, rfl, given, .given ⟨f :: fs, within, evaluated⟩,
                .statement _ ⟨f :: fs, within, first⟩⟩

/-- What is alike to the loop that a `for` stands for is the loop of a `for` with alike clauses. -/
theorem Alike.loop {first : Option Stmt} {test after : Option Expr} {body s : Stmt}
    (h : L.Alike fs (.stmt (ForClauses.loop ⟨first, test, after⟩ body)) (.stmt s))
    (all : ∀ f ∈ fs, L.spellings f) (endsOpen : Bool) :
    ∃ first' test' after' body', s = ForClauses.loop ⟨first', test', after'⟩ body' ∧
      L.Phrases (.initializer first) (.initializer first') ∧
      L.Phrases (.optional test) (.optional test') ∧
      L.Phrases (.optional after) (.optional after') ∧
      L.Phrases (.statement endsOpen body) (.statement endsOpen body') := by
  cases first with
  | none =>
    obtain ⟨test', after', body', rfl, tested, increased, repeated⟩ := h.whileOfFor all endsOpen
    exact ⟨none, test', after', body', rfl, .noInitializer, tested, increased, repeated⟩
  | some initializer =>
    cases h with
    | @block f _ _ _ spelling content =>
      have within := List.forall_mem_cons.mpr ⟨spelling, all⟩
      cases content with
      | moreStmts first rest =>
        cases rest with
        | moreStmts second rest =>
          cases rest
          obtain ⟨test', after', body', rfl, tested, increased, repeated⟩ :=
            second.whileOfFor within endsOpen
          exact ⟨some _, test', after', body', rfl, .initializer ⟨f :: fs, within, first⟩, tested,
            increased, repeated⟩

/-! ## What the rules carry over -/

/-- What is alike to the phrase is derived from tokens that stand for those of the phrase, with
numbers that have the same difference before and after. -/
def Carries (L : Link) (a b : Nat) (style : DanglingElse) (n : Nat) (w : List Token)
    (phrase : Phrase) (m : Nat) : Prop :=
  ∀ phrase' n', L.Phrases phrase phrase' → n' + a = n + b →
    ∃ w' m', m' + a = m + b ∧ List.Forall₂ L.Tokens w w' ∧ Derives style n' w' phrase' m'

section
variable {style : DanglingElse} {n m k l i : Nat} {w w₁ w₂ w₃ : List Token}
  {keyword name dot comma equals opening closing : Token}

/-- A phrase that consists of another one alone. -/
theorem Carries.above {inner outer : Phrase} (h : L.Carries a b style n w inner m)
    (only : ∀ outer', L.Phrases outer outer' → ∃ inner', L.Phrases inner inner' ∧
      ∀ n' w' m', Derives style n' w' inner' m' → Derives style n' w' outer' m') :
    L.Carries a b style n w outer m := by
  intro outer' n' alike hn
  obtain ⟨inner', below, derives⟩ := only outer' alike
  obtain ⟨w', m', hm, hw, derived⟩ := h inner' n' below hn
  exact ⟨w', m', hm, hw, derives n' w' m' derived⟩

/-! ### Expressions -/

theorem carries_literal (shifts : L.Shifts a b) {value : Literal}
    (denotes : Grammar.literal? t.kind = some value) :
    L.Carries a b style n [t] (.primary (.literal value)) n := by
  intro _ n' (.primary ⟨fs, all, alike⟩) hn
  cases alike
  obtain ⟨t', ht, kt⟩ := shifts.token (rfl : t.kind = t.kind)
  exact ⟨_, _, hn, .cons ht .nil, .literal (kt ▸ denotes)⟩

theorem carries_this (shifts : L.Shifts a b) (keyed : keyword.kind = .keyword .thisWord) :
    L.Carries a b style n [keyword] (.primary (.thisRef n keyword)) (n + 1) := by
  intro _ n' (.primary ⟨fs, all, alike⟩) hn
  cases alike with
  | thisRef spelled occurs =>
    obtain rfl := occurs.number shifts hn rfl
    have same := occurs.same all (.inl spelled)
    exact ⟨_, _, by omega, .cons (.inl same) .nil, .this (same.kind.trans keyed)⟩

theorem carries_variable (shifts : L.Shifts a b) (named : name.kind = .identifier) :
    L.Carries a b style n [name] (.primary (.var n name)) (n + 1) := by
  intro _ n' (.primary ⟨fs, all, alike⟩) hn
  cases alike with
  | var occurs =>
    obtain rfl := occurs.number shifts hn rfl
    have token := occurs.token all named
    exact ⟨_, _, by omega, .cons token .nil, .variable (token.kind.trans named)⟩

theorem carries_super (shifts : L.Shifts a b) (keyed : keyword.kind = .keyword .superWord)
    (dotted : dot.kind = .symbol .dot) (named : name.kind = .identifier) :
    L.Carries a b style n [keyword, dot, name] (.primary (.superRef n keyword name)) (n + 1) := by
  intro _ n' (.primary ⟨fs, all, alike⟩) hn
  cases alike with
  | superRef spelled occurs method =>
    obtain rfl := occurs.number shifts hn rfl
    have same := occurs.same all (.inr spelled)
    obtain ⟨dot', hd, kd⟩ := shifts.token dotted
    exact ⟨_, _, by omega, .cons (.inl same) (.cons hd (.cons (.inl method) .nil)),
      .super (same.kind.trans keyed) kd (method.kind.trans named)⟩

theorem carries_grouping (shifts : L.Shifts a b) {inner : Expr}
    (opened : opening.kind = .symbol .leftParen)
    (content : L.Carries a b style n w (.expression inner) m)
    (closed : closing.kind = .symbol .rightParen) :
    L.Carries a b style n (opening :: (w ++ [closing])) (.primary (.grouping inner)) m := by
  intro _ n' (.primary ⟨fs, all, alike⟩) hn
  cases alike with
  | grouping inside =>
    obtain ⟨w', m', hm, hw, derived⟩ := content _ n' (.expression ⟨fs, all, inside⟩) hn
    obtain ⟨opening', ho, ko⟩ := shifts.token opened
    obtain ⟨closing', hc, kc⟩ := shifts.token closed
    exact ⟨_, m', hm, .cons ho (List.rel_append hw (.cons hc .nil)), .grouping ko derived kc⟩

theorem carries_emptyCall (shifts : L.Shifts a b) {callee : Expr}
    (called : L.Carries a b style n w (.call callee) m)
    (opened : opening.kind = .symbol .leftParen) (closed : closing.kind = .symbol .rightParen) :
    L.Carries a b style n (w ++ [opening, closing]) (.call (.call callee closing [])) m := by
  intro _ n' (.call ⟨fs, all, alike⟩) hn
  cases alike with
  | call before same listed =>
    cases listed
    obtain ⟨w', m', hm, hw, derived⟩ := called _ n' (.call ⟨fs, all, before⟩) hn
    obtain ⟨opening', ho, ko⟩ := shifts.token opened
    exact ⟨_, m', hm, List.rel_append hw (.cons ho (.cons (.inl same) .nil)),
      .emptyCall derived ko (same.kind.trans closed)⟩

theorem carries_call (shifts : L.Shifts a b) {callee : Expr} {trees : List Expr}
    (called : L.Carries a b style n w (.call callee) m)
    (opened : opening.kind = .symbol .leftParen)
    (listed : L.Carries a b style m w₁ (.arguments trees) k)
    (bounded : trees.length ≤ Grammar.maxArguments) (closed : closing.kind = .symbol .rightParen) :
    L.Carries a b style n (w ++ opening :: (w₁ ++ [closing])) (.call (.call callee closing trees))
      k := by
  intro _ n' (.call ⟨fs, all, alike⟩) hn
  cases alike with
  | call before same values =>
    obtain ⟨w', m', hm, hw, derived⟩ := called _ n' (.call ⟨fs, all, before⟩) hn
    obtain ⟨w₁', k', hk, hw₁, arguments⟩ := listed _ m' (.arguments ⟨fs, all, values⟩) hm
    obtain ⟨opening', ho, ko⟩ := shifts.token opened
    exact ⟨_, k', hk, List.rel_append hw (.cons ho (List.rel_append hw₁ (.cons (.inl same) .nil))),
      .call derived ko arguments (values.length_exprs ▸ bounded) (same.kind.trans closed)⟩

theorem carries_property (shifts : L.Shifts a b) {object : Expr}
    (owner : L.Carries a b style n w (.call object) m) (dotted : dot.kind = .symbol .dot)
    (named : name.kind = .identifier) :
    L.Carries a b style n (w ++ [dot, name]) (.call (.get object name)) m := by
  intro _ n' (.call ⟨fs, all, alike⟩) hn
  cases alike with
  | get before same =>
    obtain ⟨w', m', hm, hw, derived⟩ := owner _ n' (.call ⟨fs, all, before⟩) hn
    obtain ⟨dot', hd, kd⟩ := shifts.token dotted
    exact ⟨_, m', hm, List.rel_append hw (.cons hd (.cons (.inl same) .nil)),
      .property derived kd (same.kind.trans named)⟩

theorem carries_unaryOperation {operator : Token} {right : Expr}
    (operates : Grammar.isUnary operator.kind = true)
    (operand : L.Carries a b style n w (.unary right) m) :
    L.Carries a b style n (operator :: w) (.unary (.unary operator right)) m := by
  intro _ n' (.unary ⟨fs, all, alike⟩) hn
  cases alike with
  | unary same after =>
    obtain ⟨w', m', hm, hw, derived⟩ := operand _ n' (.unary ⟨fs, all, after⟩) hn
    exact ⟨_, m', hm, .cons (.inl same) hw, .unaryOperation (same.kind ▸ operates) derived⟩

theorem carries_operation {tier : Tier} {tiers : List Tier} {left right : Expr} {operator : Token}
    (before : L.Carries a b style n w (.tier (tier :: tiers) left) m)
    (operates : tier.holds operator.kind = true)
    (after : L.Carries a b style m w₁ (.tier tiers right) k) :
    L.Carries a b style n (w ++ operator :: w₁)
      (.tier (tier :: tiers) (tier.node left operator right)) k := by
  intro _ n' (.tier _ ⟨fs, all, alike⟩) hn
  obtain ⟨left', operator', right', rfl, leftAlike, same, rightAlike⟩ := alike.node
  obtain ⟨w', m', hm, hw, derived⟩ := before _ n' (.tier _ ⟨fs, all, leftAlike⟩) hn
  obtain ⟨w₁', k', hk, hw₁, operand⟩ := after _ m' (.tier _ ⟨fs, all, rightAlike⟩) hm
  exact ⟨_, k', hk, List.rel_append hw (.cons (.inl same) hw₁),
    .operation derived (same.kind ▸ operates) operand⟩

theorem carries_assignment (shifts : L.Shifts a b) {value : Expr} (named : name.kind = .identifier)
    (assigned : equals.kind = .symbol .equal)
    (valued : L.Carries a b style (n + 1) w (.expression value) m) :
    L.Carries a b style n (name :: equals :: w) (.expression (.assign m name value)) (m + 1) := by
  intro _ n' (.expression ⟨fs, all, alike⟩) hn
  cases alike with
  | assign occurs given =>
    -- The number of the target comes after those of the value.
    obtain ⟨w', m', hm, hw, derived⟩ := valued _ (n' + 1) (.expression ⟨fs, all, given⟩) (by omega)
    obtain rfl := occurs.number shifts hm rfl
    have token := occurs.token all named
    obtain ⟨equals', he, ke⟩ := shifts.token assigned
    exact ⟨_, _, by omega, .cons token (.cons he hw),
      .assignment (token.kind.trans named) ke derived⟩

theorem carries_propertyAssignment (shifts : L.Shifts a b) {object value : Expr}
    (owner : L.Carries a b style n w (.call object) m) (dotted : dot.kind = .symbol .dot)
    (named : name.kind = .identifier) (assigned : equals.kind = .symbol .equal)
    (valued : L.Carries a b style m w₁ (.expression value) k) :
    L.Carries a b style n (w ++ dot :: name :: equals :: w₁)
      (.expression (.set object name value)) k := by
  intro _ n' (.expression ⟨fs, all, alike⟩) hn
  cases alike with
  | set before same after =>
    obtain ⟨w', m', hm, hw, derived⟩ := owner _ n' (.call ⟨fs, all, before⟩) hn
    obtain ⟨w₁', k', hk, hw₁, assignment⟩ := valued _ m' (.expression ⟨fs, all, after⟩) hm
    obtain ⟨dot', hd, kd⟩ := shifts.token dotted
    obtain ⟨equals', he, ke⟩ := shifts.token assigned
    exact ⟨_, k', hk, List.rel_append hw (.cons hd (.cons (.inl same) (.cons he hw₁))),
      .propertyAssignment derived kd (same.kind.trans named) ke assignment⟩

theorem carries_lastArgument {tree : Expr}
    (argument : L.Carries a b style n w (.expression tree) m) :
    L.Carries a b style n w (.arguments [tree]) m := by
  intro _ n' (.arguments ⟨fs, all, alike⟩) hn
  cases alike with
  | moreExprs first rest =>
    cases rest
    obtain ⟨w', m', hm, hw, derived⟩ := argument _ n' (.expression ⟨fs, all, first⟩) hn
    exact ⟨w', m', hm, hw, .lastArgument derived⟩

theorem carries_moreArguments (shifts : L.Shifts a b) {tree : Expr} {trees : List Expr}
    (argument : L.Carries a b style n w (.expression tree) m)
    (separated : comma.kind = .symbol .comma)
    (others : L.Carries a b style m w₁ (.arguments trees) k) :
    L.Carries a b style n (w ++ comma :: w₁) (.arguments (tree :: trees)) k := by
  intro _ n' (.arguments ⟨fs, all, alike⟩) hn
  cases alike with
  | moreExprs first rest =>
    obtain ⟨w', m', hm, hw, derived⟩ := argument _ n' (.expression ⟨fs, all, first⟩) hn
    obtain ⟨w₁', k', hk, hw₁, more⟩ := others _ m' (.arguments ⟨fs, all, rest⟩) hm
    obtain ⟨comma', hc, kc⟩ := shifts.token separated
    exact ⟨_, k', hk, List.rel_append hw (.cons hc hw₁), .moreArguments derived kc more⟩

/-! ### Statements -/

theorem carries_bareVariable (shifts : L.Shifts a b) (keyed : keyword.kind = .keyword .varWord)
    (named : name.kind = .identifier) (closed : closing.kind = .symbol .semicolon) :
    L.Carries a b style n [keyword, name, closing] (.varDeclaration (.varDecl name none)) n := by
  intro _ n' (.varDeclaration ⟨fs, all, alike⟩) hn
  cases alike with
  | bareVariable spelled =>
    obtain ⟨keyword', hk, kk⟩ := shifts.token keyed
    obtain ⟨closing', hc, kc⟩ := shifts.token closed
    have token := spelled.token (spellings_spellingHere all) named
    exact ⟨_, n', hn, .cons hk (.cons token (.cons hc .nil)),
      .bareVariable kk (spelled.kind.trans named) kc⟩

theorem carries_initializedVariable (shifts : L.Shifts a b) {value : Expr}
    (keyed : keyword.kind = .keyword .varWord) (named : name.kind = .identifier)
    (assigned : equals.kind = .symbol .equal)
    (valued : L.Carries a b style n w (.expression value) m)
    (closed : closing.kind = .symbol .semicolon) :
    L.Carries a b style n (keyword :: name :: equals :: (w ++ [closing]))
      (.varDeclaration (.varDecl name (some value))) m := by
  intro _ n' (.varDeclaration ⟨fs, all, alike⟩) hn
  cases alike with
  | initializedVariable spelled given =>
    obtain ⟨w', m', hm, hw, derived⟩ := valued _ n' (.expression ⟨fs, all, given⟩) hn
    obtain ⟨keyword', hk, kk⟩ := shifts.token keyed
    obtain ⟨equals', he, ke⟩ := shifts.token assigned
    obtain ⟨closing', hc, kc⟩ := shifts.token closed
    have token := spelled.token (spellings_spellingHere all) named
    exact ⟨_, m', hm, .cons hk (.cons token (.cons he (List.rel_append hw (.cons hc .nil)))),
      .initializedVariable kk (spelled.kind.trans named) ke derived kc⟩

theorem carries_expressionEnd (shifts : L.Shifts a b) {value : Expr}
    (valued : L.Carries a b style n w (.expression value) m)
    (closed : closing.kind = .symbol .semicolon) :
    L.Carries a b style n (w ++ [closing]) (.expressionStatement (.expression value)) m := by
  intro _ n' (.expressionStatement ⟨fs, all, alike⟩) hn
  cases alike with
  | expression given =>
    obtain ⟨w', m', hm, hw, derived⟩ := valued _ n' (.expression ⟨fs, all, given⟩) hn
    obtain ⟨closing', hc, kc⟩ := shifts.token closed
    exact ⟨_, m', hm, List.rel_append hw (.cons hc .nil), .expressionEnd derived kc⟩

theorem carries_noInitializer (shifts : L.Shifts a b) (closed : closing.kind = .symbol .semicolon) :
    L.Carries a b style n [closing] (.initializer none) n := by
  intro _ n' .noInitializer hn
  obtain ⟨closing', hc, kc⟩ := shifts.token closed
  exact ⟨_, n', hn, .cons hc .nil, .noInitializer kc⟩

theorem carries_print (shifts : L.Shifts a b) {value : Expr}
    (keyed : keyword.kind = .keyword .printWord)
    (valued : L.Carries a b style n w (.expression value) m)
    (closed : closing.kind = .symbol .semicolon) :
    L.Carries a b style n (keyword :: (w ++ [closing])) (.statement false (.print value)) m := by
  intro _ n' (.statement _ ⟨fs, all, alike⟩) hn
  cases alike with
  | print given =>
    obtain ⟨w', m', hm, hw, derived⟩ := valued _ n' (.expression ⟨fs, all, given⟩) hn
    obtain ⟨keyword', hk, kk⟩ := shifts.token keyed
    obtain ⟨closing', hc, kc⟩ := shifts.token closed
    exact ⟨_, m', hm, .cons hk (List.rel_append hw (.cons hc .nil)), .print kk derived kc⟩

theorem carries_returnWith (shifts : L.Shifts a b) {value : Option Expr}
    (keyed : keyword.kind = .keyword .returnWord)
    (valued : L.Carries a b style n w (.optional value) m)
    (closed : closing.kind = .symbol .semicolon) :
    L.Carries a b style n (keyword :: (w ++ [closing]))
      (.statement false (.returnWith keyword value)) m := by
  intro _ n' (.statement _ ⟨fs, all, alike⟩) hn
  obtain ⟨keyword', value', rfl, same, given⟩ := alike.returned all
  obtain ⟨w', m', hm, hw, derived⟩ := valued _ n' given hn
  obtain ⟨closing', hc, kc⟩ := shifts.token closed
  exact ⟨_, m', hm, .cons (.inl same) (List.rel_append hw (.cons hc .nil)),
    .returnWith (same.kind.trans keyed) derived kc⟩

theorem carries_block (shifts : L.Shifts a b) {body : List Stmt}
    (opened : opening.kind = .symbol .leftBrace)
    (content : L.Carries a b style n w (.declarations body) m)
    (closed : closing.kind = .symbol .rightBrace) :
    L.Carries a b style n (opening :: (w ++ [closing])) (.statement false (.block body)) m := by
  intro _ n' (.statement _ ⟨fs, all, alike⟩) hn
  cases alike with
  | @block f _ _ _ spelling inside =>
    have within := List.forall_mem_cons.mpr ⟨spelling, all⟩
    obtain ⟨w', m', hm, hw, derived⟩ := content _ n' (.declarations ⟨f :: fs, within, inside⟩) hn
    obtain ⟨opening', ho, ko⟩ := shifts.token opened
    obtain ⟨closing', hc, kc⟩ := shifts.token closed
    exact ⟨_, m', hm, .cons ho (List.rel_append hw (.cons hc .nil)), .block ko derived kc⟩

theorem carries_whileLoop (shifts : L.Shifts a b) {test : Expr} {endsOpen : Bool} {body : Stmt}
    (keyed : keyword.kind = .keyword .whileWord) (opened : opening.kind = .symbol .leftParen)
    (tested : L.Carries a b style n w (.expression test) m)
    (closed : closing.kind = .symbol .rightParen)
    (repeated : L.Carries a b style m w₁ (.statement endsOpen body) k) :
    L.Carries a b style n (keyword :: opening :: (w ++ closing :: w₁))
      (.statement endsOpen (.whileLoop test body)) k := by
  intro _ n' (.statement _ ⟨fs, all, alike⟩) hn
  cases alike with
  | whileLoop testAlike bodyAlike =>
    obtain ⟨w', m', hm, hw, derived⟩ := tested _ n' (.expression ⟨fs, all, testAlike⟩) hn
    obtain ⟨w₁', k', hk, hw₁, body'⟩ := repeated _ m' (.statement _ ⟨fs, all, bodyAlike⟩) hm
    obtain ⟨keyword', hy, ky⟩ := shifts.token keyed
    obtain ⟨opening', ho, ko⟩ := shifts.token opened
    obtain ⟨closing', hc, kc⟩ := shifts.token closed
    exact ⟨_, k', hk, .cons hy (.cons ho (List.rel_append hw (.cons hc hw₁))),
      .whileLoop ky ko derived kc body'⟩

theorem carries_forLoop (shifts : L.Shifts a b) {first : Option Stmt} {test after : Option Expr}
    {endsOpen : Bool} {body : Stmt} {semicolon : Token} (keyed : keyword.kind = .keyword .forWord)
    (opened : opening.kind = .symbol .leftParen)
    (initialized : L.Carries a b style n w (.initializer first) m)
    (tested : L.Carries a b style m w₁ (.optional test) k)
    (separated : semicolon.kind = .symbol .semicolon)
    (increased : L.Carries a b style k w₂ (.optional after) l)
    (closed : closing.kind = .symbol .rightParen)
    (repeated : L.Carries a b style l w₃ (.statement endsOpen body) i) :
    L.Carries a b style n
      (keyword :: opening :: (w ++ (w₁ ++ semicolon :: (w₂ ++ closing :: w₃))))
      (.statement endsOpen (ForClauses.loop ⟨first, test, after⟩ body)) i := by
  intro _ n' (.statement _ ⟨fs, all, alike⟩) hn
  obtain ⟨first', test', after', body', rfl, firstAlike, testAlike, afterAlike, bodyAlike⟩ :=
    alike.loop all endsOpen
  obtain ⟨w', m', hm, hw, derived⟩ := initialized _ n' firstAlike hn
  obtain ⟨w₁', k', hk, hw₁, test⟩ := tested _ m' testAlike hm
  obtain ⟨w₂', l', hl, hw₂, increment⟩ := increased _ k' afterAlike hk
  obtain ⟨w₃', i', hi, hw₃, body⟩ := repeated _ l' bodyAlike hl
  obtain ⟨keyword', hy, ky⟩ := shifts.token keyed
  obtain ⟨opening', ho, ko⟩ := shifts.token opened
  obtain ⟨semicolon', hs, ks⟩ := shifts.token separated
  obtain ⟨closing', hc, kc⟩ := shifts.token closed
  have words := List.rel_append hw₁ (.cons hs (List.rel_append hw₂ (.cons hc hw₃)))
  exact ⟨_, i', hi, .cons hy (.cons ho (List.rel_append hw words)),
    .forLoop ky ko derived test ks increment kc body⟩

theorem carries_ifThen (shifts : L.Shifts a b) {test : Expr} {endsOpen : Bool} {branch : Stmt}
    (keyed : keyword.kind = .keyword .ifWord) (opened : opening.kind = .symbol .leftParen)
    (tested : L.Carries a b style n w (.expression test) m)
    (closed : closing.kind = .symbol .rightParen)
    (chosen : L.Carries a b style m w₁ (.statement endsOpen branch) k) :
    L.Carries a b style n (keyword :: opening :: (w ++ closing :: w₁))
      (.statement true (.ifElse test branch none)) k := by
  intro _ n' (.statement _ ⟨fs, all, alike⟩) hn
  cases alike with
  | ifThen testAlike branchAlike =>
    obtain ⟨w', m', hm, hw, derived⟩ := tested _ n' (.expression ⟨fs, all, testAlike⟩) hn
    obtain ⟨w₁', k', hk, hw₁, branch'⟩ := chosen _ m' (.statement _ ⟨fs, all, branchAlike⟩) hm
    obtain ⟨keyword', hy, ky⟩ := shifts.token keyed
    obtain ⟨opening', ho, ko⟩ := shifts.token opened
    obtain ⟨closing', hc, kc⟩ := shifts.token closed
    exact ⟨_, k', hk, .cons hy (.cons ho (List.rel_append hw (.cons hc hw₁))),
      .ifThen ky ko derived kc branch'⟩

theorem carries_ifElse (shifts : L.Shifts a b) {test : Expr} {thenOpen elseOpen : Bool}
    {branch other : Stmt} {elseToken : Token} (keyed : keyword.kind = .keyword .ifWord)
    (opened : opening.kind = .symbol .leftParen)
    (tested : L.Carries a b style n w (.expression test) m)
    (closed : closing.kind = .symbol .rightParen)
    (chosen : L.Carries a b style m w₁ (.statement thenOpen branch) k)
    (attached : style = .nearest → thenOpen = false)
    (alternated : elseToken.kind = .keyword .elseWord)
    (rejected : L.Carries a b style k w₂ (.statement elseOpen other) l) :
    L.Carries a b style n (keyword :: opening :: (w ++ closing :: (w₁ ++ elseToken :: w₂)))
      (.statement elseOpen (.ifElse test branch (some other))) l := by
  intro _ n' (.statement _ ⟨fs, all, alike⟩) hn
  cases alike with
  | ifElse testAlike branchAlike otherAlike =>
    obtain ⟨w', m', hm, hw, derived⟩ := tested _ n' (.expression ⟨fs, all, testAlike⟩) hn
    obtain ⟨w₁', k', hk, hw₁, branch'⟩ := chosen _ m' (.statement _ ⟨fs, all, branchAlike⟩) hm
    obtain ⟨w₂', l', hl, hw₂, other'⟩ := rejected _ k' (.statement _ ⟨fs, all, otherAlike⟩) hk
    obtain ⟨keyword', hy, ky⟩ := shifts.token keyed
    obtain ⟨opening', ho, ko⟩ := shifts.token opened
    obtain ⟨closing', hc, kc⟩ := shifts.token closed
    obtain ⟨else', he, ke⟩ := shifts.token alternated
    have words := List.rel_append hw (.cons hc (List.rel_append hw₁ (.cons he hw₂)))
    exact ⟨_, l', hl, .cons hy (.cons ho words),
      .ifElse ky ko derived kc branch' attached ke other'⟩

/-! ### Declarations -/

theorem carries_functionDeclaration (shifts : L.Shifts a b) {decl : FunctionDecl}
    (keyed : keyword.kind = .keyword .funWord)
    (declared : L.Carries a b style n w (.function decl) m) :
    L.Carries a b style n (keyword :: w) (.declaration (.functionDecl decl)) m := by
  intro _ n' (.declaration ⟨fs, all, alike⟩) hn
  cases alike with
  | functionDecl _ inside =>
    obtain ⟨w', m', hm, hw, derived⟩ := declared _ n' (.function ⟨fs, all, inside⟩) hn
    obtain ⟨keyword', hy, ky⟩ := shifts.token keyed
    exact ⟨_, m', hm, .cons hy hw, .functionDeclaration ky derived⟩

theorem carries_baseClass (shifts : L.Shifts a b) {methods : List FunctionDecl}
    (keyed : keyword.kind = .keyword .classWord) (named : name.kind = .identifier)
    (opened : opening.kind = .symbol .leftBrace)
    (listed : L.Carries a b style n w (.functions methods) m)
    (closed : closing.kind = .symbol .rightBrace) :
    L.Carries a b style n (keyword :: name :: opening :: (w ++ [closing]))
      (.declaration (.classDecl name none methods)) m := by
  intro _ n' (.declaration ⟨fs, all, alike⟩) hn
  cases alike with
  | baseClass kept inside =>
    -- The scope of `this` keeps all spellings.
    have within := List.forall_mem_cons.mpr ⟨L.plain, all⟩
    obtain ⟨w', m', hm, hw, derived⟩ := listed _ n' (.functions ⟨id :: fs, within, inside⟩) hn
    obtain ⟨keyword', hy, ky⟩ := shifts.token keyed
    obtain ⟨opening', ho, ko⟩ := shifts.token opened
    obtain ⟨closing', hc, kc⟩ := shifts.token closed
    have words := List.rel_append hw (.cons hc .nil)
    exact ⟨_, m', hm, .cons hy (.cons (.inl kept.toSame) (.cons ho words)),
      .baseClass ky (kept.kind.trans named) ko derived kc⟩

theorem carries_derivedClass (shifts : L.Shifts a b) {less parent : Token}
    {methods : List FunctionDecl} (keyed : keyword.kind = .keyword .classWord)
    (named : name.kind = .identifier) (inherits : less.kind = .symbol .less)
    (parented : parent.kind = .identifier) (opened : opening.kind = .symbol .leftBrace)
    (listed : L.Carries a b style (n + 1) w (.functions methods) m)
    (closed : closing.kind = .symbol .rightBrace) :
    L.Carries a b style n (keyword :: name :: less :: parent :: opening :: (w ++ [closing]))
      (.declaration (.classDecl name (some (.var n parent)) methods)) m := by
  intro _ n' (.declaration ⟨fs, all, alike⟩) hn
  cases alike with
  | derivedClass kept occurs inside =>
    -- So does that of `super` around it.
    have within := List.forall_mem_cons.mpr ⟨L.plain, List.forall_mem_cons.mpr ⟨L.plain, all⟩⟩
    obtain ⟨w', m', hm, hw, derived⟩ :=
      listed _ (n' + 1) (.functions ⟨id :: id :: fs, within, inside⟩) (by omega)
    obtain rfl := occurs.number shifts hn rfl
    have token := occurs.token all parented
    obtain ⟨keyword', hy, ky⟩ := shifts.token keyed
    obtain ⟨less', hl, kl⟩ := shifts.token inherits
    obtain ⟨opening', ho, ko⟩ := shifts.token opened
    obtain ⟨closing', hc, kc⟩ := shifts.token closed
    have words := List.rel_append hw (.cons hc .nil)
    exact ⟨_, m', hm, .cons hy (.cons (.inl kept.toSame) (.cons hl (.cons token (.cons ho words)))),
      .derivedClass ky (kept.kind.trans named) kl (token.kind.trans parented) ko derived kc⟩

theorem carries_moreDeclarations {tree : Stmt} {trees : List Stmt}
    (one : L.Carries a b style n w (.declaration tree) m)
    (others : L.Carries a b style m w₁ (.declarations trees) k) :
    L.Carries a b style n (w ++ w₁) (.declarations (tree :: trees)) k := by
  intro _ n' (.declarations ⟨fs, all, alike⟩) hn
  cases alike with
  | moreStmts first rest =>
    obtain ⟨w', m', hm, hw, derived⟩ := one _ n' (.declaration ⟨fs, all, first⟩) hn
    obtain ⟨w₁', k', hk, hw₁, more⟩ := others _ m' (.declarations ⟨fs, all, rest⟩) hm
    exact ⟨_, k', hk, List.rel_append hw hw₁, .moreDeclarations derived more⟩

theorem carries_function (shifts : L.Shifts a b) {params : List Token} {body : List Stmt}
    {brace endBrace : Token} (named : name.kind = .identifier)
    (opened : opening.kind = .symbol .leftParen) (listed : OptionalParameters w params)
    (closed : closing.kind = .symbol .rightParen) (entered : brace.kind = .symbol .leftBrace)
    (content : L.Carries a b style n w₁ (.declarations body) m)
    (left : endBrace.kind = .symbol .rightBrace) :
    L.Carries a b style n (name :: opening :: (w ++ closing :: brace :: (w₁ ++ [endBrace])))
      (.function ⟨name, params, body⟩) m := by
  intro _ n' (.function ⟨fs, all, alike⟩) hn
  cases alike with
  | @function f _ _ _ _ _ _ _ _ spelling same spelled inside =>
    have within := List.forall_mem_cons.mpr ⟨spelling, all⟩
    obtain ⟨w', hw, parameters⟩ := optionalParameters_alike shifts spelling listed spelled
    obtain ⟨w₁', m', hm, hw₁, derived⟩ :=
      content _ n' (.declarations ⟨f :: fs, within, inside⟩) hn
    obtain ⟨opening', ho, ko⟩ := shifts.token opened
    obtain ⟨closing', hc, kc⟩ := shifts.token closed
    obtain ⟨brace', hb, kb⟩ := shifts.token entered
    obtain ⟨endBrace', he, ke⟩ := shifts.token left
    have bodyWords := List.rel_append hw₁ (.cons he .nil)
    exact ⟨_, m', hm,
      .cons (.inl same) (.cons ho (List.rel_append hw (.cons hc (.cons hb bodyWords)))),
      .function (same.kind.trans named) ko parameters kc kb derived ke⟩

theorem carries_moreFunctions {decl : FunctionDecl} {decls : List FunctionDecl}
    (one : L.Carries a b style n w (.function decl) m)
    (others : L.Carries a b style m w₁ (.functions decls) k) :
    L.Carries a b style n (w ++ w₁) (.functions (decl :: decls)) k := by
  intro _ n' (.functions ⟨fs, all, alike⟩) hn
  cases alike with
  | moreFunctions first rest =>
    obtain ⟨w', m', hm, hw, derived⟩ := one _ n' (.function ⟨fs, all, first⟩) hn
    obtain ⟨w₁', k', hk, hw₁, more⟩ := others _ m' (.functions ⟨fs, all, rest⟩) hm
    exact ⟨_, k', hk, List.rel_append hw hw₁, .moreFunctions derived more⟩

end

/-- A tree that is alike to the tree of a derivation has a derivation from tokens that stand for
those of the first one. -/
theorem carries_of_derives (shifts : L.Shifts a b) {style : DanglingElse} {n m : Nat}
    {w : List Token} {phrase : Phrase} (h : Derives style n w phrase m) :
    L.Carries a b style n w phrase m := by
  induction h with
  | literal denotes => exact carries_literal shifts denotes
  | this keyed => exact carries_this shifts keyed
  | «variable» named => exact carries_variable shifts named
  | super keyed dotted named => exact carries_super shifts keyed dotted named
  | grouping opened _ closed ih => exact carries_grouping shifts opened ih closed
  | simple _ ih => exact ih.above fun | _, .call alike => ⟨_, .primary alike, fun _ _ _ => .simple⟩
  | emptyCall _ opened closed ih => exact carries_emptyCall shifts ih opened closed
  | call _ opened _ bounded closed ih ih' => exact carries_call shifts ih opened ih' bounded closed
  | property _ dotted named ih => exact carries_property shifts ih dotted named
  | unaryOperation operates _ ih => exact carries_unaryOperation operates ih
  | access _ ih => exact ih.above fun | _, .unary alike => ⟨_, .call alike, fun _ _ _ => .access⟩
  | tightest _ ih =>
    exact ih.above fun | _, .tier _ alike => ⟨_, .unary alike, fun _ _ _ => .tightest⟩
  | tighter _ ih =>
    exact ih.above fun | _, .tier _ alike => ⟨_, .tier _ alike, fun _ _ _ => .tighter⟩
  | operation _ operates _ ih ih' => exact carries_operation ih operates ih'
  | plain _ ih =>
    exact ih.above fun | _, .expression alike => ⟨_, .tier _ alike, fun _ _ _ => .plain⟩
  | assignment named assigned _ ih => exact carries_assignment shifts named assigned ih
  | propertyAssignment _ dotted named assigned _ ih ih' =>
    exact carries_propertyAssignment shifts ih dotted named assigned ih'
  | lastArgument _ ih => exact carries_lastArgument ih
  | moreArguments _ separated _ ih ih' => exact carries_moreArguments shifts ih separated ih'
  | omitted => exact fun | _, n', .omitted, hn => ⟨[], n', hn, .nil, .omitted⟩
  | given _ ih =>
    exact ih.above fun | _, .given alike => ⟨_, .expression alike, fun _ _ _ => .given⟩
  | bareVariable keyed named closed => exact carries_bareVariable shifts keyed named closed
  | initializedVariable keyed named assigned _ closed ih =>
    exact carries_initializedVariable shifts keyed named assigned ih closed
  | expressionEnd _ closed ih => exact carries_expressionEnd shifts ih closed
  | noInitializer closed => exact carries_noInitializer shifts closed
  | variableInitializer _ ih =>
    exact ih.above fun
      | _, .initializer alike => ⟨_, .varDeclaration alike, fun _ _ _ => .variableInitializer⟩
  | expressionInitializer _ ih =>
    exact ih.above fun
      | _, .initializer alike => ⟨_, .expressionStatement alike, fun _ _ _ => .expressionInitializer⟩
  | evaluation _ ih =>
    exact ih.above fun
      | _, .statement _ alike => ⟨_, .expressionStatement alike, fun _ _ _ => .evaluation⟩
  | print keyed _ closed ih => exact carries_print shifts keyed ih closed
  | returnWith keyed _ closed ih => exact carries_returnWith shifts keyed ih closed
  | block opened _ closed ih => exact carries_block shifts opened ih closed
  | whileLoop keyed opened _ closed _ ih ih' =>
    exact carries_whileLoop shifts keyed opened ih closed ih'
  | forLoop keyed opened _ _ separated _ closed _ ih ih₁ ih₂ ih₃ =>
    exact carries_forLoop shifts keyed opened ih ih₁ separated ih₂ closed ih₃
  | ifThen keyed opened _ closed _ ih ih' => exact carries_ifThen shifts keyed opened ih closed ih'
  | ifElse keyed opened _ closed _ attached alternated _ ih ih₁ ih₂ =>
    exact carries_ifElse shifts keyed opened ih closed ih₁ attached alternated ih₂
  | ordinary _ ih =>
    exact ih.above fun | _, .declaration alike => ⟨_, .statement _ alike, fun _ _ _ => .ordinary⟩
  | variableDeclaration _ ih =>
    exact ih.above fun
      | _, .declaration alike => ⟨_, .varDeclaration alike, fun _ _ _ => .variableDeclaration⟩
  | functionDeclaration keyed _ ih => exact carries_functionDeclaration shifts keyed ih
  | baseClass keyed named opened _ closed ih =>
    exact carries_baseClass shifts keyed named opened ih closed
  | derivedClass keyed named inherits parented opened _ closed ih =>
    exact carries_derivedClass shifts keyed named inherits parented opened ih closed
  | noDeclarations =>
    intro _ n' (.declarations ⟨fs, all, alike⟩) hn
    cases alike
    exact ⟨[], n', hn, .nil, .noDeclarations⟩
  | moreDeclarations _ _ ih ih' => exact carries_moreDeclarations ih ih'
  | function named opened listed closed entered _ left ih =>
    exact carries_function shifts named opened listed closed entered ih left
  | noFunctions =>
    intro _ n' (.functions ⟨fs, all, alike⟩) hn
    cases alike
    exact ⟨[], n', hn, .nil, .noFunctions⟩
  | moreFunctions _ _ ih ih' => exact carries_moreFunctions ih ih'

end Link

end Lox
