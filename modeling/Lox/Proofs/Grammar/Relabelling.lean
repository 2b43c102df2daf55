import Lox.Grammar.Statement

/-!
# Numbers do not matter for reading

A tree can be given other numbers and other lines. A reader never looks at the count of
occurrences: where it starts `k` further on, the same tokens give the same tree with every number
`k` larger, and the same faults.
-/
namespace Lox

def Token.moved (line : Nat → Nat) (t : Token) : Token := ⟨t.kind, t.lexeme, line t.line⟩

def Fault.moved (line : Nat → Nat) : Fault → Fault
  | .lex cause l => .lex cause (line l)
  | .parse cause token => .parse cause (token.moved line)
  | .scope cause token => .scope cause (token.moved line)
  | .runtime cause l => .runtime cause (line l)
  | .output cause => .output cause

theorem Fault.moved_id (f : Fault) : f.moved id = f := by
  cases f <;> rfl

section
variable (number line : Nat → Nat)

mutual

/-- The tree with other numbers and other lines. -/
def Expr.relabel : Expr → Expr
  | .assign id name value => .assign (number id) (name.moved line) value.relabel
  | .binary left operator right => .binary left.relabel (operator.moved line) right.relabel
  | .call callee paren arguments =>
    .call callee.relabel (paren.moved line) (Expr.relabelAll arguments)
  | .get object name => .get object.relabel (name.moved line)
  | .grouping inner => .grouping inner.relabel
  | .literal value => .literal value
  | .logical left operator right => .logical left.relabel (operator.moved line) right.relabel
  | .set object name value => .set object.relabel (name.moved line) value.relabel
  | .superRef id keyword method =>
    .superRef (number id) (keyword.moved line) (method.moved line)
  | .thisRef id keyword => .thisRef (number id) (keyword.moved line)
  | .unary operator right => .unary (operator.moved line) right.relabel
  | .var id name => .var (number id) (name.moved line)

def Expr.relabelAll : List Expr → List Expr
  | [] => []
  | e :: es => e.relabel :: Expr.relabelAll es

end

mutual

def Stmt.relabel : Stmt → Stmt
  | .block body => .block (Stmt.relabelAll body)
  | .classDecl name none methods =>
    .classDecl (name.moved line) none (FunctionDecl.relabelAll methods)
  | .classDecl name (some parent) methods =>
    .classDecl (name.moved line) (some (parent.relabel number line))
      (FunctionDecl.relabelAll methods)
  | .expression value => .expression (value.relabel number line)
  | .functionDecl decl => .functionDecl decl.relabel
  | .ifElse condition branch none =>
    .ifElse (condition.relabel number line) branch.relabel none
  | .ifElse condition branch (some other) =>
    .ifElse (condition.relabel number line) branch.relabel (some other.relabel)
  | .print value => .print (value.relabel number line)
  | .returnWith keyword value =>
    .returnWith (keyword.moved line) (value.map (Expr.relabel number line))
  | .varDecl name value => .varDecl (name.moved line) (value.map (Expr.relabel number line))
  | .whileLoop condition body => .whileLoop (condition.relabel number line) body.relabel

def Stmt.relabelAll : List Stmt → List Stmt
  | [] => []
  | s :: ss => s.relabel :: Stmt.relabelAll ss

def FunctionDecl.relabel : FunctionDecl → FunctionDecl
  | ⟨name, params, body⟩ =>
    ⟨name.moved line, params.map (Token.moved line), Stmt.relabelAll body⟩

def FunctionDecl.relabelAll : List FunctionDecl → List FunctionDecl
  | [] => []
  | decl :: decls => decl.relabel :: FunctionDecl.relabelAll decls

end

end

/-! ## Where numbers and lines stay -/

mutual

theorem Expr.relabel_same (e : Expr) : e.relabel id id = e := by
  cases e with
  | assign number name value =>
    rw [Expr.relabel, Expr.relabel_same value]
    rfl
  | binary left operator right =>
    rw [Expr.relabel, Expr.relabel_same left, Expr.relabel_same right]
    rfl
  | call callee paren arguments =>
    rw [Expr.relabel, Expr.relabel_same callee, Expr.relabelAll_same arguments]
    rfl
  | get object name =>
    rw [Expr.relabel, Expr.relabel_same object]
    rfl
  | grouping inner => rw [Expr.relabel, Expr.relabel_same inner]
  | literal value => rfl
  | logical left operator right =>
    rw [Expr.relabel, Expr.relabel_same left, Expr.relabel_same right]
    rfl
  | set object name value =>
    rw [Expr.relabel, Expr.relabel_same object, Expr.relabel_same value]
    rfl
  | superRef number keyword method => rfl
  | thisRef number keyword => rfl
  | unary operator right =>
    rw [Expr.relabel, Expr.relabel_same right]
    rfl
  | var number name => rfl

theorem Expr.relabelAll_same (es : List Expr) : Expr.relabelAll id id es = es := by
  cases es with
  | nil => rfl
  | cons e es => rw [Expr.relabelAll, Expr.relabel_same e, Expr.relabelAll_same es]

end

theorem Expr.map_relabel_same (e : Option Expr) : e.map (Expr.relabel id id) = e := by
  rw [funext Expr.relabel_same]
  exact congrFun Option.map_id e

mutual

theorem Stmt.relabel_same (s : Stmt) : s.relabel id id = s := by
  cases s with
  | block body => rw [Stmt.relabel, Stmt.relabelAll_same body]
  | classDecl name parent methods =>
    cases parent with
    | none =>
      rw [Stmt.relabel, FunctionDecl.relabelAll_same methods]
      rfl
    | some e =>
      rw [Stmt.relabel, e.relabel_same, FunctionDecl.relabelAll_same methods]
      rfl
  | expression value => rw [Stmt.relabel, value.relabel_same]
  | functionDecl decl => rw [Stmt.relabel, FunctionDecl.relabel_same decl]
  | ifElse condition branch other =>
    cases other with
    | none => rw [Stmt.relabel, condition.relabel_same, Stmt.relabel_same branch]
    | some other =>
      rw [Stmt.relabel, condition.relabel_same, Stmt.relabel_same branch, Stmt.relabel_same other]
  | print value => rw [Stmt.relabel, value.relabel_same]
  | returnWith keyword value =>
    rw [Stmt.relabel, Expr.map_relabel_same]
    rfl
  | varDecl name value =>
    rw [Stmt.relabel, Expr.map_relabel_same]
    rfl
  | whileLoop condition body =>
    rw [Stmt.relabel, condition.relabel_same, Stmt.relabel_same body]

theorem Stmt.relabelAll_same (ss : List Stmt) : Stmt.relabelAll id id ss = ss := by
  cases ss with
  | nil => rfl
  | cons s ss => rw [Stmt.relabelAll, Stmt.relabel_same s, Stmt.relabelAll_same ss]

theorem FunctionDecl.relabel_same (decl : FunctionDecl) : decl.relabel id id = decl := by
  obtain ⟨name, params, body⟩ := decl
  have listed : params.map (Token.moved id) = params := List.map_id params
  rw [FunctionDecl.relabel, listed, Stmt.relabelAll_same body]
  rfl

theorem FunctionDecl.relabelAll_same (decls : List FunctionDecl) :
    FunctionDecl.relabelAll id id decls = decls := by
  cases decls with
  | nil => rfl
  | cons decl decls =>
    rw [FunctionDecl.relabelAll, FunctionDecl.relabel_same decl,
      FunctionDecl.relabelAll_same decls]

end

section
variable (number line number' line' : Nat → Nat)

mutual

theorem Expr.relabel_relabel (e : Expr) :
    (e.relabel number line).relabel number' line' =
      e.relabel (number' ∘ number) (line' ∘ line) := by
  cases e with
  | assign _ _ value =>
    simp only [Expr.relabel, Expr.relabel_relabel value]
    rfl
  | binary left _ right =>
    simp only [Expr.relabel, Expr.relabel_relabel left, Expr.relabel_relabel right]
    rfl
  | call callee _ arguments =>
    simp only [Expr.relabel, Expr.relabel_relabel callee, Expr.relabelAll_relabelAll arguments]
    rfl
  | get object =>
    simp only [Expr.relabel, Expr.relabel_relabel object]
    rfl
  | grouping inner => simp only [Expr.relabel, Expr.relabel_relabel inner]
  | literal => rfl
  | logical left _ right =>
    simp only [Expr.relabel, Expr.relabel_relabel left, Expr.relabel_relabel right]
    rfl
  | set object _ value =>
    simp only [Expr.relabel, Expr.relabel_relabel object, Expr.relabel_relabel value]
    rfl
  | superRef => rfl
  | thisRef => rfl
  | unary _ right =>
    simp only [Expr.relabel, Expr.relabel_relabel right]
    rfl
  | var => rfl

theorem Expr.relabelAll_relabelAll (es : List Expr) :
    Expr.relabelAll number' line' (Expr.relabelAll number line es) =
      Expr.relabelAll (number' ∘ number) (line' ∘ line) es := by
  cases es with
  | nil => rfl
  | cons e es =>
    simp only [Expr.relabelAll, Expr.relabel_relabel e, Expr.relabelAll_relabelAll es]

end

theorem Expr.map_relabel_relabel (e : Option Expr) :
    (e.map (Expr.relabel number line)).map (Expr.relabel number' line') =
      e.map (Expr.relabel (number' ∘ number) (line' ∘ line)) := by
  rw [Option.map_map]
  exact congrArg (e.map ·) (funext (Expr.relabel_relabel number line number' line'))

mutual

theorem Stmt.relabel_relabel (s : Stmt) :
    (s.relabel number line).relabel number' line' =
      s.relabel (number' ∘ number) (line' ∘ line) := by
  cases s with
  | block body => simp only [Stmt.relabel, Stmt.relabelAll_relabelAll body]
  | classDecl _ parent methods =>
    cases parent with
    | none =>
      simp only [Stmt.relabel, FunctionDecl.relabelAll_relabelAll methods]
      rfl
    | some e =>
      simp only [Stmt.relabel, e.relabel_relabel, FunctionDecl.relabelAll_relabelAll methods]
      rfl
  | expression value => simp only [Stmt.relabel, value.relabel_relabel]
  | functionDecl decl => simp only [Stmt.relabel, FunctionDecl.relabel_relabel decl]
  | ifElse condition branch other =>
    cases other with
    | none => simp only [Stmt.relabel, condition.relabel_relabel, Stmt.relabel_relabel branch]
    | some other =>
      simp only [Stmt.relabel, condition.relabel_relabel, Stmt.relabel_relabel branch,
        Stmt.relabel_relabel other]
  | print value => simp only [Stmt.relabel, value.relabel_relabel]
  | returnWith _ value =>
    simp only [Stmt.relabel, Expr.map_relabel_relabel]
    rfl
  | varDecl _ value =>
    simp only [Stmt.relabel, Expr.map_relabel_relabel]
    rfl
  | whileLoop condition body =>
    simp only [Stmt.relabel, condition.relabel_relabel, Stmt.relabel_relabel body]

theorem Stmt.relabelAll_relabelAll (ss : List Stmt) :
    Stmt.relabelAll number' line' (Stmt.relabelAll number line ss) =
      Stmt.relabelAll (number' ∘ number) (line' ∘ line) ss := by
  cases ss with
  | nil => rfl
  | cons s ss =>
    simp only [Stmt.relabelAll, Stmt.relabel_relabel s, Stmt.relabelAll_relabelAll ss]

theorem FunctionDecl.relabel_relabel (decl : FunctionDecl) :
    (decl.relabel number line).relabel number' line' =
      decl.relabel (number' ∘ number) (line' ∘ line) := by
  obtain ⟨name, params, body⟩ := decl
  simp only [FunctionDecl.relabel, List.map_map, Stmt.relabelAll_relabelAll body]
  rfl

theorem FunctionDecl.relabelAll_relabelAll (decls : List FunctionDecl) :
    FunctionDecl.relabelAll number' line' (FunctionDecl.relabelAll number line decls) =
      FunctionDecl.relabelAll (number' ∘ number) (line' ∘ line) decls := by
  cases decls with
  | nil => rfl
  | cons decl decls =>
    simp only [FunctionDecl.relabelAll, FunctionDecl.relabel_relabel decl,
      FunctionDecl.relabelAll_relabelAll decls]

end

end

theorem Stmt.relabelAll_append (number line : Nat → Nat) (ss ss' : List Stmt) :
    Stmt.relabelAll number line (ss ++ ss') =
      Stmt.relabelAll number line ss ++ Stmt.relabelAll number line ss' := by
  induction ss with
  | nil => rfl
  | cons s ss ih => simp only [List.cons_append, Stmt.relabelAll, ih]

/-- A function keeps its parameters if lines stay. -/
theorem FunctionDecl.relabel_id (number : Nat → Nat) (decl : FunctionDecl) :
    decl.relabel number id = ⟨decl.name, decl.params, Stmt.relabelAll number id decl.body⟩ := by
  obtain ⟨name, params, body⟩ := decl
  show FunctionDecl.mk name (params.map id) _ = _
  rw [List.map_id]

namespace Grammar

variable {α β γ δ : Type} {n m : Nat} (k : Nat)

/-- The same input with its count of occurrences further on. -/
def Input.forward (s : Input) : Input := { s with nextId := k + s.nextId }

def Taken.forward (t : Taken n) : Taken n := ⟨t.token, t.left.forward k, t.shorter⟩

namespace Reply

/-- The same reply with its value changed and its count further on. -/
def forward (g : α → β) : Reply α n → Reply β n
  | done value noted left h => done (g value) noted (left.forward k) h
  | stuck fault noted left h => stuck fault noted (left.forward k) h

variable {k} {g : α → β}

theorem forward_noting {r : Reply α n} {r' : Reply β n} (h : r' = r.forward k g)
    (earlier : List Fault) : r'.noting earlier = (r.noting earlier).forward k g := by
  subst h
  cases r <;> rfl

theorem forward_widen {r : Reply α n} {r' : Reply β n} (h : r' = r.forward k g) {le : n ≤ m} :
    r'.widen le = (r.widen le).forward k g := by
  subst h
  cases r <;> rfl

theorem forward_andThen {g' : γ → δ} {r : Reply α n} {r' : Reply β n}
    {next : α → (left : Input) → left.size < n → Reply γ m}
    {next' : β → (left : Input) → left.size < n → Reply δ m} {le : n ≤ m}
    (first : r' = r.forward k g)
    (rest : ∀ value left h, next' (g value) (left.forward k) h = (next value left h).forward k g') :
    r'.andThen next' le = (r.andThen next le).forward k g' := by
  subst first
  cases r with
  | done value noted left h =>
    exact forward_noting (rest value left h) noted
  | stuck => rfl

end Reply

namespace Input

variable {k}

theorem forward_next? (s : Input) : (s.forward k).next? = s.next?.map (Taken.forward k) := by
  obtain ⟨rest, close, id⟩ := s
  cases rest <;> rfl

theorem forward_take? (s : Input) (accepts : TokenKind → Bool) :
    (s.forward k).take? accepts = (s.take? accepts).map (Taken.forward k) := by
  rw [take?, take?, forward_next?]
  cases s.next? with
  | none => rfl
  | some t =>
    show (if accepts t.token.kind then some (t.forward k) else none) =
      (if accepts t.token.kind then some t else none).map (Taken.forward k)
    split <;> rfl

theorem forward_take (s : Input) (kind : TokenKind) :
    (s.forward k).take kind = (s.take kind).map (Taken.forward k) :=
  forward_take? s _

theorem forward_expect (s : Input) (kind : TokenKind) (cause : ParseCause) :
    (s.forward k).expect kind cause = (s.expect kind cause).forward k id := by
  rw [expect, expect, forward_take]
  cases s.take kind <;> rfl

end Input

open Reply Input

/-! ## Expressions -/

theorem forward_assignTo (target value : Expr) (equals : Token) (s : Input) (h : s.size < n) :
    assignTo (target.relabel (k + ·) id) equals (value.relabel (k + ·) id) (s.forward k) h =
      (assignTo target equals value s h).forward k (Expr.relabel (k + ·) id) := by
  cases target <;> rfl

theorem relabel_node (t : Tier) (left : Expr) (operator : Token) (right : Expr) :
    (t.node left operator right).relabel (k + ·) id =
      t.node (left.relabel (k + ·) id) operator (right.relabel (k + ·) id) := by
  cases t <;> rfl

mutual

theorem forward_expression (s : Input) :
    expression (s.forward k) = (expression s).forward k (Expr.relabel (k + ·) id) := by
  rw [expression, expression]
  refine forward_andThen (forward_tiers Tier.all s) fun target s₁ (h₁ : s₁.size < s.size) => ?_
  rw [forward_take]
  cases s₁.take (.symbol .equal) with
  | none => rfl
  | some taken =>
    obtain ⟨equals, s₂, h₂⟩ := taken
    exact forward_andThen (forward_expression s₂) fun value s₃ h₃ => forward_assignTo k ..
termination_by s.size * 16 + 12
decreasing_by
  · simp only [Tier.length_all]
    omega
  · omega

theorem forward_tiers (ts : List Tier) (s : Input) :
    tiers ts (s.forward k) = (tiers ts s).forward k (Expr.relabel (k + ·) id) := by
  cases ts with
  | nil =>
    rw [tiers, tiers]
    exact forward_unary s
  | cons t ts =>
    rw [tiers, tiers]
    exact forward_andThen (forward_tiers ts s) fun left s₁ (h₁ : s₁.size < s.size) =>
      forward_widen (forward_operators t ts left s₁)
termination_by s.size * 16 + ts.length + 3
decreasing_by all_goals (simp only [List.length_nil, List.length_cons]; omega)

theorem forward_operators (t : Tier) (ts : List Tier) (left : Expr) (s : Input) :
    operators t ts (left.relabel (k + ·) id) (s.forward k) =
      (operators t ts left s).forward k (Expr.relabel (k + ·) id) := by
  rw [operators, operators, forward_take?]
  cases s.take? t.holds with
  | none => rfl
  | some taken =>
    obtain ⟨operator, s₁, h₁⟩ := taken
    refine forward_andThen (forward_tiers ts s₁) fun right s₂ (h₂ : s₂.size < s₁.size) => ?_
    rw [← relabel_node]
    exact forward_widen (forward_operators t ts _ s₂)
termination_by s.size * 16 + ts.length + 3

theorem forward_unary (s : Input) :
    unary (s.forward k) = (unary s).forward k (Expr.relabel (k + ·) id) := by
  rw [unary, unary, forward_take?]
  cases s.take? isUnary with
  | none =>
    exact forward_andThen (forward_primary s) fun callee s₁ (h₁ : s₁.size < s.size) =>
      forward_widen (forward_accesses callee s₁)
  | some taken =>
    obtain ⟨operator, s₁, h₁⟩ := taken
    exact forward_andThen (forward_unary s₁) fun right s₂ h₂ => rfl
termination_by s.size * 16 + 1

theorem forward_accesses (target : Expr) (s : Input) :
    accesses (target.relabel (k + ·) id) (s.forward k) =
      (accesses target s).forward k (Expr.relabel (k + ·) id) := by
  rw [accesses, accesses, forward_take]
  cases s.take (.symbol .leftParen) with
  | some taken =>
    obtain ⟨_, s₁, h₁⟩ := taken
    simp only [Option.map_some, Taken.forward, forward_take]
    cases s₁.take (.symbol .rightParen) with
    | some taken =>
      obtain ⟨paren, s₂, h₂⟩ := taken
      exact forward_widen (forward_accesses (.call target paren []) s₂)
    | none =>
      exact forward_andThen (forward_arguments 0 s₁) fun found s₂ (h₂ : s₂.size < s₁.size) =>
        forward_widen (forward_accesses (.call target found.2 found.1) s₂)
  | none =>
    simp only [Option.map_none, forward_take]
    cases s.take (.symbol .dot) with
    | some taken =>
      obtain ⟨_, s₁, h₁⟩ := taken
      exact forward_andThen (forward_expect s₁ _ _) fun name s₂ (h₂ : s₂.size < s₁.size) =>
        forward_widen (forward_accesses (.get target name) s₂)
    | none => rfl
termination_by s.size * 16

theorem forward_arguments (count : Nat) (s : Input) :
    arguments count (s.forward k) =
      (arguments count s).forward k (Prod.map (Expr.relabelAll (k + ·) id) id) := by
  rw [arguments, arguments]
  refine forward_noting (forward_andThen (forward_expression s)
    fun argument s₁ (h₁ : s₁.size < s.size) => ?_) _
  rw [forward_take]
  cases s₁.take (.symbol .comma) with
  | some taken =>
    obtain ⟨_, s₂, h₂⟩ := taken
    exact forward_andThen (forward_arguments (count + 1) s₂) fun more s₃ h₃ => rfl
  | none => exact forward_andThen (forward_expect s₁ _ _) fun paren s₂ h₂ => rfl
termination_by s.size * 16 + 13

theorem forward_primary (s : Input) :
    primary (s.forward k) = (primary s).forward k (Expr.relabel (k + ·) id) := by
  rw [primary, primary, forward_next?]
  cases s.next? with
  | none => rfl
  | some taken =>
    obtain ⟨t, s₁, h₁⟩ := taken
    simp only [Option.map_some, Taken.forward]
    split
    · rfl
    · rfl
    · rfl
    · rfl
    · rfl
    · rfl
    · rfl
    · refine forward_andThen (forward_expect s₁ _ _) fun _ s₂ h₂ => ?_
      exact forward_andThen (forward_expect s₂ _ _) fun method s₃ h₃ => rfl
    · refine forward_andThen (forward_expression s₁) fun inner s₂ h₂ => ?_
      exact forward_andThen (forward_expect s₂ _ _) fun _ s₃ h₃ => rfl
    · rfl
termination_by s.size * 16

end

/-! ## Statements -/

theorem forward_clause (close : Symbol) (cause : ParseCause) (s : Input) :
    clause close cause (s.forward k) =
      (clause close cause s).forward k (Option.map (Expr.relabel (k + ·) id)) := by
  rw [clause, clause, forward_take]
  cases s.take (.symbol close) with
  | some => rfl
  | none =>
    refine forward_andThen (forward_expression k s) fun value s₁ h₁ => ?_
    exact forward_andThen (forward_expect s₁ _ _) fun _ s₂ h₂ => rfl

theorem forward_expressionStatement (s : Input) :
    expressionStatement (s.forward k) =
      (expressionStatement s).forward k (Stmt.relabel (k + ·) id) := by
  refine forward_andThen (forward_expression k s) fun value s₁ h₁ => ?_
  exact forward_andThen (forward_expect s₁ _ _) fun _ s₂ h₂ => rfl

theorem forward_printStatement (s : Input) :
    printStatement (s.forward k) = (printStatement s).forward k (Stmt.relabel (k + ·) id) := by
  refine forward_andThen (forward_expression k s) fun value s₁ h₁ => ?_
  exact forward_andThen (forward_expect s₁ _ _) fun _ s₂ h₂ => rfl

theorem forward_returnStatement (keyword : Token) (s : Input) :
    returnStatement keyword (s.forward k) =
      (returnStatement keyword s).forward k (Stmt.relabel (k + ·) id) :=
  forward_andThen (forward_clause k _ _ s) fun _ _ _ => rfl

theorem forward_varDeclaration (s : Input) :
    varDeclaration (s.forward k) = (varDeclaration s).forward k (Stmt.relabel (k + ·) id) := by
  refine forward_andThen (forward_expect s _ _) fun name s₁ h₁ => ?_
  rw [forward_take]
  cases s₁.take (.symbol .equal) with
  | some taken =>
    obtain ⟨_, s₂, h₂⟩ := taken
    refine forward_andThen (forward_expression k s₂) fun value s₃ h₃ => ?_
    exact forward_andThen (forward_expect s₃ _ _) fun _ s₄ h₄ => rfl
  | none => exact forward_andThen (forward_expect s₁ _ _) fun _ s₂ h₂ => rfl

theorem forward_condition (opening closing : ParseCause) (s : Input) :
    condition opening closing (s.forward k) =
      (condition opening closing s).forward k (Expr.relabel (k + ·) id) := by
  refine forward_andThen (forward_expect s _ _) fun _ s₁ h₁ => ?_
  refine forward_andThen (forward_expression k s₁) fun value s₂ h₂ => ?_
  exact forward_andThen (forward_expect s₂ _ _) fun _ s₃ h₃ => rfl

theorem forward_forInitializer (s : Input) :
    forInitializer (s.forward k) =
      (forInitializer s).forward k (Option.map (Stmt.relabel (k + ·) id)) := by
  rw [forInitializer, forInitializer, forward_take]
  cases s.take (.symbol .semicolon) with
  | some => rfl
  | none =>
    simp only [Option.map_none, forward_take]
    cases s.take (.keyword .varWord) with
    | some taken =>
      obtain ⟨_, s₁, h₁⟩ := taken
      exact forward_andThen (forward_varDeclaration k s₁) fun stmt s₂ h₂ => rfl
    | none => exact forward_andThen (forward_expressionStatement k s) fun stmt s₁ h₁ => rfl

def ForClauses.relabel (number line : Nat → Nat) (c : ForClauses) : ForClauses where
  initializer := c.initializer.map (Stmt.relabel number line)
  condition := c.condition.map (Expr.relabel number line)
  increment := c.increment.map (Expr.relabel number line)

theorem ForClauses.relabel_loop (number line : Nat → Nat) (c : ForClauses) (body : Stmt) :
    (c.loop body).relabel number line =
      (c.relabel number line).loop (body.relabel number line) := by
  obtain ⟨initializer, condition, increment⟩ := c
  cases initializer <;> cases condition <;> cases increment <;> rfl

theorem forward_forClauses (s : Input) :
    forClauses (s.forward k) = (forClauses s).forward k (ForClauses.relabel (k + ·) id) := by
  refine forward_andThen (forward_expect s _ _) fun _ s₁ h₁ => ?_
  refine forward_andThen (forward_forInitializer k s₁) fun initializer s₂ h₂ => ?_
  refine forward_andThen (forward_clause k _ _ s₂) fun condition s₃ h₃ => ?_
  exact forward_andThen (forward_clause k _ _ s₃) fun increment s₄ h₄ => rfl

theorem forward_parameters (count : Nat) (s : Input) :
    parameters count (s.forward k) = (parameters count s).forward k id := by
  rw [parameters, parameters]
  refine forward_noting (forward_andThen (forward_expect s _ _)
    fun parameter s₁ (h₁ : s₁.size < s.size) => ?_) _
  rw [forward_take]
  cases s₁.take (.symbol .comma) with
  | some taken =>
    obtain ⟨_, s₂, h₂⟩ := taken
    exact forward_andThen (forward_parameters (count + 1) s₂) fun more s₃ h₃ => rfl
  | none => exact forward_andThen (forward_expect s₁ _ _) fun _ s₂ h₂ => rfl
termination_by s.size

theorem forward_signature (kind : Callable) (s : Input) :
    signature kind (s.forward k) = (signature kind s).forward k id := by
  refine forward_andThen (forward_expect s _ _) fun name s₁ h₁ => ?_
  refine forward_andThen (forward_expect s₁ _ _) fun _ s₂ h₂ => ?_
  refine forward_andThen ?_ fun params s₃ h₃ =>
    forward_andThen (g := id) (forward_expect s₃ _ _) fun _ s₄ h₄ => rfl
  rw [forward_take]
  cases s₂.take (.symbol .rightParen) with
  | some => rfl
  | none => exact forward_parameters k 0 s₂

theorem forward_classHead (s : Input) :
    classHead (s.forward k) =
      (classHead s).forward k (Prod.map id (Option.map (Expr.relabel (k + ·) id))) := by
  refine forward_andThen (forward_expect s _ _) fun name s₁ h₁ => ?_
  rw [forward_take]
  cases s₁.take (.symbol .less) with
  | some taken =>
    obtain ⟨_, s₂, h₂⟩ := taken
    refine forward_andThen (forward_expect s₂ _ _) fun parent s₃ h₃ => ?_
    refine forward_andThen (g := Expr.relabel (k + ·) id) rfl fun superclass s₄ h₄ => ?_
    exact forward_andThen (forward_expect s₄ _ _) fun _ s₅ h₅ => rfl
  | none => exact forward_andThen (forward_expect s₁ _ _) fun _ s₂ h₂ => rfl

theorem forward_recover (s : Input) : (s.forward k).recover = s.recover.forward k := by
  obtain ⟨rest, close, id⟩ := s
  cases rest <;> rfl

def Recovered.forward (r : Recovered n) : Recovered n :=
  ⟨r.statement.map (Stmt.relabel (k + ·) id), r.noted, r.left.forward k, r.shorter⟩

variable {k} in
theorem forward_recovered {r r' : Reply Stmt n} (h : r' = r.forward k (Stmt.relabel (k + ·) id))
    (pos : n ≠ 0) : r'.recovered pos = (r.recovered pos).forward k := by
  subst h
  cases r with
  | done => rfl
  | stuck fault noted left h =>
    simp only [Reply.forward, Reply.recovered, Recovered.forward, forward_recover, Option.map_none]

mutual

theorem forward_statement (s : Input) :
    statement (s.forward k) = (statement s).forward k (Stmt.relabel (k + ·) id) := by
  rw [statement, statement, forward_next?]
  cases s.next? with
  | none => exact forward_expressionStatement k s
  | some taken =>
    obtain ⟨t, s₁, h₁⟩ := taken
    simp only [Option.map_some, Taken.forward]
    split
    · refine forward_andThen (forward_forClauses k s₁) fun clauses s₂ (h₂ : s₂.size < s₁.size) => ?_
      refine forward_andThen (forward_statement s₂) fun body s₃ h₃ => ?_
      rw [← ForClauses.relabel_loop]
      rfl
    · refine forward_andThen (forward_condition k _ _ s₁) fun test s₂ (h₂ : s₂.size < s₁.size) => ?_
      refine forward_andThen (forward_statement s₂)
        fun thenBranch s₃ (h₃ : s₃.size < s₂.size) => ?_
      rw [forward_take]
      cases s₃.take (.keyword .elseWord) with
      | some taken =>
        obtain ⟨_, s₄, h₄⟩ := taken
        exact forward_andThen (forward_statement s₄) fun other s₅ h₅ => rfl
      | none => rfl
    · exact forward_widen (forward_printStatement k s₁)
    · exact forward_widen (forward_returnStatement k t s₁)
    · refine forward_andThen (forward_condition k _ _ s₁) fun test s₂ (h₂ : s₂.size < s₁.size) => ?_
      exact forward_andThen (forward_statement s₂) fun body s₃ h₃ => rfl
    · exact forward_andThen (forward_block s₁) fun body s₂ h₂ => rfl
    · exact forward_expressionStatement k s
termination_by s.size * 4

theorem forward_block (s : Input) :
    block (s.forward k) = (block s).forward k (Stmt.relabelAll (k + ·) id) := by
  rw [block, block, forward_take]
  cases s.take (.symbol .rightBrace) with
  | some => rfl
  | none =>
    by_cases pos : s.size = 0
    · have pos' : (s.forward k).size = 0 := pos
      simp only [pos, pos', dite_true]
      rfl
    · have pos' : (s.forward k).size ≠ 0 := pos
      simp only [pos, pos', dite_false]
      rw [forward_declaration s pos pos']
      obtain ⟨stmt, noted, s₁, h₁⟩ := declaration s pos
      refine forward_noting (forward_andThen (forward_block s₁) fun rest s₂ h₂ => ?_) noted
      cases stmt <;> rfl
termination_by s.size * 4 + 3

theorem forward_declaration (s : Input) (pos : s.size ≠ 0) (pos' : (s.forward k).size ≠ 0) :
    declaration (s.forward k) pos' = (declaration s pos).forward k := by
  rw [declaration, declaration]
  exact forward_recovered (forward_declarationOrStuck s) pos
termination_by s.size * 4 + 2

theorem forward_declarationOrStuck (s : Input) :
    declarationOrStuck (s.forward k) =
      (declarationOrStuck s).forward k (Stmt.relabel (k + ·) id) := by
  rw [declarationOrStuck, declarationOrStuck, forward_next?]
  cases s.next? with
  | none => exact forward_statement s
  | some taken =>
    obtain ⟨t, s₁, h₁⟩ := taken
    simp only [Option.map_some, Taken.forward]
    split
    · refine forward_andThen (forward_classHead k s₁) fun head s₂ (h₂ : s₂.size < s₁.size) => ?_
      refine forward_andThen (forward_methods s₂) fun decls s₃ h₃ => ?_
      obtain ⟨name, parent⟩ := head
      cases parent <;> rfl
    · exact forward_andThen (forward_function .function s₁) fun decl s₂ h₂ => rfl
    · exact forward_widen (forward_varDeclaration k s₁)
    · exact forward_statement s
termination_by s.size * 4 + 1

theorem forward_methods (s : Input) :
    methods (s.forward k) = (methods s).forward k (FunctionDecl.relabelAll (k + ·) id) := by
  rw [methods, methods, forward_take]
  cases s.take (.symbol .rightBrace) with
  | some => rfl
  | none =>
    by_cases pos : s.size = 0
    · have pos' : (s.forward k).size = 0 := pos
      simp only [pos, pos', if_true]
      rfl
    · have pos' : (s.forward k).size ≠ 0 := pos
      simp only [pos, pos', if_false]
      refine forward_andThen (forward_function .method s)
        fun method s₁ (h₁ : s₁.size < s.size) => ?_
      exact forward_andThen (forward_methods s₁) fun rest s₂ h₂ => rfl
termination_by s.size * 4 + 1

theorem forward_function (kind : Callable) (s : Input) :
    function kind (s.forward k) = (function kind s).forward k (FunctionDecl.relabel (k + ·) id) := by
  rw [function, function]
  refine forward_andThen (forward_signature k kind s) fun head s₁ (h₁ : s₁.size < s.size) => ?_
  refine forward_andThen (forward_block s₁) fun body s₂ h₂ => ?_
  simp only [Reply.pure, Reply.forward, FunctionDecl.relabel_id]
  rfl
termination_by s.size * 4

end

end Grammar

def Parsed.forward (k : Nat) (p : Parsed) : Parsed :=
  ⟨Stmt.relabelAll (k + ·) id p.statements, p.faults, k + p.nextId⟩

namespace Grammar

theorem forward_program (k : Nat) (s : Input) : program (s.forward k) = (program s).forward k := by
  rw [program, program]
  by_cases pos : s.size = 0
  · have pos' : (s.forward k).size = 0 := pos
    simp only [pos, pos', dite_true]
    rfl
  · have pos' : (s.forward k).size ≠ 0 := pos
    simp only [pos, pos', dite_false]
    rw [forward_declaration k s pos pos']
    obtain ⟨stmt, noted, left, h⟩ := declaration s pos
    simp only [Recovered.forward, forward_program k left]
    cases stmt <;> rfl
termination_by s.size

end Grammar

/-- Reading goes on from any number in the same way. -/
theorem parse_forward (tokens : List Token) (k n : Nat) :
    parse tokens (k + n) = (parse tokens n).forward k :=
  Grammar.forward_program k (.ofTokens tokens n)

end Lox
