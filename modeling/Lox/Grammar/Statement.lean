import Lox.Grammar.Reply
import Lox.Tree

/-!
# Reading expressions, statements and programs

Assignment binds loosest and to the right. Below it stand six tiers of binary operators that
group to the left, then the unary operators, then calls and property accesses. What stands
to the left of an equals sign is read as an expression first and judged afterwards.

A declaration that is stuck is dropped with its fault noted, and reading goes on at the next
likely start of a statement; so a block or a program is read to its end whatever it holds.
Each dropped declaration has used up a token or the input was at its end.
-/
namespace Lox.Grammar

/-- Reads a token of one kind, or is stuck for the given cause. -/
def Input.expect (s : Input) (kind : TokenKind) (cause : ParseCause) : Reply Token s.size :=
  match s.take kind with
  | some ⟨token, left, _⟩ => .pure token left
  | none => .expected cause s

/-! ## Expressions -/

/-- A call or a declaration may have this many arguments or parameters before it is noted
as a fault. -/
def maxArguments : Nat := 255

inductive Tier where
  | disjunction
  | conjunction
  | equality
  | comparison
  | sum
  | product
  deriving DecidableEq, Repr

/-- The tiers from the loosest to the tightest. -/
def Tier.all : List Tier := [.disjunction, .conjunction, .equality, .comparison, .sum, .product]

theorem Tier.length_all : Tier.all.length = 6 := rfl

def Tier.holds : Tier → TokenKind → Bool
  | .disjunction, .keyword .orWord => true
  | .conjunction, .keyword .andWord => true
  | .equality, .symbol .bangEqual => true
  | .equality, .symbol .equalEqual => true
  | .comparison, .symbol .greater => true
  | .comparison, .symbol .greaterEqual => true
  | .comparison, .symbol .less => true
  | .comparison, .symbol .lessEqual => true
  | .sum, .symbol .minus => true
  | .sum, .symbol .plus => true
  | .product, .symbol .star => true
  | .product, .symbol .slash => true
  | _, _ => false

/-- The two loosest tiers evaluate their right operand only on demand. -/
def Tier.node : Tier → Expr → Token → Expr → Expr
  | .disjunction, left, operator, right => .logical left operator right
  | .conjunction, left, operator, right => .logical left operator right
  | _, left, operator, right => .binary left operator right

def isUnary : TokenKind → Bool
  | .symbol .bang => true
  | .symbol .minus => true
  | _ => false

/-- The tree of an assignment. A target that cannot be assigned to stands for the whole, and
the fault is noted at the equals sign. -/
def assignTo {n : Nat} (target : Expr) (equals : Token) (value : Expr) (s : Input)
    (h : s.size < n) : Reply Expr n :=
  match target with
  | .var _ name => .tagged (fun id => .assign id name value) s
  | .get object name => .pure (.set object name value) s
  | other => .done other [.parse .assignmentTarget equals] s h

mutual

def expression (s : Input) : Reply Expr s.size :=
  (tiers Tier.all s).andThen fun target s₁ _ =>
    match s₁.take (.symbol .equal) with
    | none => .pure target s₁
    | some ⟨equals, s₂, _⟩ =>
      (expression s₂).andThen fun value s₃ _ => assignTo target equals value s₃ (by omega)
termination_by s.size * 16 + 12
decreasing_by
  · simp only [Tier.length_all]
    omega
  · omega

/-- An expression of the first tier of a list, whose operands are of the tiers after it. -/
def tiers (ts : List Tier) (s : Input) : Reply Expr s.size :=
  match ts with
  | [] => unary s
  | t :: ts => (tiers ts s).andThen fun left s₁ _ => (operators t ts left s₁).widen
termination_by s.size * 16 + ts.length + 3
decreasing_by all_goals (simp only [List.length_nil, List.length_cons]; omega)

/-- Further operators of a tier after a left operand. -/
def operators (t : Tier) (ts : List Tier) (left : Expr) (s : Input) : Reply Expr (s.size + 1) :=
  match s.take? t.holds with
  | none => .pure left s
  | some ⟨operator, s₁, _⟩ =>
    (tiers ts s₁).andThen fun right s₂ _ =>
      (operators t ts (t.node left operator right) s₂).widen
termination_by s.size * 16 + ts.length + 3

def unary (s : Input) : Reply Expr s.size :=
  match s.take? isUnary with
  | some ⟨operator, s₁, _⟩ =>
    (unary s₁).andThen fun right s₂ _ => .pure (.unary operator right) s₂
  | none => (primary s).andThen fun callee s₁ _ => (accesses callee s₁).widen
termination_by s.size * 16 + 1

/-- Calls and property accesses after a callee or an object. -/
def accesses (target : Expr) (s : Input) : Reply Expr (s.size + 1) :=
  match s.take (.symbol .leftParen) with
  | some ⟨_, s₁, _⟩ =>
    match s₁.take (.symbol .rightParen) with
    | some ⟨paren, s₂, _⟩ => (accesses (.call target paren []) s₂).widen
    | none =>
      (arguments 0 s₁).andThen fun found s₂ _ =>
        (accesses (.call target found.2 found.1) s₂).widen
  | none =>
    match s.take (.symbol .dot) with
    | some ⟨_, s₁, _⟩ =>
      (s₁.expect .identifier .propertyName).andThen fun name s₂ _ =>
        (accesses (.get target name) s₂).widen
    | none => .pure target s
termination_by s.size * 16

/-- The arguments of a call up to its closing parenthesis, the first being number `count`. -/
def arguments (count : Nat) (s : Input) : Reply (List Expr × Token) s.size :=
  let crowded := if maxArguments ≤ count then [.parse .tooManyArguments s.peek] else []
  let found := (expression s).andThen fun argument s₁ _ =>
    match s₁.take (.symbol .comma) with
    | some ⟨_, s₂, _⟩ =>
      (arguments (count + 1) s₂).andThen fun more s₃ _ => .pure (argument :: more.1, more.2) s₃
    | none =>
      (s₁.expect (.symbol .rightParen) .argumentsClose).andThen fun paren s₂ _ =>
        .pure ([argument], paren) s₂
  found.noting crowded
termination_by s.size * 16 + 13

def primary (s : Input) : Reply Expr s.size :=
  match s.next? with
  | none => .expected .expression s
  | some ⟨t, s₁, _⟩ =>
    match t.kind with
    | .keyword .falseWord => .pure (.literal (.bool false)) s₁
    | .keyword .trueWord => .pure (.literal (.bool true)) s₁
    | .keyword .nilWord => .pure (.literal .nil) s₁
    | .number value => .pure (.literal (.number value)) s₁
    | .string text => .pure (.literal (.string text)) s₁
    | .keyword .thisWord => .tagged (fun id => .thisRef id t) s₁
    | .identifier => .tagged (fun id => .var id t) s₁
    | .keyword .superWord =>
      (s₁.expect (.symbol .dot) .superDot).andThen fun _ s₂ _ =>
        (s₂.expect .identifier .superMethodName).andThen fun method s₃ _ =>
          .tagged (fun id => .superRef id t method) s₃
    | .symbol .leftParen =>
      (expression s₁).andThen fun inner s₂ _ =>
        (s₂.expect (.symbol .rightParen) .groupingClose).andThen fun _ s₃ _ =>
          .pure (.grouping inner) s₃
    | _ => .expected .expression s
termination_by s.size * 16

end

/-! ## Statements and programs -/

/-- Words at which reading goes on after a fault. -/
def startsStatement : TokenKind → Bool
  | .keyword .classWord => true
  | .keyword .funWord => true
  | .keyword .varWord => true
  | .keyword .forWord => true
  | .keyword .ifWord => true
  | .keyword .whileWord => true
  | .keyword .printWord => true
  | .keyword .returnWord => true
  | _ => false

/-- What is left after the first semicolon or before the first starting word; `last` is the
token already skipped. -/
def skipStatement (last : Token) : List Token → List Token
  | [] => []
  | t :: ts =>
    if last.kind = .symbol .semicolon || startsStatement t.kind then t :: ts
    else skipStatement t ts

theorem length_skipStatement_le (last : Token) (ts : List Token) :
    (skipStatement last ts).length ≤ ts.length := by
  induction ts generalizing last with
  | nil => exact Nat.le_refl 0
  | cons t ts ih =>
    unfold skipStatement
    split
    · exact Nat.le_refl _
    · exact Nat.le_succ_of_le (ih t)

/-- Skips the token at a fault and goes on to where a statement may start. -/
def Input.recover (s : Input) : Input :=
  match s.rest with
  | [] => s
  | t :: ts => { s with rest := skipStatement t ts }

theorem Input.size_recover_lt {s : Input} {n : Nat} (h : s.size ≤ n) (pos : n ≠ 0) :
    s.recover.size < n := by
  unfold recover
  split
  · next hr => simp [size, hr]; omega
  · next t ts hr =>
    have := length_skipStatement_le t ts
    simp [size, hr] at h ⊢
    omega

/-- What reading a declaration leaves: a statement unless it was dropped. -/
structure Recovered (n : Nat) where
  statement : Option Stmt
  noted : List Fault
  left : Input
  shorter : left.size < n

def Reply.recovered {n : Nat} (r : Reply Stmt n) (pos : n ≠ 0) : Recovered n :=
  match r with
  | .done statement noted left h => ⟨some statement, noted, left, h⟩
  | .stuck fault noted left h =>
    ⟨none, noted ++ [fault], left.recover, Input.size_recover_lt h pos⟩

/-- An optional expression up to a closing symbol. -/
def clause (close : Symbol) (cause : ParseCause) (s : Input) : Reply (Option Expr) s.size :=
  match s.take (.symbol close) with
  | some ⟨_, s₁, _⟩ => .pure none s₁
  | none =>
    (expression s).andThen fun value s₁ _ =>
      (s₁.expect (.symbol close) cause).andThen fun _ s₂ _ => .pure (some value) s₂

def expressionStatement (s : Input) : Reply Stmt s.size :=
  (expression s).andThen fun value s₁ _ =>
    (s₁.expect (.symbol .semicolon) .expressionEnd).andThen fun _ s₂ _ =>
      .pure (.expression value) s₂

def printStatement (s : Input) : Reply Stmt s.size :=
  (expression s).andThen fun value s₁ _ =>
    (s₁.expect (.symbol .semicolon) .printEnd).andThen fun _ s₂ _ => .pure (.print value) s₂

def returnStatement (keyword : Token) (s : Input) : Reply Stmt s.size :=
  (clause .semicolon .returnEnd s).andThen fun value s₁ _ => .pure (.returnWith keyword value) s₁

def varDeclaration (s : Input) : Reply Stmt s.size :=
  (s.expect .identifier .variableName).andThen fun name s₁ _ =>
    match s₁.take (.symbol .equal) with
    | some ⟨_, s₂, _⟩ =>
      (expression s₂).andThen fun value s₃ _ =>
        (s₃.expect (.symbol .semicolon) .variableEnd).andThen fun _ s₄ _ =>
          .pure (.varDecl name (some value)) s₄
    | none =>
      (s₁.expect (.symbol .semicolon) .variableEnd).andThen fun _ s₂ _ =>
        .pure (.varDecl name none) s₂

/-- A parenthesised condition. -/
def condition (opening closing : ParseCause) (s : Input) : Reply Expr s.size :=
  (s.expect (.symbol .leftParen) opening).andThen fun _ s₁ _ =>
    (expression s₁).andThen fun value s₂ _ =>
      (s₂.expect (.symbol .rightParen) closing).andThen fun _ s₃ _ => .pure value s₃

structure ForClauses where
  initializer : Option Stmt
  condition : Option Expr
  increment : Option Expr

/-- What precedes the first semicolon of a `for`. -/
def forInitializer (s : Input) : Reply (Option Stmt) s.size :=
  match s.take (.symbol .semicolon) with
  | some ⟨_, s₁, _⟩ => .pure none s₁
  | none =>
    match s.take (.keyword .varWord) with
    | some ⟨_, s₁, _⟩ => (varDeclaration s₁).andThen fun stmt s₂ _ => .pure (some stmt) s₂
    | none => (expressionStatement s).andThen fun stmt s₁ _ => .pure (some stmt) s₁

def forClauses (s : Input) : Reply ForClauses s.size :=
  (s.expect (.symbol .leftParen) .forOpen).andThen fun _ s₁ _ =>
    (forInitializer s₁).andThen fun initializer s₂ _ =>
      (clause .semicolon .conditionEnd s₂).andThen fun condition s₃ _ =>
        (clause .rightParen .forClose s₃).andThen fun increment s₄ _ =>
          .pure ⟨initializer, condition, increment⟩ s₄

/-- A `for` loop in terms of `while`: the increment runs after the body in a block of the
two, the initializer once before the loop in a block around both. An absent clause leaves out
its block, an absent condition is true. -/
def ForClauses.loop (clauses : ForClauses) (body : Stmt) : Stmt :=
  let inner := match clauses.increment with
    | some increment => .block [body, .expression increment]
    | none => body
  let loop := .whileLoop (clauses.condition.getD (.literal (.bool true))) inner
  match clauses.initializer with
  | some initializer => .block [initializer, loop]
  | none => loop

/-- Parameters up to the closing parenthesis, the first being number `count`. -/
def parameters (count : Nat) (s : Input) : Reply (List Token) s.size :=
  let crowded := if maxArguments ≤ count then [.parse .tooManyParameters s.peek] else []
  let found := (s.expect .identifier .parameterName).andThen fun parameter s₁ _ =>
    match s₁.take (.symbol .comma) with
    | some ⟨_, s₂, _⟩ =>
      (parameters (count + 1) s₂).andThen fun more s₃ _ => .pure (parameter :: more) s₃
    | none =>
      (s₁.expect (.symbol .rightParen) .parametersClose).andThen fun _ s₂ _ => .pure [parameter] s₂
  found.noting crowded
termination_by s.size

/-- The name and the parameters of a function, up to the brace that opens its body. -/
def signature (kind : Callable) (s : Input) : Reply (Token × List Token) s.size :=
  (s.expect .identifier (.callableName kind)).andThen fun name s₁ _ =>
    (s₁.expect (.symbol .leftParen) (.parametersOpen kind)).andThen fun _ s₂ _ =>
      let params : Reply (List Token) s₂.size := match s₂.take (.symbol .rightParen) with
        | some ⟨_, s₃, _⟩ => .pure [] s₃
        | none => parameters 0 s₂
      params.andThen fun params s₃ _ =>
        (s₃.expect (.symbol .leftBrace) (.bodyOpen kind)).andThen fun _ s₄ _ =>
          .pure (name, params) s₄

/-- The name and the superclass of a class, up to the brace that opens its body. -/
def classHead (s : Input) : Reply (Token × Option Expr) s.size :=
  (s.expect .identifier .className).andThen fun name s₁ _ =>
    match s₁.take (.symbol .less) with
    | some ⟨_, s₂, _⟩ =>
      (s₂.expect .identifier .superclassName).andThen fun parent s₃ _ =>
        let superclass : Reply Expr s.size := .tagged (fun id => .var id parent) s₃
        superclass.andThen fun superclass s₄ _ =>
          (s₄.expect (.symbol .leftBrace) .classOpen).andThen fun _ s₅ _ =>
            .pure (name, some superclass) s₅
    | none =>
      (s₁.expect (.symbol .leftBrace) .classOpen).andThen fun _ s₂ _ => .pure (name, none) s₂

mutual

/-- A statement that declares nothing. -/
def statement (s : Input) : Reply Stmt s.size :=
  match s.next? with
  | none => expressionStatement s
  | some ⟨t, s₁, _⟩ =>
    match t.kind with
    | .keyword .forWord =>
      (forClauses s₁).andThen fun clauses s₂ _ =>
        (statement s₂).andThen fun body s₃ _ => .pure (clauses.loop body) s₃
    | .keyword .ifWord =>
      (condition .ifOpen .ifClose s₁).andThen fun test s₂ _ =>
        (statement s₂).andThen fun thenBranch s₃ _ =>
          match s₃.take (.keyword .elseWord) with
          | some ⟨_, s₄, _⟩ =>
            (statement s₄).andThen fun elseBranch s₅ _ =>
              .pure (.ifElse test thenBranch (some elseBranch)) s₅
          | none => .pure (.ifElse test thenBranch none) s₃
    | .keyword .printWord => (printStatement s₁).widen
    | .keyword .returnWord => (returnStatement t s₁).widen
    | .keyword .whileWord =>
      (condition .whileOpen .whileClose s₁).andThen fun test s₂ _ =>
        (statement s₂).andThen fun body s₃ _ => .pure (.whileLoop test body) s₃
    | .symbol .leftBrace => (block s₁).andThen fun body s₂ _ => .pure (.block body) s₂
    | _ => expressionStatement s
termination_by s.size * 4

/-- Declarations up to the closing brace. -/
def block (s : Input) : Reply (List Stmt) s.size :=
  match s.take (.symbol .rightBrace) with
  | some ⟨_, s₁, _⟩ => .pure [] s₁
  | none =>
    if pos : s.size = 0 then .expected .blockClose s
    else
      match declaration s pos with
      | ⟨stmt, noted, s₁, _⟩ =>
        ((block s₁).andThen fun rest s₂ _ => .pure (stmt.toList ++ rest) s₂).noting noted
termination_by s.size * 4 + 3

/-- One declaration or statement, or none and the fault that stopped it. -/
def declaration (s : Input) (pos : s.size ≠ 0) : Recovered s.size :=
  (declarationOrStuck s).recovered pos
termination_by s.size * 4 + 2

def declarationOrStuck (s : Input) : Reply Stmt s.size :=
  match s.next? with
  | none => statement s
  | some ⟨t, s₁, _⟩ =>
    match t.kind with
    | .keyword .classWord =>
      (classHead s₁).andThen fun head s₂ _ =>
        (methods s₂).andThen fun methods s₃ _ => .pure (.classDecl head.1 head.2 methods) s₃
    | .keyword .funWord =>
      (function .function s₁).andThen fun decl s₂ _ => .pure (.functionDecl decl) s₂
    | .keyword .varWord => (varDeclaration s₁).widen
    | _ => statement s
termination_by s.size * 4 + 1

/-- Methods up to the closing brace of their class. -/
def methods (s : Input) : Reply (List FunctionDecl) s.size :=
  match s.take (.symbol .rightBrace) with
  | some ⟨_, s₁, _⟩ => .pure [] s₁
  | none =>
    if s.size = 0 then .expected .classClose s
    else
      (function .method s).andThen fun method s₁ _ =>
        (methods s₁).andThen fun rest s₂ _ => .pure (method :: rest) s₂
termination_by s.size * 4 + 1

def function (kind : Callable) (s : Input) : Reply FunctionDecl s.size :=
  (signature kind s).andThen fun head s₁ _ =>
    (block s₁).andThen fun body s₂ _ => .pure ⟨head.1, head.2, body⟩ s₂
termination_by s.size * 4

end

end Grammar

/-- What a list of tokens was read as. The program may be run only if there are no faults. -/
structure Parsed where
  statements : List Stmt
  faults : List Fault
  nextId : Nat

namespace Grammar

def program (s : Input) : Parsed :=
  if pos : s.size = 0 then ⟨[], [], s.nextId⟩
  else
    match declaration s pos with
    | ⟨stmt, noted, left, _⟩ =>
      let rest := program left
      ⟨stmt.toList ++ rest.statements, noted ++ rest.faults, rest.nextId⟩
termination_by s.size

end Grammar

/-- Reads tokens up to the first end of input, numbering occurrences from `nextId` on. -/
def parse (tokens : List Token) (nextId : Nat) : Parsed :=
  Grammar.program (.ofTokens tokens nextId)

end Lox
