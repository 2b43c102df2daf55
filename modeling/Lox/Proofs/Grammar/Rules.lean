import Lox.Grammar.Statement

/-!
# The grammar

```text
program      → declaration* ;
declaration  → classDecl | funDecl | varDecl | statement ;
classDecl    → "class" IDENT ( "<" IDENT )? "{" function* "}" ;
funDecl      → "fun" function ;
function     → IDENT "(" parameters? ")" block ;
varDecl      → "var" IDENT ( "=" expression )? ";" ;
statement    → exprStmt | forStmt | ifStmt | printStmt | returnStmt | whileStmt | block ;
forStmt      → "for" "(" ( varDecl | exprStmt | ";" ) expression? ";" expression? ")" statement ;
assignment   → ( call "." )? IDENT "=" assignment | logic_or ;
logic_or ... factor:  level → next ( operator next )* ;
unary        → ( "!" | "-" ) unary | call ;
call         → primary ( "(" arguments? ")" | "." IDENT )* ;
```

`Derives style n w phrase m` says that the rules derive the tokens `w` from a phrase. A phrase
is a nonterminal together with its tree. Occurrences are numbered on the way in the order in
which they are read, from `n` up to `m`; the numbers restrict nothing. A repetition `next
( operator next )*` is stated as a rule that is recursive on its left, which is how its
operators group.

The rules are ambiguous in one place, an `else` after two tests. In the style `nearest` a
branch that is followed by `else` does not end with a test that lacks one.
-/
namespace Lox.Grammar

/-- Which test an `else` may belong to. -/
inductive DanglingElse where
  | any
  | nearest
  deriving DecidableEq

inductive Phrase where
  | primary (tree : Expr)
  | call (tree : Expr)
  | unary (tree : Expr)
  | tier (tiers : List Tier) (tree : Expr)
  | expression (tree : Expr)
  | optional (tree : Option Expr)
  | arguments (trees : List Expr)
  | varDeclaration (tree : Stmt)
  | expressionStatement (tree : Stmt)
  | initializer (tree : Option Stmt)
  | statement (endsOpen : Bool) (tree : Stmt)
  | declaration (tree : Stmt)
  | declarations (trees : List Stmt)
  | function (tree : FunctionDecl)
  | functions (trees : List FunctionDecl)

/-- The literal that a token denotes, if it is one. -/
def literal? : TokenKind → Option Literal
  | .keyword .falseWord => some (.bool false)
  | .keyword .trueWord => some (.bool true)
  | .keyword .nilWord => some .nil
  | .number value => some (.number value)
  | .string text => some (.string text)
  | _ => none

inductive Parameters : List Token → List Token → Prop where
  | last {name : Token} (named : name.kind = .identifier) : Parameters [name] [name]
  | more {name comma : Token} {w names : List Token} (named : name.kind = .identifier)
      (separated : comma.kind = .symbol .comma) (rest : Parameters w names) :
      Parameters (name :: comma :: w) (name :: names)

inductive OptionalParameters : List Token → List Token → Prop where
  | none : OptionalParameters [] []
  | some {w names : List Token} (listed : Parameters w names)
      (bounded : names.length ≤ maxArguments) : OptionalParameters w names

/-- The rules, with an `if` marked as open when it lacks its `else`, and so any statement that
ends with one. -/
inductive Derives (style : DanglingElse) : Nat → List Token → Phrase → Nat → Prop where
  | literal {t : Token} {value : Literal} (denotes : literal? t.kind = some value) :
      Derives style n [t] (.primary (.literal value)) n
  | this (keyed : keyword.kind = .keyword .thisWord) :
      Derives style n [keyword] (.primary (.thisRef n keyword)) (n + 1)
  | variable (named : name.kind = .identifier) :
      Derives style n [name] (.primary (.var n name)) (n + 1)
  | super (keyed : keyword.kind = .keyword .superWord) (dotted : dot.kind = .symbol .dot)
      (named : name.kind = .identifier) :
      Derives style n [keyword, dot, name] (.primary (.superRef n keyword name)) (n + 1)
  | grouping {inner : Expr} (opened : opening.kind = .symbol .leftParen)
      (content : Derives style n w (.expression inner) m)
      (closed : closing.kind = .symbol .rightParen) :
      Derives style n (opening :: (w ++ [closing])) (.primary (.grouping inner)) m
  | simple {tree : Expr} (base : Derives style n w (.primary tree) m) :
      Derives style n w (.call tree) m
  | emptyCall {callee : Expr} (called : Derives style n w (.call callee) m)
      (opened : opening.kind = .symbol .leftParen) (closed : closing.kind = .symbol .rightParen) :
      Derives style n (w ++ [opening, closing]) (.call (.call callee closing [])) m
  | call {callee : Expr} {trees : List Expr} (called : Derives style n w (.call callee) m)
      (opened : opening.kind = .symbol .leftParen)
      (listed : Derives style m w₁ (.arguments trees) k) (bounded : trees.length ≤ maxArguments)
      (closed : closing.kind = .symbol .rightParen) :
      Derives style n (w ++ opening :: (w₁ ++ [closing])) (.call (.call callee closing trees)) k
  | property {object : Expr} (owner : Derives style n w (.call object) m)
      (dotted : dot.kind = .symbol .dot) (named : name.kind = .identifier) :
      Derives style n (w ++ [dot, name]) (.call (.get object name)) m
  | unaryOperation {right : Expr} (operates : isUnary operator.kind = true)
      (operand : Derives style n w (.unary right) m) :
      Derives style n (operator :: w) (.unary (.unary operator right)) m
  | access {tree : Expr} (base : Derives style n w (.call tree) m) :
      Derives style n w (.unary tree) m
  | tightest {tree : Expr} (base : Derives style n w (.unary tree) m) :
      Derives style n w (.tier [] tree) m
  | tighter {t : Tier} {ts : List Tier} {tree : Expr} (base : Derives style n w (.tier ts tree) m) :
      Derives style n w (.tier (t :: ts) tree) m
  | operation {t : Tier} {ts : List Tier} {left right : Expr}
      (before : Derives style n w (.tier (t :: ts) left) m)
      (operates : t.holds operator.kind = true) (after : Derives style m w₁ (.tier ts right) k) :
      Derives style n (w ++ operator :: w₁) (.tier (t :: ts) (t.node left operator right)) k
  | plain {tree : Expr} (base : Derives style n w (.tier Tier.all tree) m) :
      Derives style n w (.expression tree) m
  | assignment {value : Expr} (named : name.kind = .identifier)
      (assigned : equals.kind = .symbol .equal)
      (valued : Derives style (n + 1) w (.expression value) m) :
      Derives style n (name :: equals :: w) (.expression (.assign m name value)) (m + 1)
  | propertyAssignment {object value : Expr} (owner : Derives style n w (.call object) m)
      (dotted : dot.kind = .symbol .dot) (named : name.kind = .identifier)
      (assigned : equals.kind = .symbol .equal)
      (valued : Derives style m w₁ (.expression value) k) :
      Derives style n (w ++ dot :: name :: equals :: w₁) (.expression (.set object name value)) k
  | lastArgument {tree : Expr} (argument : Derives style n w (.expression tree) m) :
      Derives style n w (.arguments [tree]) m
  | moreArguments {comma : Token} {tree : Expr} {trees : List Expr}
      (argument : Derives style n w (.expression tree) m) (separated : comma.kind = .symbol .comma)
      (rest : Derives style m w₁ (.arguments trees) k) :
      Derives style n (w ++ comma :: w₁) (.arguments (tree :: trees)) k
  | omitted : Derives style n [] (.optional none) n
  | given {tree : Expr} (present : Derives style n w (.expression tree) m) :
      Derives style n w (.optional (some tree)) m
  | bareVariable (keyed : keyword.kind = .keyword .varWord) (named : name.kind = .identifier)
      (closed : closing.kind = .symbol .semicolon) :
      Derives style n [keyword, name, closing] (.varDeclaration (.varDecl name none)) n
  | initializedVariable {value : Expr} (keyed : keyword.kind = .keyword .varWord)
      (named : name.kind = .identifier) (assigned : equals.kind = .symbol .equal)
      (valued : Derives style n w (.expression value) m)
      (closed : closing.kind = .symbol .semicolon) :
      Derives style n (keyword :: name :: equals :: (w ++ [closing]))
        (.varDeclaration (.varDecl name (some value))) m
  | expressionEnd {value : Expr} (valued : Derives style n w (.expression value) m)
      (closed : closing.kind = .symbol .semicolon) :
      Derives style n (w ++ [closing]) (.expressionStatement (.expression value)) m
  | noInitializer (closed : closing.kind = .symbol .semicolon) :
      Derives style n [closing] (.initializer none) n
  | variableInitializer {tree : Stmt} (declared : Derives style n w (.varDeclaration tree) m) :
      Derives style n w (.initializer (some tree)) m
  | expressionInitializer {tree : Stmt}
      (evaluated : Derives style n w (.expressionStatement tree) m) :
      Derives style n w (.initializer (some tree)) m
  | evaluation {tree : Stmt} (evaluated : Derives style n w (.expressionStatement tree) m) :
      Derives style n w (.statement false tree) m
  | print {value : Expr} (keyed : keyword.kind = .keyword .printWord)
      (valued : Derives style n w (.expression value) m)
      (closed : closing.kind = .symbol .semicolon) :
      Derives style n (keyword :: (w ++ [closing])) (.statement false (.print value)) m
  | returnWith {value : Option Expr} (keyed : keyword.kind = .keyword .returnWord)
      (valued : Derives style n w (.optional value) m)
      (closed : closing.kind = .symbol .semicolon) :
      Derives style n (keyword :: (w ++ [closing]))
        (.statement false (.returnWith keyword value)) m
  | block {body : List Stmt} (opened : opening.kind = .symbol .leftBrace)
      (content : Derives style n w (.declarations body) m)
      (closed : closing.kind = .symbol .rightBrace) :
      Derives style n (opening :: (w ++ [closing])) (.statement false (.block body)) m
  | whileLoop {test : Expr} {endsOpen : Bool} {body : Stmt}
      (keyed : keyword.kind = .keyword .whileWord) (opened : opening.kind = .symbol .leftParen)
      (tested : Derives style n w (.expression test) m)
      (closed : closing.kind = .symbol .rightParen)
      (repeated : Derives style m w₁ (.statement endsOpen body) k) :
      Derives style n (keyword :: opening :: (w ++ closing :: w₁))
        (.statement endsOpen (.whileLoop test body)) k
  | forLoop {first : Option Stmt} {test after : Option Expr} {endsOpen : Bool} {body : Stmt}
      {semicolon : Token}
      (keyed : keyword.kind = .keyword .forWord) (opened : opening.kind = .symbol .leftParen)
      (initialized : Derives style n w (.initializer first) m)
      (tested : Derives style m w₁ (.optional test) k)
      (separated : semicolon.kind = .symbol .semicolon)
      (increased : Derives style k w₂ (.optional after) l)
      (closed : closing.kind = .symbol .rightParen)
      (repeated : Derives style l w₃ (.statement endsOpen body) i) :
      Derives style n (keyword :: opening :: (w ++ (w₁ ++ semicolon :: (w₂ ++ closing :: w₃))))
        (.statement endsOpen (ForClauses.loop ⟨first, test, after⟩ body)) i
  | ifThen {test : Expr} {endsOpen : Bool} {branch : Stmt}
      (keyed : keyword.kind = .keyword .ifWord) (opened : opening.kind = .symbol .leftParen)
      (tested : Derives style n w (.expression test) m)
      (closed : closing.kind = .symbol .rightParen)
      (chosen : Derives style m w₁ (.statement endsOpen branch) k) :
      Derives style n (keyword :: opening :: (w ++ closing :: w₁))
        (.statement true (.ifElse test branch none)) k
  | ifElse {test : Expr} {thenOpen elseOpen : Bool} {branch other : Stmt} {elseToken : Token}
      (keyed : keyword.kind = .keyword .ifWord) (opened : opening.kind = .symbol .leftParen)
      (tested : Derives style n w (.expression test) m)
      (closed : closing.kind = .symbol .rightParen)
      (chosen : Derives style m w₁ (.statement thenOpen branch) k)
      (attached : style = .nearest → thenOpen = false)
      (alternated : elseToken.kind = .keyword .elseWord)
      (rejected : Derives style k w₂ (.statement elseOpen other) l) :
      Derives style n (keyword :: opening :: (w ++ closing :: (w₁ ++ elseToken :: w₂)))
        (.statement elseOpen (.ifElse test branch (some other))) l
  | ordinary {endsOpen : Bool} {tree : Stmt}
      (executed : Derives style n w (.statement endsOpen tree) m) :
      Derives style n w (.declaration tree) m
  | variableDeclaration {tree : Stmt} (declared : Derives style n w (.varDeclaration tree) m) :
      Derives style n w (.declaration tree) m
  | functionDeclaration {decl : FunctionDecl} (keyed : keyword.kind = .keyword .funWord)
      (declared : Derives style n w (.function decl) m) :
      Derives style n (keyword :: w) (.declaration (.functionDecl decl)) m
  | baseClass {methods : List FunctionDecl} (keyed : keyword.kind = .keyword .classWord)
      (named : name.kind = .identifier) (opened : opening.kind = .symbol .leftBrace)
      (listed : Derives style n w (.functions methods) m)
      (closed : closing.kind = .symbol .rightBrace) :
      Derives style n (keyword :: name :: opening :: (w ++ [closing]))
        (.declaration (.classDecl name none methods)) m
  | derivedClass {less parent : Token} {methods : List FunctionDecl}
      (keyed : keyword.kind = .keyword .classWord) (named : name.kind = .identifier)
      (inherits : less.kind = .symbol .less) (parented : parent.kind = .identifier)
      (opened : opening.kind = .symbol .leftBrace)
      (listed : Derives style (n + 1) w (.functions methods) m)
      (closed : closing.kind = .symbol .rightBrace) :
      Derives style n (keyword :: name :: less :: parent :: opening :: (w ++ [closing]))
        (.declaration (.classDecl name (some (.var n parent)) methods)) m
  | noDeclarations : Derives style n [] (.declarations []) n
  | moreDeclarations {tree : Stmt} {trees : List Stmt}
      (first : Derives style n w (.declaration tree) m)
      (rest : Derives style m w₁ (.declarations trees) k) :
      Derives style n (w ++ w₁) (.declarations (tree :: trees)) k
  | function {params body} {brace endBrace : Token} (named : name.kind = .identifier)
      (opened : opening.kind = .symbol .leftParen) (listed : OptionalParameters w params)
      (closed : closing.kind = .symbol .rightParen) (entered : brace.kind = .symbol .leftBrace)
      (content : Derives style n w₁ (.declarations body) m)
      (left : endBrace.kind = .symbol .rightBrace) :
      Derives style n (name :: opening :: (w ++ closing :: brace :: (w₁ ++ [endBrace])))
        (.function ⟨name, params, body⟩) m
  | noFunctions : Derives style n [] (.functions []) n
  | moreFunctions {decl : FunctionDecl} {decls : List FunctionDecl}
      (first : Derives style n w (.function decl) m)
      (rest : Derives style m w₁ (.functions decls) k) :
      Derives style n (w ++ w₁) (.functions (decl :: decls)) k

/-- A program is a list of declarations. -/
def Program (style : DanglingElse) (n : Nat) (w : List Token) (trees : List Stmt) (m : Nat) : Prop :=
  Derives style n w (.declarations trees) m

end Lox.Grammar
