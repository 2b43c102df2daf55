import Lox.Token

/-!
# Syntax trees

Variables, assignments, `this` and `super` carry a number that tells their occurrences
apart. Names and operators are kept as tokens, for the places of faults. There is no `for`
statement: it is written with blocks and `while`. A tree may be one that no source denotes.
-/
namespace Lox

inductive Literal where
  | nil
  | bool (value : Bool)
  | number (value : Float)
  | string (text : String)
  deriving DecidableEq, Repr

inductive Expr where
  | assign (id : Nat) (name : Token) (value : Expr)
  | binary (left : Expr) (operator : Token) (right : Expr)
  | call (callee : Expr) (paren : Token) (arguments : List Expr)
  | get (object : Expr) (name : Token)
  | grouping (inner : Expr)
  | literal (value : Literal)
  | logical (left : Expr) (operator : Token) (right : Expr)
  | set (object : Expr) (name : Token) (value : Expr)
  | superRef (id : Nat) (keyword method : Token)
  | thisRef (id : Nat) (keyword : Token)
  | unary (operator : Token) (right : Expr)
  | var (id : Nat) (name : Token)
  deriving Repr

mutual

inductive Stmt where
  | block (body : List Stmt)
  | classDecl (name : Token) (superclass : Option Expr) (methods : List FunctionDecl)
  | expression (value : Expr)
  | functionDecl (decl : FunctionDecl)
  | ifElse (condition : Expr) (thenBranch : Stmt) (elseBranch : Option Stmt)
  | print (value : Expr)
  | returnWith (keyword : Token) (value : Option Expr)
  | varDecl (name : Token) (initializer : Option Expr)
  | whileLoop (condition : Expr) (body : Stmt)

/-- A function or method with its parameters and its body. -/
structure FunctionDecl where
  name : Token
  params : List Token
  body : List Stmt

end

/-- The name under which a class keeps its initializer. -/
def initializerName : String := "init"

def FunctionDecl.isInitializer (decl : FunctionDecl) : Bool := decl.name.lexeme = initializerName

end Lox
