import Lox.Tree

/-!
# The text of a syntax tree

Every node but a name or a literal is a parenthesised list that starts with its operator.
Strings stand without quotes.
-/
namespace Lox

def Literal.text : Literal → String
  | .nil => "nil"
  | .bool true => "true"
  | .bool false => "false"
  | .number value => Numeral.pointed value
  | .string text => text

mutual

def Expr.text : Expr → String
  | .assign _ name value => "(= " ++ name.lexeme ++ " " ++ value.text ++ ")"
  | .binary left operator right =>
    "(" ++ operator.lexeme ++ " " ++ left.text ++ " " ++ right.text ++ ")"
  | .call callee _ arguments => "(call " ++ callee.text ++ Expr.texts arguments ++ ")"
  | .get object name => "(. " ++ object.text ++ " " ++ name.lexeme ++ ")"
  | .grouping inner => "(group " ++ inner.text ++ ")"
  | .literal value => value.text
  | .logical left operator right =>
    "(" ++ operator.lexeme ++ " " ++ left.text ++ " " ++ right.text ++ ")"
  | .set object name value =>
    "(= (. " ++ object.text ++ " " ++ name.lexeme ++ ") " ++ value.text ++ ")"
  | .superRef _ _ method => "(super " ++ method.lexeme ++ ")"
  | .thisRef _ _ => "this"
  | .unary operator right => "(" ++ operator.lexeme ++ " " ++ right.text ++ ")"
  | .var _ name => name.lexeme

/-- Each expression after a space. -/
def Expr.texts : List Expr → String
  | [] => ""
  | e :: es => " " ++ e.text ++ Expr.texts es

end

mutual

def Stmt.text : Stmt → String
  | .block body => "(block" ++ Stmt.texts body ++ ")"
  | .classDecl name none methods =>
    "(class " ++ name.lexeme ++ FunctionDecl.texts methods ++ ")"
  | .classDecl name (some superclass) methods =>
    "(class " ++ name.lexeme ++ " < " ++ superclass.text ++ FunctionDecl.texts methods ++ ")"
  | .expression value => "(; " ++ value.text ++ ")"
  | .functionDecl decl => decl.text
  | .ifElse condition thenBranch none =>
    "(if " ++ condition.text ++ " " ++ thenBranch.text ++ ")"
  | .ifElse condition thenBranch (some elseBranch) =>
    "(if-else " ++ condition.text ++ " " ++ thenBranch.text ++ " " ++ elseBranch.text ++ ")"
  | .print value => "(print " ++ value.text ++ ")"
  | .returnWith _ none => "(return)"
  | .returnWith _ (some value) => "(return " ++ value.text ++ ")"
  | .varDecl name none => "(var " ++ name.lexeme ++ ")"
  | .varDecl name (some value) => "(var " ++ name.lexeme ++ " = " ++ value.text ++ ")"
  | .whileLoop condition body => "(while " ++ condition.text ++ " " ++ body.text ++ ")"

/-- Each statement after a space. -/
def Stmt.texts : List Stmt → String
  | [] => ""
  | s :: ss => " " ++ s.text ++ Stmt.texts ss

def FunctionDecl.text : FunctionDecl → String
  | ⟨name, params, body⟩ =>
    "(fun " ++ name.lexeme ++ "(" ++ ", ".intercalate (params.map Token.lexeme) ++ ")" ++
      Stmt.texts body ++ ")"

/-- Each method after a space. -/
def FunctionDecl.texts : List FunctionDecl → String
  | [] => ""
  | d :: ds => " " ++ d.text ++ FunctionDecl.texts ds

end

end Lox
