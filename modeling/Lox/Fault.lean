import Lox.Token

/-!
# What can go wrong, and how it is worded

A fault is a cause and a place. Every wording is in this module, so the rest of the library
speaks of causes only.
-/
namespace Lox

inductive LexCause where
  | unexpectedCharacter
  | unterminatedString
  deriving DecidableEq, Repr

/-- The two kinds of named bodies, as the wordings tell them apart. -/
inductive Callable where
  | function
  | method
  deriving DecidableEq, Repr

inductive ParseCause where
  | className
  | superclassName
  | classOpen
  | classClose
  | callableName (kind : Callable)
  | parametersOpen (kind : Callable)
  | parameterName
  | parametersClose
  | bodyOpen (kind : Callable)
  | tooManyParameters
  | tooManyArguments
  | variableName
  | variableEnd
  | forOpen
  | conditionEnd
  | forClose
  | ifOpen
  | ifClose
  | whileOpen
  | whileClose
  | printEnd
  | returnEnd
  | expressionEnd
  | blockClose
  | argumentsClose
  | propertyName
  | superDot
  | superMethodName
  | groupingClose
  | expression
  | assignmentTarget
  deriving DecidableEq, Repr

inductive ScopeCause where
  | returnOutsideFunction
  | valueFromInitializer
  | thisOutsideClass
  | superOutsideClass
  | superWithoutSuperclass
  | inheritsFromItself
  | alreadyDeclared
  | readInOwnInitializer
  deriving DecidableEq, Repr

inductive RuntimeCause where
  | undefinedVariable (name : String)
  | unresolvedVariable (name : String)
  | undefinedProperty (name : String)
  | operandNotNumber
  | operandsNotNumbers
  | operandsNotAddable
  | unaryOperator
  | binaryOperator
  | notCallable
  | arity (expected got : Nat)
  | stackOverflow
  | superclassNotClass
  | noProperties
  | noFields
  deriving DecidableEq, Repr

inductive OutputCause where
  | sinkFull
  | flushFailed
  deriving DecidableEq, Repr

/-- A fault with its place: a line, or the token at which it was noticed. -/
inductive Fault where
  | lex (cause : LexCause) (line : Nat)
  | parse (cause : ParseCause) (token : Token)
  | scope (cause : ScopeCause) (token : Token)
  | runtime (cause : RuntimeCause) (line : Nat)
  | output (cause : OutputCause)
  deriving DecidableEq, Repr

def LexCause.message : LexCause → String
  | unexpectedCharacter => "Unexpected character."
  | unterminatedString => "Unterminated string."

def Callable.word : Callable → String
  | function => "function"
  | method => "method"

def ParseCause.message : ParseCause → String
  | className => "Expect class name."
  | superclassName => "Expect superclass name."
  | classOpen => "Expect '\x7b' before class body."
  | classClose => "Expect '\x7d' after class body."
  | callableName kind => "Expect " ++ kind.word ++ " name."
  | parametersOpen kind => "Expect '(' after " ++ kind.word ++ " name."
  | parameterName => "Expect parameter name."
  | parametersClose => "Expect ')' after parameters."
  | bodyOpen kind => "Expect '\x7b' before " ++ kind.word ++ " body."
  | tooManyParameters => "Can't have more than 255 parameters."
  | tooManyArguments => "Can't have more than 255 arguments."
  | variableName => "Expect variable name."
  | variableEnd => "Expect ';' after variable declaration."
  | forOpen => "Expect '(' after 'for'."
  | conditionEnd => "Expect ';' after loop condition."
  | forClose => "Expect ')' after for clauses."
  | ifOpen => "Expect '(' after 'if'."
  | ifClose => "Expect ')' after if condition."
  | whileOpen => "Expect '(' after 'while'."
  | whileClose => "Expect ')' after condition."
  | printEnd => "Expect ';' after value."
  | returnEnd => "Expect ';' after return value."
  | expressionEnd => "Expect ';' after expression."
  | blockClose => "Expect '\x7d' after block."
  | argumentsClose => "Expect ')' after arguments."
  | propertyName => "Expect property name after '.'."
  | superDot => "Expect '.' after 'super'."
  | superMethodName => "Expect superclass method name."
  | groupingClose => "Expect ')' after expression."
  | expression => "Expect expression."
  | assignmentTarget => "Invalid assignment target."

def ScopeCause.message : ScopeCause → String
  | returnOutsideFunction => "Can't return from top-level code."
  | valueFromInitializer => "Can't return a value from an initializer."
  | thisOutsideClass => "Can't use 'this' outside of a class."
  | superOutsideClass => "Can't use 'super' outside of a class."
  | superWithoutSuperclass => "Can't use 'super' in a class with no superclass."
  | inheritsFromItself => "A class can't inherit from itself."
  | alreadyDeclared => "Already a variable with this name in this scope."
  | readInOwnInitializer => "Can't read local variable in its own initializer."

def RuntimeCause.message : RuntimeCause → String
  | undefinedVariable name => "Undefined variable '" ++ name ++ "'."
  | unresolvedVariable name => "Unresolved variable '" ++ name ++ "'."
  | undefinedProperty name => "Undefined property '" ++ name ++ "'."
  | operandNotNumber => "Operand must be a number."
  | operandsNotNumbers => "Operands must be numbers."
  | operandsNotAddable => "Operands must be two numbers or two strings."
  | unaryOperator => "Invalid unary operator."
  | binaryOperator => "Invalid binary operator."
  | notCallable => "Can only call functions and classes."
  | arity expected got =>
    "Expected " ++ toString expected ++ " arguments but got " ++ toString got ++ "."
  | stackOverflow => "Stack overflow."
  | superclassNotClass => "Superclass must be a class."
  | noProperties => "Only instances have properties."
  | noFields => "Only instances have fields."

def OutputCause.message : OutputCause → String
  | sinkFull => "sink full"
  | flushFailed => "flush failed"

/-- Where a fault at a token is said to be. -/
def Token.place (t : Token) : String :=
  if t.kind = .endOfInput then " at end" else " at '" ++ t.lexeme ++ "'"

def Fault.message : Fault → String
  | lex cause line => "[line " ++ toString line ++ "] Error: " ++ cause.message
  | parse cause token =>
    "[line " ++ toString token.line ++ "] Error" ++ token.place ++ ": " ++ cause.message
  | scope cause token =>
    "[line " ++ toString token.line ++ "] Error" ++ token.place ++ ": " ++ cause.message
  | runtime cause line => cause.message ++ "\n[line " ++ toString line ++ "]"
  | output cause => cause.message

/-- The name of a fault's kind. -/
def Fault.kind : Fault → String
  | lex .. => "Lex"
  | parse .. => "Parse"
  | scope .. => "Resolve"
  | runtime .. => "Runtime"
  | output .. => "Io"

end Lox
