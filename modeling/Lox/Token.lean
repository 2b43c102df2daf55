import Lox.Numeral.Text

/-!
# Tokens

A token is a kind, the source text it was cut from and the line on which it ends. String and
number kinds carry their value, which a hand-made token may choose independently of its
lexeme.
-/
namespace Lox

inductive Symbol where
  | leftParen | rightParen | leftBrace | rightBrace
  | comma | dot | minus | plus | semicolon | slash | star
  | bang | bangEqual | equal | equalEqual
  | greater | greaterEqual | less | lessEqual
  deriving DecidableEq, Repr

inductive Keyword where
  | andWord | classWord | elseWord | falseWord | forWord | funWord | ifWord | nilWord
  | orWord | printWord | returnWord | superWord | thisWord | trueWord | varWord | whileWord
  deriving DecidableEq, Repr

inductive TokenKind where
  | symbol (symbol : Symbol)
  | keyword (keyword : Keyword)
  | identifier
  | string (text : String)
  | number (value : Float)
  | endOfInput
  deriving DecidableEq, Repr

structure Token where
  kind : TokenKind
  lexeme : String
  line : Nat
  deriving DecidableEq, Repr

namespace Symbol

def all : List Symbol :=
  [leftParen, rightParen, leftBrace, rightBrace, comma, dot, minus, plus, semicolon, slash, star,
    bang, bangEqual, equal, equalEqual, greater, greaterEqual, less, lessEqual]

def name : Symbol → String
  | leftParen => "LEFT_PAREN"
  | rightParen => "RIGHT_PAREN"
  | leftBrace => "LEFT_BRACE"
  | rightBrace => "RIGHT_BRACE"
  | comma => "COMMA"
  | dot => "DOT"
  | minus => "MINUS"
  | plus => "PLUS"
  | semicolon => "SEMICOLON"
  | slash => "SLASH"
  | star => "STAR"
  | bang => "BANG"
  | bangEqual => "BANG_EQUAL"
  | equal => "EQUAL"
  | equalEqual => "EQUAL_EQUAL"
  | greater => "GREATER"
  | greaterEqual => "GREATER_EQUAL"
  | less => "LESS"
  | lessEqual => "LESS_EQUAL"

end Symbol

namespace Keyword

def all : List Keyword :=
  [andWord, classWord, elseWord, falseWord, forWord, funWord, ifWord, nilWord, orWord, printWord,
    returnWord, superWord, thisWord, trueWord, varWord, whileWord]

/-- How a keyword is spelled. -/
def text : Keyword → String
  | andWord => "and"
  | classWord => "class"
  | elseWord => "else"
  | falseWord => "false"
  | forWord => "for"
  | funWord => "fun"
  | ifWord => "if"
  | nilWord => "nil"
  | orWord => "or"
  | printWord => "print"
  | returnWord => "return"
  | superWord => "super"
  | thisWord => "this"
  | trueWord => "true"
  | varWord => "var"
  | whileWord => "while"

def name : Keyword → String
  | andWord => "AND"
  | classWord => "CLASS"
  | elseWord => "ELSE"
  | falseWord => "FALSE"
  | forWord => "FOR"
  | funWord => "FUN"
  | ifWord => "IF"
  | nilWord => "NIL"
  | orWord => "OR"
  | printWord => "PRINT"
  | returnWord => "RETURN"
  | superWord => "SUPER"
  | thisWord => "THIS"
  | trueWord => "TRUE"
  | varWord => "VAR"
  | whileWord => "WHILE"

/-- The keyword a word spells, if it is one. -/
def ofText? (word : String) : Option Keyword := all.find? (·.text = word)

end Keyword

namespace TokenKind

def name : TokenKind → String
  | symbol s => s.name
  | keyword k => k.name
  | identifier => "IDENTIFIER"
  | string _ => "STRING"
  | number _ => "NUMBER"
  | endOfInput => "EOF"

/-- What stands third when a token is shown. -/
def literal : TokenKind → String
  | string text => text
  | number value => Numeral.literal value
  | _ => "null"

end TokenKind

/-- A token as kind, lexeme and literal. -/
def Token.display (t : Token) : String := t.kind.name ++ " " ++ t.lexeme ++ " " ++ t.kind.literal

end Lox
