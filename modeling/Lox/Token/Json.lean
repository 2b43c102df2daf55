import Lox.Token

/-!
# Tokens as JSON text

One compact object per token. Only quotes, backslashes and control characters below the
space are escaped.
-/
namespace Lox.Token

def hexDigit (n : Nat) : Char := Nat.digitChar (n % 16)

def escape (c : Char) : List Char :=
  match c with
  | '"' => ['\\', '"']
  | '\\' => ['\\', '\\']
  | '\n' => ['\\', 'n']
  | '\r' => ['\\', 'r']
  | '\t' => ['\\', 't']
  | '\x08' => ['\\', 'b']
  | '\x0c' => ['\\', 'f']
  | c =>
    if c.toNat < 0x20 then ['\\', 'u', '0', '0', hexDigit (c.toNat / 16), hexDigit c.toNat]
    else [c]

def quoted (text : String) : String :=
  String.ofList ('"' :: text.toList.flatMap escape ++ ['"'])

def jsonKind : TokenKind → String
  | .string text => "\x7b\"STRING\":" ++ quoted text ++ "\x7d"
  | .number value => "\x7b\"NUMBER\":" ++ Numeral.json value ++ "\x7d"
  | kind => quoted kind.name

/-- The JSON object of a token: its kind, its lexeme and its line. -/
def json (t : Token) : String :=
  "\x7b\"token_type\":" ++ jsonKind t.kind ++ ",\"lexeme\":" ++ quoted t.lexeme ++
    ",\"line\":" ++ toString t.line ++ "\x7d"

end Lox.Token
