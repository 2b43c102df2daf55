import Lox.Fault

/-!
# Cutting source text into tokens

Source text is cut into pieces, each the longest one that its first character allows, so the
pieces put together are the text. Blanks and comments say nothing; every other piece is a
token or a fault. A piece's line is the line on which it ends.
-/
namespace Lox.Scan

inductive Form where
  | blank
  | comment
  | symbol (symbol : Symbol)
  | word
  | number
  | string
  | openString
  | unknown
  deriving DecidableEq, Repr

structure Piece where
  form : Form
  text : List Char
  deriving DecidableEq, Repr

def isBlank (c : Char) : Bool := c = ' ' || c = '\r' || c = '\t' || c = '\n'

def isWordStart (c : Char) : Bool := c.isAlpha || c = '_'

def isWordPart (c : Char) : Bool := c.isAlphanum || c = '_'

def symbol? : Char → Option Symbol
  | '(' => some .leftParen
  | ')' => some .rightParen
  | '{' => some .leftBrace
  | '}' => some .rightBrace
  | ',' => some .comma
  | '.' => some .dot
  | '-' => some .minus
  | '+' => some .plus
  | ';' => some .semicolon
  | '/' => some .slash
  | '*' => some .star
  | '!' => some .bang
  | '=' => some .equal
  | '>' => some .greater
  | '<' => some .less
  | _ => none

/-- The symbol that an equals sign makes of the one before it. -/
def withEqual? : Symbol → Option Symbol
  | .bang => some .bangEqual
  | .equal => some .equalEqual
  | .greater => some .greaterEqual
  | .less => some .lessEqual
  | _ => none

/-- A point belongs to a number only if a digit follows it. -/
def cutNumber (cs : List Char) : List Char × List Char :=
  let whole := cs.takeWhile Char.isDigit
  match cs.dropWhile Char.isDigit with
  | '.' :: d :: rest =>
    if d.isDigit then
      (whole ++ '.' :: d :: rest.takeWhile Char.isDigit, rest.dropWhile Char.isDigit)
    else (whole, '.' :: d :: rest)
  | rest => (whole, rest)

def cutSymbol (c : Char) (s : Symbol) (cs : List Char) : Piece × List Char :=
  match s, cs with
  | .slash, '/' :: _ =>
    (⟨.comment, c :: cs.takeWhile (· ≠ '\n')⟩, cs.dropWhile (· ≠ '\n'))
  | s, '=' :: rest =>
    match withEqual? s with
    | some joined => (⟨.symbol joined, [c, '=']⟩, rest)
    | none => (⟨.symbol s, [c]⟩, cs)
  | s, cs => (⟨.symbol s, [c]⟩, cs)

/-- The piece that starts with `c`, and what is left after it. -/
def cut (c : Char) (cs : List Char) : Piece × List Char :=
  if isBlank c then (⟨.blank, [c]⟩, cs)
  else if isWordStart c then (⟨.word, c :: cs.takeWhile isWordPart⟩, cs.dropWhile isWordPart)
  else if c.isDigit then
    let (text, rest) := cutNumber cs
    (⟨.number, c :: text⟩, rest)
  else if c = '"' then
    match cs.dropWhile (· ≠ '"') with
    | [] => (⟨.openString, c :: cs⟩, [])
    | close :: rest => (⟨.string, c :: cs.takeWhile (· ≠ '"') ++ [close]⟩, rest)
  else match symbol? c with
    | some s => cutSymbol c s cs
    | none => (⟨.unknown, [c]⟩, cs)

theorem length_dropWhile_le {α : Type} (p : α → Bool) (xs : List α) :
    (xs.dropWhile p).length ≤ xs.length :=
  (List.dropWhile_sublist p).length_le

theorem length_cutNumber_le (cs : List Char) : (cutNumber cs).2.length ≤ cs.length := by
  have h := length_dropWhile_le Char.isDigit cs
  unfold cutNumber
  split
  · next d rest he =>
    have hr := length_dropWhile_le Char.isDigit rest
    rw [he] at h
    simp only [List.length_cons] at h
    split
    · show (rest.dropWhile Char.isDigit).length ≤ cs.length
      omega
    · exact h
  · exact h

theorem length_cutSymbol_le (c : Char) (s : Symbol) (cs : List Char) :
    (cutSymbol c s cs).2.length ≤ cs.length := by
  unfold cutSymbol
  split
  · exact length_dropWhile_le _ _
  · split <;> simp
  · exact Nat.le_refl _

/-- Cutting uses up the first character at least. -/
theorem length_cut_le (c : Char) (cs : List Char) : (cut c cs).2.length ≤ cs.length := by
  unfold cut
  split
  · exact Nat.le_refl _
  split
  · exact length_dropWhile_le _ _
  split
  · exact length_cutNumber_le cs
  split
  · have h := length_dropWhile_le (· ≠ '"') cs
    split
    · simp
    · next close rest he => rw [he] at h; exact Nat.le_of_succ_le h
  split
  · exact length_cutSymbol_le _ _ _
  · exact Nat.le_refl _

/-- The pieces of a text, in order. -/
def pieces : List Char → List Piece
  | [] => []
  | c :: cs => (cut c cs).1 :: pieces (cut c cs).2
termination_by cs => cs.length
decreasing_by exact Nat.lt_succ_of_le (length_cut_le c cs)

/-! ## Nothing is lost -/

theorem cutNumber_append (cs : List Char) : (cutNumber cs).1 ++ (cutNumber cs).2 = cs := by
  have h := List.takeWhile_append_dropWhile (p := Char.isDigit) (l := cs)
  unfold cutNumber
  split
  · next d rest he =>
    rw [he] at h
    split
    · have hr := List.takeWhile_append_dropWhile (p := Char.isDigit) (l := rest)
      show (_ ++ '.' :: d :: rest.takeWhile Char.isDigit) ++ rest.dropWhile Char.isDigit = cs
      rw [List.append_assoc, List.cons_append, List.cons_append, hr, h]
    · exact h
  · exact h

theorem cutSymbol_append (c : Char) (s : Symbol) (cs : List Char) :
    (cutSymbol c s cs).1.text ++ (cutSymbol c s cs).2 = c :: cs := by
  unfold cutSymbol
  split
  · rw [List.cons_append, List.takeWhile_append_dropWhile]
  · split <;> rfl
  · rfl

theorem cut_append (c : Char) (cs : List Char) :
    (cut c cs).1.text ++ (cut c cs).2 = c :: cs := by
  unfold cut
  split
  · rfl
  split
  · rw [List.cons_append, List.takeWhile_append_dropWhile]
  split
  · rw [List.cons_append, cutNumber_append]
  split
  · have h := List.takeWhile_append_dropWhile (p := (· ≠ '"')) (l := cs)
    split
    · next he => exact List.append_nil _
    · next close rest he =>
      rw [he] at h
      rw [List.append_assoc, List.cons_append, List.singleton_append, h]
  split
  · exact cutSymbol_append _ _ _
  · rfl

/-- The pieces of a text put together are the text. -/
theorem flatMap_text_pieces (cs : List Char) : (pieces cs).flatMap Piece.text = cs := by
  induction cs using pieces.induct with
  | case1 => rw [pieces, List.flatMap_nil]
  | case2 c cs ih => rw [pieces, List.flatMap_cons, ih, cut_append]

/-- The value of a number's text. -/
def numberValue (text : List Char) : Float :=
  Numeral.ofDecimal (text.takeWhile Char.isDigit) ((text.dropWhile Char.isDigit).drop 1)

def wordKind (text : List Char) : TokenKind :=
  match Keyword.ofText? (String.ofList text) with
  | some k => .keyword k
  | none => .identifier

/-- What a piece that ends on `line` says: nothing, a token or a fault. -/
def Piece.item? (p : Piece) (line : Nat) : Option (Except Fault Token) :=
  let token (kind : TokenKind) : Option (Except Fault Token) :=
    some (.ok ⟨kind, String.ofList p.text, line⟩)
  match p.form with
  | .blank => none
  | .comment => none
  | .symbol s => token (.symbol s)
  | .word => token (wordKind p.text)
  | .number => token (.number (numberValue p.text))
  | .string => token (.string (String.ofList (p.text.drop 1).dropLast))
  | .openString => some (.error (.lex .unterminatedString line))
  | .unknown => some (.error (.lex .unexpectedCharacter line))

/-- The items of a list of pieces whose first starts on `line`, closed by the end of input. -/
def items (line : Nat) : List Piece → List (Except Fault Token)
  | [] => [.ok ⟨.endOfInput, "", line⟩]
  | p :: ps =>
    let here := line + p.text.count '\n'
    match p.item? here with
    | some item => item :: items here ps
    | none => items here ps

end Lox.Scan

namespace Lox

/-- Tokens and faults of a source, in the order of the text. -/
def scan (source : String) : List (Except Fault Token) :=
  Scan.items 1 (Scan.pieces source.toList)

def okOnly {ε α : Type} (items : List (Except ε α)) : List α :=
  items.filterMap Except.toOption

/-- The faults among scanned items. -/
def errorsOnly {ε α : Type} : List (Except ε α) → List ε
  | [] => []
  | .ok _ :: rest => errorsOnly rest
  | .error e :: rest => e :: errorsOnly rest

end Lox
