import Lox.Token.Scan

/-!
# Cutting bytes

The scanner at work on the bytes of its source. A cursor holds the place where a piece starts and
the place that is read next, both counted in bytes; text is cut at such places too. What stands
outside the bytes is not there to be read, and a text cannot be cut inside a character: a
computation that asks for this is refused, and ends with what it asked for. One that is not done
after as many turns as it was given is exhausted, and gives nothing.

All that is asked is kept, with the cursor at that moment.
-/
namespace Lox.Scan

/-- What a scanner asks of its source: one byte, the bytes between two places, or the text between
them. -/
inductive Access where
  | byte (place : Nat)
  | bytes (low high : Nat)
  | text (low high : Nat)
  deriving DecidableEq, Repr

/-- The piece in hand lies between `start` and `curr`. -/
structure Cursor where
  start : Nat
  curr : Nat
  line : Nat
  pending : Option TokenKind
  deriving DecidableEq, Repr

def Cursor.first : Cursor := ⟨0, 0, 1, none⟩

structure Moment where
  cursor : Cursor
  access : Access
  deriving DecidableEq, Repr

/-- A cursor and what was asked so far, the latest first. -/
structure Progress where
  cursor : Cursor
  asked : List Moment
  deriving DecidableEq, Repr

abbrev Reading := StateT Progress (ExceptT Access Option)

/-- What a scanner is lent: a search for the first place of a byte, a table of keywords, and
whether a log is kept. -/
structure Tools where
  find : UInt8 → ByteArray → Option Nat
  keyword : ByteArray → Option Keyword
  logs : Bool

/-- A search from the front, a look through all keywords, and a log. -/
def Tools.plain : Tools where
  find b bytes := bytes.data.toList.idxOf? b
  keyword bytes := Keyword.all.find? (·.text.toByteArray.data.toList = bytes.data.toList)
  logs := true

def look : Reading Cursor := return (← get).cursor

def move (f : Cursor → Cursor) : Reading Unit := modify fun p => { p with cursor := f p.cursor }

def note (access : Access) : Reading Unit :=
  modify fun p => { p with asked := ⟨p.cursor, access⟩ :: p.asked }

def exhausted {α : Type} : Reading α := fun _ => .mk none

section
variable (source : String)

/-- No loop is given more turns than there are bytes, and two more. -/
def limit : Nat := source.toByteArray.size + 2

def byteAt (place : Nat) : Reading UInt8 := do
  note (.byte place)
  if h : place < source.toByteArray.size then return source.toByteArray[place]
  else throw (.byte place)

def bytesBetween (low high : Nat) : Reading ByteArray := do
  note (.bytes low high)
  if low ≤ high ∧ high ≤ source.toByteArray.size then return source.toByteArray.extract low high
  else throw (.bytes low high)

def textBetween (low high : Nat) : Reading String := do
  note (.text low high)
  if h : low ≤ high ∧ String.Pos.Raw.IsValid source ⟨low⟩ ∧
      String.Pos.Raw.IsValid source ⟨high⟩ then
    return String.extract (s := source) ⟨⟨low⟩, h.2.1⟩ ⟨⟨high⟩, h.2.2⟩
  else throw (.text low high)

/-! ## One byte at a time -/

def atEnd : Reading Bool := return source.toByteArray.size ≤ (← look).curr

def advance : Reading UInt8 := do
  let b ← byteAt source (← look).curr
  move fun c => { c with curr := c.curr + 1 }
  return b

/-- The byte that is read next, zero at the end. -/
def peek : Reading UInt8 := do
  if ← atEnd source then return 0
  else byteAt source (← look).curr

def peekNext : Reading UInt8 := do
  let c ← look
  if source.toByteArray.size ≤ c.curr + 1 then return 0
  else byteAt source (c.curr + 1)

def passByte (expected : UInt8) : Reading Bool := do
  if ← atEnd source then return false
  else if (← peek source) = expected then
    let _ ← advance source
    return true
  else return false

def passWhile (p : Char → Bool) : Nat → Reading Unit
  | 0 => exhausted
  | turns + 1 => do
    if p (.ofUInt8 (← peek source)) then
      let _ ← advance source
      passWhile p turns
    else return

def newLine : Reading Unit := move fun c => { c with line := c.line + 1 }

def pend (kind : TokenKind) : Reading Unit := move fun c => { c with pending := some kind }

/-! ## One piece -/

/-- On to the next quote, or to the end. -/
def passText : Nat → Reading Unit
  | 0 => exhausted
  | turns + 1 => do
    if ← atEnd source then return
    else if (← peek source) = '"'.toUInt8 then return
    else
      if (← advance source) = '\n'.toUInt8 then newLine
      passText turns

def readString : Reading (Option Fault) := do
  passText source (limit source)
  if ← atEnd source then return some (.lex .unterminatedString (← look).line)
  else
    let _ ← advance source
    let c ← look
    pend (.string (← textBetween source (c.start + 1) (c.curr - 1)))
    return none

/-- A point is passed with the digits after it, if there are any. -/
def passFraction : Reading Unit := do
  if (← peek source) = '.'.toUInt8 then
    if Char.isDigit (.ofUInt8 (← peekNext source)) then
      let _ ← advance source
      passWhile source Char.isDigit (limit source)

def readNumber : Reading Unit := do
  passWhile source Char.isDigit (limit source)
  passFraction source
  let c ← look
  pend (.number (numberValue (← textBetween source c.start c.curr).toList))

variable (tools : Tools)

def readWord : Reading Unit := do
  passWhile source isWordPart (limit source)
  let c ← look
  match tools.keyword (← bytesBetween source c.start c.curr) with
  | some k => pend (.keyword k)
  | none => pend .identifier

/-- A comment ends before a newline, which is left to be read. -/
def passComment : Reading Unit := do
  match tools.find '\n'.toUInt8
    (← bytesBetween source (← look).curr source.toByteArray.size) with
  | some n => move fun c => { c with curr := c.curr + n }
  | none => move fun c => { c with curr := source.toByteArray.size }

/-- A log shows the text it tells of. -/
def logText (low high : Nat) : Reading Unit := do
  if tools.logs then
    let _ ← textBetween source low high

/-- An unexpected character is passed as a whole. -/
def passCharacter : Reading Fault := do
  let c ← look
  -- The cursor may stand inside the character by now, so it is looked at from the start.
  let rest ← textBetween source c.start source.toByteArray.size
  let width := (rest.toList.head?.map Char.utf8Size).getD 1
  move fun c => { c with curr := c.start + width }
  logText source tools c.start (c.start + width)
  return .lex .unexpectedCharacter c.line

def readSymbol (s : Symbol) : Reading Unit := do
  if s = .slash then
    if ← passByte source '/'.toUInt8 then passComment source tools
    else pend (.symbol s)
  else match withEqual? s with
    | some joined =>
      if ← passByte source '='.toUInt8 then pend (.symbol joined)
      else pend (.symbol s)
    | none => pend (.symbol s)

/-- What starts with a byte. -/
def readFrom (first : Char) : Reading (Option Fault) := do
  if first = '\n' then
    newLine
    return none
  else if isBlank first then return none
  else if isWordStart first then
    readWord source tools
    return none
  else if first.isDigit then
    readNumber source
    return none
  else if first = '"' then readString source
  else match symbol? first with
    | some s =>
      readSymbol source tools s
      return none
    | none => return some (← passCharacter source tools)

/-- One piece is passed. If it is a token, its kind stays pending. -/
def readPiece : Reading (Option Fault) := do
  readFrom source tools (.ofUInt8 (← advance source))

/-! ## Piece after piece -/

/-- What one turn gives: nothing more, a piece that says nothing, or an item. -/
inductive Turn where
  | ended
  | skipped
  | item (item : Except Fault Token)

/-- What is pending becomes a token, with the text that was passed. -/
def emit : Reading Turn := do
  let c ← look
  match c.pending with
  | none => return .skipped
  | some kind =>
    move fun c => { c with pending := none }
    return .item (.ok ⟨kind, ← textBetween source c.start c.curr, c.line⟩)

def turn : Reading Turn := do
  let c ← look
  if source.toByteArray.size < c.curr then return .ended
  else if c.curr = source.toByteArray.size then
    move fun c => { c with curr := c.curr + 1 }
    return .item (.ok ⟨.endOfInput, "", c.line⟩)
  else
    move fun c => { c with start := c.curr, pending := none }
    match ← readPiece source tools with
    | some fault => return .item (.error fault)
    | none => emit source

def next : Nat → Reading (Option (Except Fault Token))
  | 0 => exhausted
  | turns + 1 => do
    match ← turn source tools with
    | .ended => return none
    | .item item => return some item
    | .skipped => next turns

/-- All items, up to the end. -/
def drain : Nat → Reading (List (Except Fault Token))
  | 0 => exhausted
  | turns + 1 => do
    match ← next source tools (limit source) with
    | none => return []
    | some item => return item :: (← drain turns)

end

end Lox.Scan
