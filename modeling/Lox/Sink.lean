import Lox.Fault

/-!
# Where output goes

A sink collects bytes. It may have room for a limited number of them: what fits is kept, and a
write that does not fit fails. Its flush may fail as well.
-/
namespace Lox

structure Sink where
  written : ByteArray
  room : Option Nat
  flushFails : Bool

namespace Sink

/-- A sink that takes everything. -/
def unlimited : Sink := ⟨.empty, none, false⟩

/-- Writes a text, and tells whether all of it fitted. -/
def write (s : Sink) (text : String) : Sink × Bool :=
  let bytes := text.toUTF8
  match s.room with
  | none => ({ s with written := s.written ++ bytes }, true)
  | some room =>
    if bytes.size ≤ room then
      ({ s with written := s.written ++ bytes, room := some (room - bytes.size) }, true)
    else ({ s with written := s.written ++ bytes.extract 0 room, room := some 0 }, false)

/-- Why a flush fails, if it does. -/
def flush? (s : Sink) : Option Fault :=
  if s.flushFails then some (.output .flushFailed) else none

/-- The sink with what it holds taken out. -/
def drained (s : Sink) : Sink := { s with written := .empty }

end Sink

end Lox
