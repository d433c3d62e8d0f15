/-!
Places in a source: a byte offset, kept in 32 bits, and the name of the source.
-/

namespace Scriptlet

structure Position where
  offset : UInt32
  file : String
deriving DecidableEq, Repr

/-- The place of what no source holds. -/
def Position.nowhere : Position := ⟨0, "<null>"⟩

structure Span where
  start : Position
  stop : Position
deriving DecidableEq, Repr

namespace Span

def nowhere : Span := ⟨.nowhere, .nowhere⟩

/-- The `width` bytes from `offset` on. Each end keeps the low 32 bits of its offset. -/
def covering (file : String) (offset width : Nat) : Span :=
  ⟨⟨offset.toUInt32, file⟩, ⟨(offset + width).toUInt32, file⟩⟩

/-- The empty span at a place. -/
def empty (position : Position) : Span := ⟨position, position⟩

end Span

end Scriptlet
