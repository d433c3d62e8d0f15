import Scriptlet.Text.Bytes
import Scriptlet.Token.Scan

/-! A place in a text that is read by hand. The place is a byte offset and may run past the end. -/

namespace Scriptlet

structure TextCursor where
  text : List Char
  offset : Nat
  file : String
deriving DecidableEq, Repr

namespace TextCursor

def ofSource (source : String) (file : Option String) : TextCursor :=
  ⟨source.toList, 0, file.getD Token.defaultFile⟩

/-- What follows the place. There is none inside a character or past the end. -/
def rest? (c : TextCursor) : Option (List Char) := Text.dropBytes? c.offset c.text

/-- The character at the place, the null character at the end. -/
def peek? (c : TextCursor) : Option Char := c.rest?.map fun cs => cs.headD '\x00'

def atEnd (c : TextCursor) : Bool := Text.byteLength c.text ≤ c.offset

def skip (c : TextCursor) (n : Nat) : TextCursor := { c with offset := c.offset + n }

/-- The span of the next `n` bytes. -/
def span (c : TextCursor) (n : Nat) : Span := .covering c.file c.offset n

end TextCursor

end Scriptlet
