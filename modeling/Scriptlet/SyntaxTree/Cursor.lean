import Scriptlet.Diagnostic.Basic
import Scriptlet.Token.Basic

/-!
A place in a list of tokens. There is always a current token, and the last one is never passed.
-/

namespace Scriptlet

structure Cursor where
  /-- The end of the token before the current one. -/
  previousEnd? : Option Position
  current : Token
  upcoming : List Token
deriving DecidableEq, Repr

namespace Cursor

/-- What has to follow `last` for the tokens to be ended. -/
def closing (last : Token) : List Token :=
  if last.kind = .endOfText then [] else [.endOfText last.span.stop]

/-- The first of the tokens, which are ended if they are not yet. -/
def ofTokens : List Token → Cursor
  | [] => ⟨none, .endOfText .nowhere, []⟩
  | t :: ts => ⟨none, t, ts ++ closing (ts.getLast?.getD t)⟩

def kind (c : Cursor) : TokenKind := c.current.kind

/-- Where the current token begins. -/
def start (c : Cursor) : Position := c.current.span.start

/-- How many tokens are left, with the current one. -/
def remaining (c : Cursor) : Nat := c.upcoming.length + 1

/-- The next token becomes the current one, if there is a next. -/
def next (c : Cursor) : Cursor :=
  match c.upcoming with
  | [] => c
  | t :: ts => ⟨some c.current.span.stop, t, ts⟩

theorem remaining_next (c : Cursor) : c.next.remaining = max 1 (c.remaining - 1) := by
  obtain ⟨_, _, upcoming⟩ := c
  cases upcoming with
  | nil => rfl
  | cons t ts => simp only [next, remaining, List.length_cons]; omega

/-- Where the tokens before the current one end. -/
def previousEnd (c : Cursor) : Position := c.previousEnd?.getD c.start

def unexpected (c : Cursor) : Diagnostic := ⟨.unexpectedToken c.current.value, c.start⟩

def unexpectedDetailed (c : Cursor) (message : String) : Diagnostic :=
  ⟨.unexpectedTokenDetailed c.current.value message, c.start⟩

end Cursor

end Scriptlet
