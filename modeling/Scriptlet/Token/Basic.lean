import Scriptlet.Position

/-! Tokens: the words, literals and signs of a source, each with its span. -/

namespace Scriptlet

inductive TokenKind where
  | endOfText
  | number
  | string
  | identifier
  | openBracket
  | closeBracket
  | openParen
  | closeParen
  | assignment
  | equals
  | bang
  | notEquals
  | less
  | lessEquals
  | greater
  | greaterEquals
  | semicolon
  | colon
  | comma
  | arrow
  | plus
  | dash
  | slash
  | star
  | starStar
  | percent
  | letWord
  | funWord
  | returnWord
  | whileWord
  | printWord
  | trueWord
  | falseWord
deriving DecidableEq, Repr

namespace TokenKind

def name : TokenKind → String
  | endOfText => "EOF"
  | number => "Number"
  | string => "String"
  | identifier => "Identifier"
  | openBracket => "OpenBracket"
  | closeBracket => "CloseBracket"
  | openParen => "OpenParen"
  | closeParen => "CloseParen"
  | assignment => "Assignment"
  | equals => "Equals"
  | bang => "Not"
  | notEquals => "NotEquals"
  | less => "Less"
  | lessEquals => "LessEquals"
  | greater => "Greater"
  | greaterEquals => "GreaterEquals"
  | semicolon => "Semicolon"
  | colon => "Colon"
  | comma => "Comma"
  | arrow => "Arrow"
  | plus => "Plus"
  | dash => "Dash"
  | slash => "Slash"
  | star => "Star"
  | starStar => "StarStar"
  | percent => "Percent"
  | letWord => "Let"
  | funWord => "Fun"
  | returnWord => "Return"
  | whileWord => "While"
  | printWord => "Print"
  | trueWord => "True"
  | falseWord => "False"

/-- Every kind, in order. -/
def all : List TokenKind :=
  [endOfText, number, string, identifier, openBracket, closeBracket, openParen, closeParen,
    assignment, equals, bang, notEquals, less, lessEquals, greater, greaterEquals, semicolon, colon,
    comma, arrow, plus, dash, slash, star, starStar, percent, letWord, funWord, returnWord,
    whileWord, printWord, trueWord, falseWord]

/-- The signs that compare. -/
def isRelational : TokenKind → Bool
  | equals | notEquals | less | lessEquals | greater | greaterEquals => true
  | _ => false

/-- The kind of a word: reserved, or an identifier. -/
def ofWord (word : String) : TokenKind :=
  match word with
  | "let" => letWord
  | "fun" => funWord
  | "return" => returnWord
  | "while" => whileWord
  | "print" => printWord
  | "true" => trueWord
  | "false" => falseWord
  | _ => identifier

end TokenKind

structure Token where
  kind : TokenKind
  /-- The text of the token; for a string, what it stands for. -/
  value : String
  span : Span
deriving DecidableEq, Repr

namespace Token

/-- The token that ends every source. -/
def endOfText (position : Position) : Token := ⟨.endOfText, "EOF", .empty position⟩

def describe (t : Token) : String :=
  "Token \x7b\nkind: " ++ t.kind.name ++ ",\nvalue: " ++ t.value ++ "\x7d"

end Token

end Scriptlet
