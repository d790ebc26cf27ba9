import PixelUnit.Sheet.Position
import PixelUnit.Text.Blank
import PixelUnit.Text.Quoted

/-!
# Tokens

A stylesheet is split only as far as rules, blocks and declarations need it. Every token keeps the
exact text it was read from, so the raw texts of all tokens, joined, are the source.
-/

namespace PixelUnit.Sheet

/-- The classes of tokens. -/
inductive Token.Kind where
  | word
  | atKeyword
  | string
  | badString
  | url
  | colon
  | semicolon
  | openBrace
  | closeBrace
  | openSquare
  | closeSquare
  | openParen
  | closeParen
  | comment
  | spacing
  | ending
deriving DecidableEq

namespace Token.Kind

/-- The name of a class, as it is shown. -/
def name : Token.Kind → String
  | word => "Word"
  | atKeyword => "AtKeyword"
  | string => "String"
  | badString => "BadString"
  | url => "Url"
  | colon => "Colon"
  | semicolon => "Semicolon"
  | openBrace => "LCurlyBracket"
  | closeBrace => "RCurlyBracket"
  | openSquare => "LSquareBracket"
  | closeSquare => "RSquareBracket"
  | openParen => "LParenthesis"
  | closeParen => "RParenthesis"
  | comment => "Comment"
  | spacing => "Whitespace"
  | ending => "EOF"

/-- All classes. -/
def all : List Token.Kind :=
  [word, atKeyword, string, badString, url, colon, semicolon, openBrace, closeBrace, openSquare,
    closeSquare, openParen, closeParen, comment, spacing, ending]

/-- The class with a given name. -/
def ofName? (s : String) : Option Token.Kind :=
  all.find? (·.name == s)

/-- The bracket on the other side. -/
def partner? : Token.Kind → Option Token.Kind
  | openBrace => some closeBrace
  | closeBrace => some openBrace
  | openSquare => some closeSquare
  | closeSquare => some openSquare
  | openParen => some closeParen
  | closeParen => some openParen
  | _ => none

end Token.Kind

/-- A class, the source text and the place where it starts. -/
structure Token where
  kind : Token.Kind
  raw : String
  pos : Position
deriving DecidableEq

namespace Token

/-- A token as it is shown. -/
def describe (t : Token) : String :=
  t.kind.name ++ "(" ++ Text.quoted t.raw ++ ")"

/-- The text of an at-keyword without its first character. -/
def keyword (t : Token) : String :=
  String.ofList (t.raw.toList.drop 1)

/-- The first character of a string token, its quote. -/
def quote (t : Token) : String :=
  String.ofList (t.raw.toList.take 1)

/-- What stands between the two characters that open a comment and the two that close it. -/
def inner (t : Token) : List Char :=
  (t.raw.toList.take (t.raw.toList.length - 2)).drop 2

/-- The inner text of a comment without the blanks around it. -/
def text (t : Token) : List Char :=
  Text.trim t.inner

end Token

/-- The source text of a list of tokens. -/
def rawText (ts : List Token) : String :=
  String.join (ts.map Token.raw)

end PixelUnit.Sheet
