/-!
# Tokens — the words of a source

A source is a sequence of symbols, words, numbers and strings.  Text that starts none of these, and
a string that is never closed, become tokens as well, of the kind `invalid`.  The end of the source
is a token of its own, with an empty span.
-/

namespace ArithVM

/-- Why a piece of text is no proper token. -/
inductive LexError where
  | unexpectedCharacter
  | unterminatedString
deriving DecidableEq, Repr, Inhabited

namespace LexError

def message : LexError → String
  | .unexpectedCharacter => "Unexpected character."
  | .unterminatedString => "Unterminated string."

end LexError

/-- Punctuation and operators. -/
inductive Symbol where
  | leftParen | rightParen | leftBrace | rightBrace
  | comma | dot | minus | plus | semicolon | slash | star
  | bang | bangEqual | equal | equalEqual
  | less | lessEqual | greater | greaterEqual
deriving DecidableEq, Repr

namespace Symbol

/-- How a symbol is written. -/
def text : Symbol → String
  | .leftParen => "("
  | .rightParen => ")"
  | .leftBrace => "\x7b"
  | .rightBrace => "\x7d"
  | .comma => ","
  | .dot => "."
  | .minus => "-"
  | .plus => "+"
  | .semicolon => ";"
  | .slash => "/"
  | .star => "*"
  | .bang => "!"
  | .bangEqual => "!="
  | .equal => "="
  | .equalEqual => "=="
  | .less => "<"
  | .lessEqual => "<="
  | .greater => ">"
  | .greaterEqual => ">="

/-- What a symbol is called in listings. -/
def name : Symbol → String
  | .leftParen => "LEFT_PAREN"
  | .rightParen => "RIGHT_PAREN"
  | .leftBrace => "LEFT_BRACE"
  | .rightBrace => "RIGHT_BRACE"
  | .comma => "COMMA"
  | .dot => "DOT"
  | .minus => "MINUS"
  | .plus => "PLUS"
  | .semicolon => "SEMICOLON"
  | .slash => "SLASH"
  | .star => "STAR"
  | .bang => "BANG"
  | .bangEqual => "BANG_EQUAL"
  | .equal => "EQUAL"
  | .equalEqual => "EQUAL_EQUAL"
  | .less => "LESS"
  | .lessEqual => "LESS_EQUAL"
  | .greater => "GREATER"
  | .greaterEqual => "GREATER_EQUAL"

/-- Every symbol, the longer ones first: in this order the first match is the longest. -/
def all : List Symbol :=
  [.bangEqual, .equalEqual, .lessEqual, .greaterEqual,
   .leftParen, .rightParen, .leftBrace, .rightBrace, .comma, .dot, .minus, .plus, .semicolon,
   .slash, .star, .bang, .equal, .less, .greater]

theorem mem_all (s : Symbol) : s ∈ all := by
  cases s <;> decide

theorem toList_text_ne_nil (s : Symbol) : s.text.toList ≠ [] := by
  cases s <;> decide

/-- The longest symbol at the front of a text. -/
def leading? (cs : List Char) : Option Symbol :=
  all.find? fun s => s.text.toList.isPrefixOf cs

end Symbol

/-- The reserved words. -/
inductive Keyword where
  | andWord | classWord | elseWord | falseWord | forWord | funWord | ifWord | nilWord
  | orWord | printWord | returnWord | superWord | thisWord | trueWord | varWord | whileWord
deriving DecidableEq, Repr

namespace Keyword

/-- How a reserved word is written. -/
def text : Keyword → String
  | .andWord => "and"
  | .classWord => "class"
  | .elseWord => "else"
  | .falseWord => "false"
  | .forWord => "for"
  | .funWord => "fun"
  | .ifWord => "if"
  | .nilWord => "nil"
  | .orWord => "or"
  | .printWord => "print"
  | .returnWord => "return"
  | .superWord => "super"
  | .thisWord => "this"
  | .trueWord => "true"
  | .varWord => "var"
  | .whileWord => "while"

/-- What a reserved word is called in listings: itself in capitals. -/
def name (word : Keyword) : String :=
  word.text.toUpper

def all : List Keyword :=
  [.andWord, .classWord, .elseWord, .falseWord, .forWord, .funWord, .ifWord, .nilWord,
   .orWord, .printWord, .returnWord, .superWord, .thisWord, .trueWord, .varWord, .whileWord]

theorem mem_all (word : Keyword) : word ∈ all := by
  cases word <;> decide

/-- The reserved word that is written so, if there is one. -/
def ofText? (text : String) : Option Keyword :=
  all.find? fun word => word.text = text

theorem ofText?_text (word : Keyword) : ofText? word.text = some word := by
  cases word <;> decide

end Keyword

/-- What sort of token a piece of text is. -/
inductive TokenKind where
  | symbol (s : Symbol)
  | keyword (word : Keyword)
  | identifier
  | string
  | number
  | invalid (error : LexError)
  | endOfInput
deriving DecidableEq, Repr

namespace TokenKind

/-- What a kind is called in listings. -/
def name : TokenKind → String
  | .symbol s => s.name
  | .keyword word => word.name
  | .identifier => "IDENTIFIER"
  | .string => "STRING"
  | .number => "NUMBER"
  | .invalid _ => "ERROR"
  | .endOfInput => "EOF"

/-- The error of an invalid token. -/
def error? : TokenKind → Option LexError
  | .invalid error => some error
  | _ => none

end TokenKind

/-- A range of byte offsets in a source: from `start` up to but not including `stop`. -/
structure Span where
  start : Nat
  stop : Nat
deriving DecidableEq, Repr

/-- A classified piece of a source. -/
structure Token where
  kind : TokenKind
  /-- The piece itself, as it stands in the source. -/
  text : String
  /-- Where the piece stands. -/
  span : Span
  /-- The line on which the piece begins, counted from one. -/
  line : Nat
deriving DecidableEq, Repr

namespace Token

/-- What a listing shows for a token: its text, or what is wrong with it. -/
def lexeme (t : Token) : String :=
  match t.kind with
  | .invalid error => error.message
  | _ => t.text

end Token

/-- All tokens of a source: those of its text, and the one that marks its end. -/
structure Tokens where
  body : List Token
  finish : Token
deriving DecidableEq, Repr

namespace Tokens

/-- The tokens in the order of the source, the end included. -/
def toList (tokens : Tokens) : List Token :=
  tokens.body ++ [tokens.finish]

end Tokens

end ArithVM
