import Lox.Literal

/-! Tokens: the kinds, the reserved words and the two texts of a token. -/

namespace Lox

inductive TokenKind where
  | leftParen | rightParen | leftBrace | rightBrace | comma | dot | minus | plus | semicolon | slash
  | star
  | bang | bangEqual | equal | equalEqual | greater | greaterEqual | less | lessEqual
  | identifier | string | number
  | kwAnd | kwClass | kwElse | kwFalse | kwFun | kwFor | kwIf | kwNil | kwOr | kwPrint | kwReturn
  | kwSuper | kwThis | kwTrue | kwVar | kwWhile
  | eof
  deriving DecidableEq

namespace TokenKind

def all : List TokenKind :=
  [leftParen, rightParen, leftBrace, rightBrace, comma, dot, minus, plus, semicolon, slash, star,
    bang, bangEqual, equal, equalEqual, greater, greaterEqual, less, lessEqual, identifier, string,
    number, kwAnd, kwClass, kwElse, kwFalse, kwFun, kwFor, kwIf, kwNil, kwOr, kwPrint, kwReturn,
    kwSuper, kwThis, kwTrue, kwVar, kwWhile, eof]

def name : TokenKind → String
  | leftParen => "LEFT_PAREN"
  | rightParen => "RIGHT_PAREN"
  | leftBrace => "LEFT_BRACE"
  | rightBrace => "RIGHT_BRACE"
  | comma => "COMMA"
  | dot => "DOT"
  | minus => "MINUS"
  | plus => "PLUS"
  | semicolon => "SEMICOLON"
  | slash => "SLASH"
  | star => "STAR"
  | bang => "BANG"
  | bangEqual => "BANG_EQUAL"
  | equal => "EQUAL"
  | equalEqual => "EQUAL_EQUAL"
  | greater => "GREATER"
  | greaterEqual => "GREATER_EQUAL"
  | less => "LESS"
  | lessEqual => "LESS_EQUAL"
  | identifier => "IDENTIFIER"
  | string => "STRING"
  | number => "NUMBER"
  | kwAnd => "AND"
  | kwClass => "CLASS"
  | kwElse => "ELSE"
  | kwFalse => "FALSE"
  | kwFun => "FUN"
  | kwFor => "FOR"
  | kwIf => "IF"
  | kwNil => "NIL"
  | kwOr => "OR"
  | kwPrint => "PRINT"
  | kwReturn => "RETURN"
  | kwSuper => "SUPER"
  | kwThis => "THIS"
  | kwTrue => "TRUE"
  | kwVar => "VAR"
  | kwWhile => "WHILE"
  | eof => "EOF"

def ofName? (name : String) : Option TokenKind := all.find? (·.name = name)

theorem ofName?_name (k : TokenKind) : ofName? k.name = some k := by
  cases k <;> decide

/-- The reserved words. `super` is reserved and has no production. -/
def words : List (String × TokenKind) :=
  [("and", kwAnd), ("class", kwClass), ("else", kwElse), ("false", kwFalse), ("for", kwFor),
    ("fun", kwFun), ("if", kwIf), ("nil", kwNil), ("or", kwOr), ("print", kwPrint), ("return", kwReturn),
    ("super", kwSuper), ("this", kwThis), ("true", kwTrue), ("var", kwVar), ("while", kwWhile)]

def ofWord (word : String) : TokenKind := (words.lookup word).getD identifier

/-- The kinds at which a parser takes up again after an error. -/
def startsStatement : TokenKind → Bool
  | kwClass | kwFor | kwFun | kwIf | kwPrint | kwReturn | kwVar | kwWhile => true
  | _ => false

end TokenKind

structure Token where
  kind : TokenKind
  lexeme : String
  literal : Literal
  line : Int

namespace Token

/-- The token that ends every list of tokens. -/
def ending (line : Int) : Token := ⟨.eof, "", .nil, line⟩

def display (t : Token) : String := s!"{t.kind.name} {t.lexeme} {t.literal.display}"

def written (t : Token) : String :=
  s!"Token({t.kind.name}, {Text.quoted t.lexeme}, {t.literal.written}, {t.line})"

def same (a b : Token) : Bool :=
  a.kind = b.kind && a.lexeme == b.lexeme && a.literal.same b.literal && a.line == b.line

end Token

end Lox
