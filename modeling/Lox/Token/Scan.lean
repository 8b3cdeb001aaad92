import Lox.Token.Item
import Lox.Diagnostic

/-! The scan of a text: its tokens with their lines, what was wrong with it, and its last line. A token
belongs to the line it ends on. -/

namespace Lox

inductive LexicalProblem where
  | unexpectedCharacter (c : Char)
  | unterminatedString

def LexicalProblem.message : LexicalProblem → String
  | unexpectedCharacter c => s!"Unexpected character: {c}."
  | unterminatedString => "Unterminated string."

structure LexicalError where
  line : Int
  problem : LexicalProblem

def LexicalError.diagnostic (e : LexicalError) : Diagnostic := .source e.line "" e.problem.message

namespace Item

def literal (kind : TokenKind) (text : List Char) : Literal :=
  match kind with
  | .string => .string (String.ofList (text.drop 1).dropLast)
  | .number => .number (Number.ofNumeral text)
  | _ => .nil

def token? (line : Int) : Item → Option Token
  | token kind text => some ⟨kind, String.ofList text, literal kind text, line⟩
  | _ => none

def error? (line : Int) : Item → Option LexicalError
  | unexpected c => some ⟨line, .unexpectedCharacter c⟩
  | unclosed _ => some ⟨line, .unterminatedString⟩
  | _ => none

end Item

/-- `tokens` holds the tokens without the ending one, which stands on `lastLine`. -/
structure Scan where
  tokens : List Token
  errors : List LexicalError
  lastLine : Int

namespace Scan

def ofItems (line : Int) : List Item → Scan
  | [] => ⟨[], [], line⟩
  | i :: is =>
    let after := line + i.newlines
    let rest := ofItems after is
    ⟨(i.token? after).toList ++ rest.tokens, (i.error? after).toList ++ rest.errors, rest.lastLine⟩

def ofText (source : String) : Scan := ofItems 1 (Item.ofChars source.toList)

def allTokens (s : Scan) : List Token := s.tokens ++ [Token.ending s.lastLine]

def diagnostics (s : Scan) : List Diagnostic := s.errors.map LexicalError.diagnostic

end Scan

/-- Opening less closing braces, those in strings and comments apart. -/
def braceDepth (source : String) : Int :=
  let tokens := (Scan.ofText source).tokens
  tokens.countP (·.kind = .leftBrace) - tokens.countP (·.kind = .rightBrace)

end Lox
