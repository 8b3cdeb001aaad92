import Lox.Tree.Cursor
import Lox.Token.Scan

/-! Recursive descent from tokens to trees. `depth` is the nesting that is still allowed, and it is what
the recursion goes down on. Chains of operators, calls and properties are collected without nesting. -/

namespace Lox

namespace Parser

/-- The binary operators, from the loosest level to the tightest. -/
def binaryLevels : List (List TokenKind) :=
  [[.kwOr], [.kwAnd], [.bangEqual, .equalEqual], [.greater, .greaterEqual, .less, .lessEqual],
    [.minus, .plus], [.slash, .star]]

def binary (left : Expr) (rest : List (Token × Expr)) : Expr :=
  rest.foldl (fun left r => .binary left r.1 r.2) left

/-- An item with the token of one of `kinds` before it, if there is such a token. -/
def behind {α : Type} (kinds : List TokenKind) (item : Parser α) : Parser (Option (Token × α)) := do
  match ← accept kinds with
  | none => pure none
  | some t => return some (t, ← item)

/-- An item, unless `stop` holds. -/
def unlessAt {α : Type} (stop : Parser Bool) (item : Parser α) : Parser (Option α) := do
  if ← stop then pure none else some <$> item

/-- `operand (operator operand)*`, grouped to the left. -/
def leftAssoc (operators : List TokenKind) (operand : Parser Expr) : Parser Expr := do
  let first ← operand
  let rest ← collect (behind operators operand)
  pure (binary first rest)

/-- One or more items with commas between them. -/
def commaSeparated {α : Type} (item : Parser α) : Parser (List α) := do
  let first ← item
  let rest ← collect (behind [.comma] item)
  pure (first :: rest.map Prod.snd)

/-- Reports a list that is too long at the next token. -/
def checkLength {α : Type} (items : List α) (tooMany : ParseProblem) : Parser Unit := do
  if maxArguments ≤ items.length then
    report (← place) tooMany

/-- What stands before a closing parenthesis: nothing, or items with commas between them. -/
def listed {α : Type} (item : Parser α) (tooMany : ParseProblem) : Parser (List α) := do
  let items ← unlessAt (nextIs .rightParen) (commaSeparated item)
  checkLength (items.getD []) tooMany
  pure (items.getD [])

/-- What may follow an operand: arguments with their closing parenthesis, or a property. -/
inductive Suffix where
  | call (paren : Token) (arguments : List Expr)
  | get (name : Token)

def Suffix.apply (callee : Expr) : Suffix → Expr
  | call paren arguments => .call callee paren arguments
  | get name => .get callee name

def suffix (expression : Parser Expr) : Parser (Option Suffix) := do
  match ← accept [.leftParen] with
  | some _ =>
    let arguments ← listed expression .tooManyArguments
    let paren ← expect .rightParen .argumentsEnd
    return some (.call paren arguments)
  | none =>
    match ← accept [.dot] with
    | some _ => return some (.get (← expect .identifier .propertyName))
    | none => pure none

def grouping (expression : Parser Expr) : Parser Expr := do
  let inner ← expression
  let _ ← expect .rightParen .groupingEnd
  pure (.grouping inner)

def primary (expression : Parser Expr) : Parser Expr := do
  match ← accept [.kwFalse, .kwTrue, .kwNil, .number, .string, .kwThis, .identifier, .leftParen] with
  | none => fail .expression
  | some t =>
    match t.kind with
    | .kwFalse => pure (.literal (.bool false))
    | .kwTrue => pure (.literal (.bool true))
    | .kwNil => pure (.literal .nil)
    | .kwThis => pure (.this t)
    | .identifier => pure (.variable t)
    | .leftParen => grouping expression
    | _ => pure (.literal t.literal)

def suffixed (expression : Parser Expr) : Parser Expr := do
  let operand ← primary expression
  let suffixes ← collect (suffix expression)
  pure (suffixes.foldl Suffix.apply operand)

/-- An assignment to what `target` stands for, if it can be assigned to. -/
def assignment? (target value : Expr) : Option Expr :=
  match target with
  | .variable name => some (.assign name value)
  | .get object name => some (.set object name value)
  | _ => none

mutual

def expression : (depth : Nat) → Parser Expr
  | 0 => throw .tooDeep
  | depth + 1 => do
    let target ← binaryLevels.foldr leftAssoc (unary depth)
    let equals ← place
    match ← accept [.equal] with
    | none => pure target
    | some _ =>
      let value ← expression depth
      match assignment? target value with
      | some e => pure e
      | none =>
        report equals .assignmentTarget
        pure target

def unary : (depth : Nat) → Parser Expr
  | 0 => throw .tooDeep
  | depth + 1 => do
    match ← accept [.bang, .minus] with
    | some operator => return .unary operator (← unary depth)
    | none => suffixed (expression depth)

end

/-- Items up to a closing brace or the end, without those that gave no result. -/
def untilBrace {α : Type} (item : Parser (Option α)) : Parser (List α) := do
  let items ← collect (unlessAt (do return (← nextIs .rightBrace) || (← atEnd)) item)
  pure (items.filterMap id)

/-- The statements of a block and its closing brace. -/
def block (declaration : Parser (Option Stmt)) : Parser (List Stmt) := do
  let statements ← untilBrace declaration
  let _ ← expect .rightBrace .blockEnd
  pure statements

def functionDeclaration (sort : FunctionSort) (declaration : Parser (Option Stmt)) : Parser Stmt := do
  let name ← expect .identifier (.functionName sort)
  let _ ← expect .leftParen (.functionParen sort)
  let params ← listed (expect .identifier .parameterName) .tooManyParameters
  let _ ← expect .rightParen .parametersEnd
  let _ ← expect .leftBrace (.functionBody sort)
  return .function name params (← block declaration)

def classDeclaration (declaration : Parser (Option Stmt)) : Parser Stmt := do
  let name ← expect .identifier .className
  let _ ← expect .leftBrace .classBody
  let methods ← untilBrace (some <$> functionDeclaration .method declaration)
  let _ ← expect .rightBrace .classEnd
  pure (.class name methods)

def varDeclaration (expression : Parser Expr) : Parser Stmt := do
  let name ← expect .identifier .variableName
  let initializer ← behind [.equal] expression
  let _ ← expect .semicolon .variableEnd
  pure (.var name (initializer.map Prod.snd))

def expressionStatement (expression : Parser Expr) : Parser Stmt := do
  let inner ← expression
  let _ ← expect .semicolon .expressionEnd
  pure (.expression inner)

def printStatement (expression : Parser Expr) : Parser Stmt := do
  let inner ← expression
  let _ ← expect .semicolon .printEnd
  pure (.print inner)

def returnStatement (keyword : Token) (expression : Parser Expr) : Parser Stmt := do
  let value ← unlessAt (nextIs .semicolon) expression
  let _ ← expect .semicolon .returnEnd
  pure (.return keyword value)

def whileStatement (expression : Parser Expr) (statement : Parser Stmt) : Parser Stmt := do
  let _ ← expect .leftParen .whileParen
  let condition ← expression
  let _ ← expect .rightParen .whileEnd
  return .while condition (← statement)

/-- An `else` belongs to the nearest open `if`. -/
def ifStatement (expression : Parser Expr) (statement : Parser Stmt) : Parser Stmt := do
  let _ ← expect .leftParen .ifParen
  let condition ← expression
  let _ ← expect .rightParen .ifEnd
  let whenTrue ← statement
  let whenFalse ← behind [.kwElse] statement
  pure (.branch condition whenTrue (whenFalse.map Prod.snd))

/-- A `for` as a `while`: the increment runs after the body, the initializer before the loop, each in a
block of its own. -/
def loop (initializer : Option Stmt) (condition increment : Option Expr) (body : Stmt) : Stmt :=
  let body := match increment with
    | some e => .block [body, .expression e]
    | none => body
  let loop := .while (condition.getD (.literal (.bool true))) body
  match initializer with
  | some s => .block [s, loop]
  | none => loop

/-- What a `for` begins with: a declaration, an expression statement, or a semicolon alone. -/
def loopStart (expression : Parser Expr) : Parser (Option Stmt) := do
  match ← accept [.semicolon, .kwVar] with
  | some t => if t.kind = .kwVar then some <$> varDeclaration expression else pure none
  | none => some <$> expressionStatement expression

def forStatement (expression : Parser Expr) (statement : Parser Stmt) : Parser Stmt := do
  let _ ← expect .leftParen .forParen
  let initializer ← loopStart expression
  let condition ← unlessAt (nextIs .semicolon) expression
  let _ ← expect .semicolon .forCondition
  let increment ← unlessAt (nextIs .rightParen) expression
  let _ ← expect .rightParen .forEnd
  return loop initializer condition increment (← statement)

mutual

/-- No result stands for a malformed declaration, from which the parser has recovered. -/
def declaration : (depth : Nat) → Parser (Option Stmt)
  | 0 => throw .tooDeep
  | depth + 1 => recovering do
    match ← accept [.kwClass, .kwFun, .kwVar] with
    | none => statement depth
    | some t =>
      match t.kind with
      | .kwClass => classDeclaration (declaration depth)
      | .kwFun => functionDeclaration .function (declaration depth)
      | _ => varDeclaration (expression depth)

def statement : (depth : Nat) → Parser Stmt
  | 0 => throw .tooDeep
  | depth + 1 => do
    match ← accept [.kwFor, .kwIf, .kwPrint, .kwReturn, .kwWhile, .leftBrace] with
    | none => expressionStatement (expression depth)
    | some t =>
      match t.kind with
      | .kwFor => forStatement (expression depth) (statement depth)
      | .kwIf => ifStatement (expression depth) (statement depth)
      | .kwPrint => printStatement (expression depth)
      | .kwReturn => returnStatement t (expression depth)
      | .kwWhile => whileStatement (expression depth) (statement depth)
      | _ => return .block (← block (declaration depth))

end

/-- Declarations up to the end of the tokens. -/
def program (depth : Nat) : Parser (List Stmt) := do
  let statements ← collect (unlessAt atEnd (limiting (declaration depth)))
  pure (statements.filterMap id)

end Parser

/-- The tokens before the first ending one, and the line that one stands on. -/
structure TokenStream where
  tokens : List Token
  lastLine : Int

namespace TokenStream

/-- A list without an ending token ends on the line of its last token. -/
def ofList (ts : List Token) : TokenStream where
  tokens := ts.takeWhile (·.kind ≠ .eof)
  lastLine :=
    match ts.find? (·.kind = .eof) with
    | some t => t.line
    | none => (ts.getLast?.map Token.line).getD 1

def ofScan (s : Scan) : TokenStream := ⟨s.tokens, s.lastLine⟩

end TokenStream

/-- A parsed program: its statements, and the errors in the order they were found. -/
structure Program where
  statements : List Stmt
  errors : List ParseError

def Program.ofTokens (depth : Nat) (tokens : List Token) : Program :=
  match Parser.program depth ⟨tokens, #[]⟩ with
  | .ok statements s => ⟨statements, s.errors.toList⟩
  | .error _ s => ⟨[], s.errors.toList⟩

/-- A parsed expression, if the tokens begin with one, with what was left of them. -/
structure ParsedExpression where
  result : Option Expr
  rest : List Token
  errors : List ParseError

def ParsedExpression.ofTokens (depth : Nat) (tokens : List Token) : ParsedExpression :=
  match Parser.expression depth ⟨tokens, #[]⟩ with
  | .ok e s => ⟨some e, s.rest, s.errors.toList⟩
  | .error .malformed s => ⟨none, s.rest, s.errors.toList⟩
  | .error .tooDeep s => ⟨none, s.rest, (s.errors.push ⟨s.rest, .nesting⟩).toList⟩

end Lox
