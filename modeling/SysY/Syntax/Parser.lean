import SysY.Syntax
import SysY.Token

/-!
# Parsing

The grammar is read by recursive descent with one token of lookahead, and a
little more at three places: `int f (` begins a function and not a
declaration, a name before `(` is a call, and a statement that begins with a
name is tried as an assignment first and read again as an expression if that
fails.

A `Cursor` holds the tokens that are left and the span of the latest token
taken, which is where an error is reported and where the span of a node
ends. Rules that nest (`expr`, `initVal`, `statement`) descend on a counter
that is larger than the number of tokens left: each level of nesting takes a
token first, so the counter never runs out.
-/

namespace SysY

namespace Parser

/-- What can be wrong with a sequence of tokens. -/
inductive Error where
  | unexpectedToken (expected found : Token)
  /-- A token was required, and there are none left. -/
  | missingToken (expected : Token)
  | expectedIdent
  | expectedType
  | expectedExpr
  | unexpectedEnd
deriving DecidableEq, Repr

def Error.message : Error → String
  | unexpectedToken e f => "Expected " ++ e.describe ++ ", found " ++ f.describe ++ " instead"
  | missingToken e => "Expected " ++ e.describe ++ ", none was found instead"
  | expectedIdent => "Expected identifier"
  | expectedType => "Expected `int` or `void`"
  | expectedExpr => "Expected an expression"
  | unexpectedEnd => "Abrupt end of program"

/-- Where the parser is. -/
structure Cursor where
  rest : List (Located Token)
  /-- Where the latest token taken stands. -/
  last : Span
deriving Repr

end Parser

/-- A rule of the grammar: it takes tokens from the cursor and gives a value,
or fails at a place. -/
abbrev Parser := StateT Parser.Cursor (Except (Located Parser.Error))

namespace Parser

/-! ## Single tokens -/

/-- Fail at the latest token taken. -/
def fail {α : Type} (e : Error) : Parser α := fun c => .error ⟨e, c.last⟩

/-- The next token, which is left where it is. -/
def peek : Parser (Option Token) := fun c => .ok (c.rest.head?.map (·.value), c)

/-- Where the next token stands, or the latest one if none is left. -/
def peekSpan : Parser Span := fun c => .ok ((c.rest.head?.map (·.span)).getD c.last, c)

/-- Where the latest token taken stands. -/
def lastSpan : Parser Span := fun c => .ok (c.last, c)

/-- How many tokens are left. -/
def remaining : Parser Nat := fun c => .ok (c.rest.length, c)

def next : Parser (Located Token) := fun c =>
  match c.rest with
  | t :: ts => .ok (t, ⟨ts, t.span⟩)
  | [] => .error ⟨.unexpectedEnd, c.last⟩

/-- Take the next token if it is `t`, and say whether it was. -/
def accept (t : Token) : Parser Bool := do
  if (← peek) = some t then
    let _ ← next
    return true
  else
    return false

/-- Take the next token, which has to be `t`. -/
def expect (t : Token) : Parser Unit := fun c =>
  match c.rest with
  | f :: ts =>
    if f.value = t then .ok ((), ⟨ts, f.span⟩) else .error ⟨.unexpectedToken t f.value, f.span⟩
  | [] => .error ⟨.missingToken t, c.last⟩

def ident : Parser Ident := do
  let t ← next
  match t.value with
  | .ident name => return ⟨name, t.span⟩
  | _ => fail .expectedIdent

/-- The result of a rule if it succeeds; otherwise nothing is taken. -/
def attempt {α : Type} (p : Parser α) : Parser (Option α) := fun c =>
  match p c with
  | .ok (a, c') => .ok (some a, c')
  | .error _ => .ok (none, c)

/-- The span from the start of `s` to the latest token taken. -/
def spanFrom (s : Span) : Parser Span := return s.join (← lastSpan)

/-! ## Repetition -/

/-- What `p` reads after each `t`, for as long as a `t` follows. The counter
bounds the number of turns. -/
def manyAfter {α : Type} (t : Token) (p : Parser α) : Nat → Parser (List α)
  | 0 => return []
  | n + 1 => do
    if ← accept t then
      let x ← p
      return x :: (← manyAfter t p n)
    else
      return []

/-- Items separated by commas up to the token `close`, possibly none. -/
def commaList {α : Type} (close : Mark) (p : Parser α) : Parser (List α) := do
  if ← accept (.mark close) then
    return []
  else
    let x ← p
    let xs ← manyAfter (.mark .comma) p (← remaining)
    expect (.mark close)
    return x :: xs

/-- The rest of a chain of operands joined by operators, which group to the
left. -/
def chainFrom {α β : Type} (operand : Parser α) (op? : Token → Option β) (join : β → α → α → α) :
    Nat → α → Parser α
  | 0, lhs => return lhs
  | n + 1, lhs => do
    match (← peek).bind op? with
    | some op =>
      let _ ← next
      let rhs ← operand
      chainFrom operand op? join n (join op lhs rhs)
    | none => return lhs

/-- A chain of operands joined by operators, which group to the left. -/
def chain {α β : Type} (operand : Parser α) (op? : Token → Option β) (join : β → α → α → α) :
    Parser α := do
  let lhs ← operand
  chainFrom operand op? join (← remaining) lhs

/-! ## Expressions -/

/-- The operators that stand before an operand. -/
def unaryOp? : Token → Option UnaryOp
  | .mark .plus => some .plus
  | .mark .minus => some .minus
  | .mark .not => some .not
  | _ => none

def productOp? : Token → Option BinOp
  | .mark .times => some .mul
  | .mark .slash => some .div
  | .mark .percent => some .mod
  | _ => none

def sumOp? : Token → Option BinOp
  | .mark .plus => some .add
  | .mark .minus => some .sub
  | _ => none

/-- Join two operands, from the start of the first to the end of the second. -/
def joinBinary (op : BinOp) (lhs rhs : Expr) : Expr :=
  .binary (lhs.span.join rhs.span) op lhs rhs

/-- Whether a call begins here. -/
def atCall : List (Located Token) → Bool
  | ⟨.ident _, _⟩ :: ⟨.mark .openParen, _⟩ :: _ => true
  | _ => false

section

variable (expr : Parser Expr)

/-- The subscripts that follow, possibly none, where `expr` reads what stands
between brackets. -/
def subscripts : Parser (List Expr) := do
  manyAfter (.mark .openBracket)
    (do
      let e ← expr
      expect (.mark .closeBracket)
      return e)
    (← remaining)

/-- A name with subscripts. -/
def lval : Parser LVal := do
  let name ← ident
  let indices ← subscripts expr
  return ⟨← spanFrom name.span, name, indices⟩

/-- A call, by its name and its arguments. -/
def call : Parser Expr := do
  let callee ← ident
  expect (.mark .openParen)
  let args ← commaList .closeParen expr
  return .call (← spanFrom callee.span) callee args

/-- The operands that no operator divides; `expr` reads what nests in them. -/
def primary : Parser Expr := do
  let start ← peekSpan
  match ← peek with
  | some (.mark .openParen) =>
    let _ ← next
    let inner ← expr
    expect (.mark .closeParen)
    return .paren (← spanFrom start) inner
  | some (.number text) =>
    let _ ← next
    return .number (← spanFrom start) text
  | some (.ident _) =>
    if atCall (← get).rest then
      call expr
    else
      let l ← lval expr
      return .lval l.span l.name l.indices
  | _ =>
    let _ ← next
    fail .expectedExpr

/-- Operators before a primary expression, possibly none. -/
def unary : Nat → Parser Expr
  | 0 => primary expr
  | n + 1 => do
    match (← peek).bind unaryOp? with
    | some op =>
      let _ ← next
      let start ← lastSpan
      let operand ← unary n
      return .unary (← spanFrom start) ⟨op, start⟩ operand
    | none => primary expr

def product : Parser Expr :=
  chain (do unary expr (← remaining)) productOp? joinBinary

def sum : Parser Expr := chain (product expr) sumOp? joinBinary

end

/-- An expression nested at most as deep as the counter. -/
def exprWithin : Nat → Parser Expr
  | 0 => fail .unexpectedEnd
  | n + 1 => sum (exprWithin n)

/-- **An expression.** -/
def expr : Parser Expr := do exprWithin ((← remaining) + 1)

/-! ## Conditions -/

/-- The comparisons by size. -/
def relationalOp? : Token → Option CmpOp
  | .mark .less => some .less
  | .mark .greater => some .greater
  | .mark .lessEqual => some .lessEqual
  | .mark .greaterEqual => some .greaterEqual
  | _ => none

/-- The comparisons for equality. -/
def equalityOp? : Token → Option CmpOp
  | .mark .equal => some .equal
  | .mark .notEqual => some .notEqual
  | _ => none

/-- The connective that a mark writes, if it is `op`. -/
def logicOp? (op : LogicOp) (t : Token) : Option LogicOp :=
  match op, t with
  | .and, .mark .and => some .and
  | .or, .mark .or => some .or
  | _, _ => none

def joinCompare (op : CmpOp) (lhs rhs : Cond) : Cond :=
  .compare (lhs.span.join rhs.span) op lhs rhs

def joinLogic (op : LogicOp) (lhs rhs : Cond) : Cond :=
  .logic (lhs.span.join rhs.span) op lhs rhs

/-- Expressions compared by size. -/
def relational : Parser Cond := chain (Cond.expr <$> expr) relationalOp? joinCompare

/-- Conditions compared for equality. -/
def equality : Parser Cond := chain relational equalityOp? joinCompare

/-- Conditions that all have to hold. -/
def conjunction : Parser Cond := chain equality (logicOp? .and) joinLogic

/-- **A condition**: conjunctions one of which has to hold. -/
def cond : Parser Cond := chain conjunction (logicOp? .or) joinLogic

/-! ## Declarations -/

/-- An initial value nested at most as deep as the counter. -/
def initValWithin : Nat → Parser InitVal
  | 0 => fail .unexpectedEnd
  | n + 1 => do
    let start ← peekSpan
    if ← accept (.mark .openBrace) then
      let items ← commaList .closeBrace (initValWithin n)
      return .list (← spanFrom start) items
    else
      return .expr (← expr)

def initVal : Parser InitVal := do initValWithin ((← remaining) + 1)

/-- One name of a declaration, with dimensions and an initial value. -/
def definition : Parser Definition := do
  let name ← ident
  let dims ← subscripts expr
  if ← accept (.mark .assign) then
    let mark ← lastSpan
    let value ← initVal
    return ⟨name, dims, some ⟨mark, value⟩⟩
  else
    return ⟨name, dims, none⟩

/-- **A declaration.** -/
def decl : Parser Decl := do
  let constant ← accept (.keyword .const)
  expect (.keyword .int)
  let first ← definition
  let others ← manyAfter (.mark .comma) definition (← remaining)
  expect (.mark .semicolon)
  return ⟨constant, first, others⟩

/-! ## Statements -/

/-- The target of an assignment and its `=`. -/
def assignment : Parser (LVal × Span) := do
  let target ← lval expr
  expect (.mark .assign)
  return (target, ← lastSpan)

/-- An expression for its effect, or nothing, up to the semicolon. -/
def exprStatement : Parser Stmt := do
  if ← accept (.mark .semicolon) then
    return .eval none
  else
    let e ← expr
    expect (.mark .semicolon)
    return .eval (some e)

/-- An assignment if one can be read here, and otherwise an expression. -/
def assignOrExpr : Parser Stmt := do
  match ← attempt assignment with
  | some (target, mark) =>
    let value ← expr
    expect (.mark .semicolon)
    return .assign target mark value
  | none => exprStatement

/-- A keyword, a condition in parentheses, and a statement. -/
def guarded (k : Keyword) (statement : Parser Stmt) : Parser (Cond × Stmt) := do
  expect (.keyword k)
  expect (.mark .openParen)
  let c ← cond
  expect (.mark .closeParen)
  let body ← statement
  return (c, body)

/-- The declarations and statements up to the closing brace. -/
def blockRest (statement : Parser Stmt) : Nat → Parser Block
  | 0 => fail .unexpectedEnd
  | n + 1 => do
    if ← accept (.mark .closeBrace) then
      return .nil
    else
      match ← peek with
      | some (.keyword .const) | some (.keyword .int) =>
        let d ← decl
        return .decl d (← blockRest statement n)
      | _ =>
        let s ← statement
        return .stmt s (← blockRest statement n)

/-- A block, where `statement` reads what nests in it. -/
def blockOf (statement : Parser Stmt) : Parser Block := do
  expect (.mark .openBrace)
  blockRest statement ((← remaining) + 1)

/-- What follows the first branch of an `if`. -/
def otherwise (statement : Parser Stmt) : Nat → Parser Otherwise
  | 0 => return .done
  | n + 1 => do
    if ← accept (.keyword .else_) then
      if (← peek) = some (.keyword .if_) then
        let (c, body) ← guarded .if_ statement
        return .elseIf c body (← otherwise statement n)
      else
        return .else_ (← statement)
    else
      return .done

/-- The value of a `return`, if one is given. -/
def returnValue : Parser (Option Expr) := do
  if (← peek) = some (.mark .semicolon) then return none else return some (← expr)

/-- A statement nested at most as deep as the counter. -/
def statementWithin : Nat → Parser Stmt
  | 0 => fail .unexpectedEnd
  | n + 1 => do
    let statement := statementWithin n
    match ← peek with
    | some (.mark .openBrace) => return .block (← blockOf statement)
    | some (.keyword .if_) =>
      let (c, body) ← guarded .if_ statement
      return .if_ c body (← otherwise statement (← remaining))
    | some (.keyword .while_) =>
      let (c, body) ← guarded .while_ statement
      return .while_ c body
    | some (.keyword .break_) =>
      let keyword ← next
      expect (.mark .semicolon)
      return .break_ keyword.span
    | some (.keyword .continue_) =>
      let keyword ← next
      expect (.mark .semicolon)
      return .continue_ keyword.span
    | some (.keyword .return_) =>
      let keyword ← next
      let value ← returnValue
      expect (.mark .semicolon)
      return .return_ keyword.span value
    | some (.ident _) => assignOrExpr
    | _ => exprStatement

/-- **A statement.** -/
def statement : Parser Stmt := do statementWithin ((← remaining) + 1)

/-- **A block.** -/
def block : Parser Block := blockOf statement

/-! ## Programs -/

/-- Whether a function begins here, and not a declaration. -/
def atFunction : List (Located Token) → Bool
  | ⟨.keyword k, _⟩ :: ⟨.ident _, _⟩ :: ⟨.mark .openParen, _⟩ :: _ => k = .int ∨ k = .void
  | _ => false

def returnType : Parser ReturnType := do
  match (← next).value with
  | .keyword .int => return .int
  | .keyword .void => return .void
  | _ => fail .expectedType

def parameter : Parser Parameter := do
  expect (.keyword .int)
  let name ← ident
  if ← accept (.mark .openBracket) then
    expect (.mark .closeBracket)
    return ⟨name, some (← subscripts expr)⟩
  else
    return ⟨name, none⟩

/-- **A function.** -/
def function : Parser FunctionDef := do
  let returns ← returnType
  let name ← ident
  expect (.mark .openParen)
  let params ← commaList .closeParen parameter
  let body ← block
  return ⟨returns, name, params, body⟩

/-- A function or a declaration. -/
def topLevel : Parser TopLevel := do
  if atFunction (← get).rest then
    return .function (← function)
  else
    return .decl (← decl)

/-- The units of a program up to the end of the tokens. -/
def topLevels : Nat → Parser (List TopLevel)
  | 0 => return []
  | n + 1 => do
    if (← get).rest.isEmpty then
      return []
    else
      let u ← topLevel
      return u :: (← topLevels n)

def program : Parser Program := return ⟨← topLevels (← remaining)⟩

end Parser

/-- **Parse a token list.** The error of a program that is none is the first
one met, reading from left to right. -/
def Program.parse (tokens : List (Located Token)) : Except (Located Parser.Error) Program :=
  (Parser.program ⟨tokens, Span.origin⟩).map (·.1)

end SysY
