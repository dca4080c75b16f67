import Mathlib.Tactic.Tauto
import SysY.Syntax
import SysY.Token

/-!
# Spelling trees

What the parser is measured by, said on trees and without it.

* `spell` writes a tree as tokens, each node by its own production.
* `stratified` says that a tree has the shape that its spelling has. Every
  operator has a rank, and so has every node: the left operand of an operator
  does not bind looser than it, and the right one binds tighter, so chains nest
  to the left. An `else` belongs to the nearest `if` that it can belong to:
  what stands before it does not end in an `if` without `else`
  (`Stmt.endsOpen`), and an `if` after `else` is a part of the chain.
* `erase` forgets where things stand.
-/

namespace SysY

/-! ## Operators -/

/-- How an operator before its operand is written. -/
def UnaryOp.token : UnaryOp → Token
  | plus => .mark .plus
  | minus => .mark .minus
  | not => .mark .not

def BinOp.token : BinOp → Token
  | add => .mark .plus
  | sub => .mark .minus
  | mul => .mark .times
  | div => .mark .slash
  | mod => .mark .percent

def CmpOp.token : CmpOp → Token
  | equal => .mark .equal
  | notEqual => .mark .notEqual
  | less => .mark .less
  | greater => .mark .greater
  | lessEqual => .mark .lessEqual
  | greaterEqual => .mark .greaterEqual

def LogicOp.token : LogicOp → Token
  | and => .mark .and
  | or => .mark .or

/-- How loosely an arithmetic operator binds. Operands without an operator have
rank zero, and operators before them rank one. -/
def BinOp.rank : BinOp → Nat
  | mul | div | mod => 2
  | add | sub => 3

def CmpOp.rank : CmpOp → Nat
  | less | greater | lessEqual | greaterEqual => 4
  | equal | notEqual => 5

def LogicOp.rank : LogicOp → Nat
  | and => 6
  | or => 7

/-! ## Lists -/

/-- Things separated by commas, and the mark that closes the list. -/
def spellList (close : Mark) : List (List Token) → List Token
  | [] => [.mark close]
  | x :: xs => x ++ (xs.flatMap (.mark .comma :: ·) ++ [.mark close])

/-- Things in brackets. -/
def spellSubscripts (xs : List (List Token)) : List Token :=
  xs.flatMap fun x => .mark .openBracket :: (x ++ [.mark .closeBracket])

/-! ## Expressions -/

mutual

/-- **An expression as tokens.** -/
def Expr.spell : Expr → List Token
  | number _ text => [.number text]
  | lval _ x is => .ident x.value :: spellSubscripts (Expr.spellAll is)
  | call _ f args =>
    .ident f.value :: .mark .openParen :: spellList .closeParen (Expr.spellAll args)
  | unary _ op e => op.value.token :: e.spell
  | binary _ op a b => a.spell ++ op.token :: b.spell
  | paren _ e => .mark .openParen :: (e.spell ++ [.mark .closeParen])

/-- The expressions of a list as tokens, each by itself. -/
def Expr.spellAll : List Expr → List (List Token)
  | [] => []
  | e :: es => e.spell :: Expr.spellAll es

end

/-- The rank of the operator at the top of an expression. -/
def Expr.rank : Expr → Nat
  | number .. | lval .. | call .. | paren .. => 0
  | unary .. => 1
  | binary _ op _ _ => op.rank

mutual

/-- **Whether an expression has the shape of its spelling.** -/
def Expr.stratified : Expr → Bool
  | number .. => true
  | lval _ _ es | call _ _ es => Expr.allStratified es
  | unary _ _ e => decide (e.rank ≤ 1) && e.stratified
  | binary _ op a b =>
    decide (a.rank ≤ op.rank) && decide (b.rank < op.rank) && a.stratified && b.stratified
  | paren _ e => e.stratified

/-- Whether the expressions of a list are stratified. -/
def Expr.allStratified : List Expr → Bool
  | [] => true
  | e :: es => e.stratified && Expr.allStratified es

end

/-- A name without its place. -/
def Ident.erase (x : Ident) : Ident := ⟨x.value, default⟩

mutual

/-- **An expression without places.** -/
def Expr.erase : Expr → Expr
  | number _ text => .number default text
  | lval _ x is => .lval default x.erase (Expr.eraseAll is)
  | call _ f args => .call default f.erase (Expr.eraseAll args)
  | unary _ op e => .unary default ⟨op.value, default⟩ e.erase
  | binary _ op a b => .binary default op a.erase b.erase
  | paren _ e => .paren default e.erase

def Expr.eraseAll : List Expr → List Expr
  | [] => []
  | e :: es => e.erase :: Expr.eraseAll es

end

def LVal.spell (l : LVal) : List Token :=
  .ident l.name.value :: spellSubscripts (Expr.spellAll l.indices)

def LVal.erase (l : LVal) : LVal := ⟨default, l.name.erase, Expr.eraseAll l.indices⟩

/-! ## Conditions -/

/-- **A condition as tokens.** -/
def Cond.spell : Cond → List Token
  | expr e => e.spell
  | compare _ op a b | logic _ op a b => a.spell ++ op.token :: b.spell

/-- The rank of the operator at the top of a condition; that of any expression
is the one of a sum. -/
def Cond.rank : Cond → Nat
  | expr _ => 3
  | compare _ op _ _ => op.rank
  | logic _ op _ _ => op.rank

/-- **Whether a condition has the shape of its spelling.** -/
def Cond.stratified : Cond → Bool
  | expr e => e.stratified
  | compare _ op a b | logic _ op a b =>
    decide (a.rank ≤ op.rank) && decide (b.rank < op.rank) && a.stratified && b.stratified

/-- **A condition without places.** -/
def Cond.erase : Cond → Cond
  | expr e => .expr e.erase
  | compare _ op a b => .compare default op a.erase b.erase
  | logic _ op a b => .logic default op a.erase b.erase

/-! ## Declarations -/

mutual

def InitVal.spell : InitVal → List Token
  | expr e => e.spell
  | list _ items => .mark .openBrace :: spellList .closeBrace (InitVal.spellAll items)

/-- The items of a list as tokens, each by itself. -/
def InitVal.spellAll : List InitVal → List (List Token)
  | [] => []
  | i :: is => i.spell :: InitVal.spellAll is

end

mutual

/-- Whether the expressions of an initial value are stratified. -/
def InitVal.stratified : InitVal → Bool
  | expr e => e.stratified
  | list _ items => InitVal.allStratified items

/-- Whether the expressions of the items of a list are stratified. -/
def InitVal.allStratified : List InitVal → Bool
  | [] => true
  | i :: is => i.stratified && InitVal.allStratified is

end

mutual

def InitVal.erase : InitVal → InitVal
  | expr e => .expr e.erase
  | list _ items => .list default (InitVal.eraseAll items)

def InitVal.eraseAll : List InitVal → List InitVal
  | [] => []
  | i :: is => i.erase :: InitVal.eraseAll is

end

/-- The `=` and the initial value of a definition as tokens. -/
def Initializer.spell (i : Initializer) : List Token := .mark .assign :: i.value.spell

def Initializer.erase (i : Initializer) : Initializer := ⟨default, i.value.erase⟩

namespace Definition

def spell (d : Definition) : List Token :=
  .ident d.name.value :: (spellSubscripts (Expr.spellAll d.dims) ++
    (match d.init with
      | some i => i.spell
      | none => []))

/-- Whether the expressions of a definition are stratified. -/
def stratified (d : Definition) : Bool :=
  Expr.allStratified d.dims && d.init.all (·.value.stratified)

def erase (d : Definition) : Definition :=
  ⟨d.name.erase, Expr.eraseAll d.dims, d.init.map Initializer.erase⟩

end Definition

namespace Decl

def spell (d : Decl) : List Token :=
  (if d.constant then [.keyword .const] else []) ++ .keyword .int :: (d.first.spell ++
    (d.others.flatMap (fun d => .mark .comma :: d.spell) ++ [.mark .semicolon]))

/-- Whether the expressions of a declaration are stratified. -/
def stratified (d : Decl) : Bool := d.definitions.all Definition.stratified

def erase (d : Decl) : Decl := ⟨d.constant, d.first.erase, d.others.map Definition.erase⟩

end Decl

/-! ## Statements -/

/-- A keyword and a condition in parentheses, as tokens. -/
def Cond.spellGuard (k : Keyword) (c : Cond) : List Token :=
  .keyword k :: .mark .openParen :: (c.spell ++ [.mark .closeParen])

mutual

/-- **A statement as tokens.** -/
def Stmt.spell : Stmt → List Token
  | .assign target _ value =>
    target.spell ++ .mark .assign :: (value.spell ++ [.mark .semicolon])
  | .eval none => [.mark .semicolon]
  | .eval (some e) => e.spell ++ [.mark .semicolon]
  | .block b => .mark .openBrace :: b.spell
  | .if_ c s rest => c.spellGuard .if_ ++ (s.spell ++ rest.spell)
  | .while_ c s => c.spellGuard .while_ ++ s.spell
  | .break_ _ => [.keyword .break_, .mark .semicolon]
  | .continue_ _ => [.keyword .continue_, .mark .semicolon]
  | .return_ _ none => [.keyword .return_, .mark .semicolon]
  | .return_ _ (some e) => .keyword .return_ :: (e.spell ++ [.mark .semicolon])

/-- The items of a block as tokens, and its closing brace. -/
def Block.spell : Block → List Token
  | .nil => [.mark .closeBrace]
  | .decl d rest => d.spell ++ rest.spell
  | .stmt s rest => s.spell ++ rest.spell

def Otherwise.spell : Otherwise → List Token
  | .done => []
  | .else_ s => .keyword .else_ :: s.spell
  | .elseIf c s rest => .keyword .else_ :: (c.spellGuard .if_ ++ (s.spell ++ rest.spell))

end

def Otherwise.isDone : Otherwise → Bool
  | .done => true
  | _ => false

def Stmt.isIf : Stmt → Bool
  | .if_ .. => true
  | _ => false

mutual

/-- Whether a statement ends in an `if` that an `else` after it would belong
to. -/
def Stmt.endsOpen : Stmt → Bool
  | .if_ _ _ rest => rest.endsOpen
  | .while_ _ s => s.endsOpen
  | .assign .. | .eval _ | .block _ | .break_ _ | .continue_ _ | .return_ .. => false

/-- Whether the alternatives of an `if` leave it, or the last of them, open. -/
def Otherwise.endsOpen : Otherwise → Bool
  | .done => true
  | .else_ s => s.endsOpen
  | .elseIf _ _ rest => rest.endsOpen

end

mutual

/-- **Whether a statement has the shape of its spelling.** A branch that an
`else` follows does not end open. -/
def Stmt.stratified : Stmt → Bool
  | .assign target _ value => Expr.allStratified target.indices && value.stratified
  | .eval e | .return_ _ e => e.all Expr.stratified
  | .block b => b.stratified
  | .if_ c s rest =>
    c.stratified && s.stratified && (rest.isDone || !s.endsOpen) && rest.stratified
  | .while_ c s => c.stratified && s.stratified
  | .break_ _ | .continue_ _ => true

/-- Whether the items of a block have the shape of their spelling. -/
def Block.stratified : Block → Bool
  | .nil => true
  | .decl d rest => d.stratified && rest.stratified
  | .stmt s rest => s.stratified && rest.stratified

/-- Whether the alternatives of an `if` have the shape of their spelling. An
`if` after `else` is a part of the chain. -/
def Otherwise.stratified : Otherwise → Bool
  | .done => true
  | .else_ s => s.stratified && !s.isIf
  | .elseIf c s rest =>
    c.stratified && s.stratified && (rest.isDone || !s.endsOpen) && rest.stratified

end

mutual

/-- **A statement without places.** -/
def Stmt.erase : Stmt → Stmt
  | .assign target _ value => .assign target.erase default value.erase
  | .eval e => .eval (e.map Expr.erase)
  | .block b => .block b.erase
  | .if_ c s rest => .if_ c.erase s.erase rest.erase
  | .while_ c s => .while_ c.erase s.erase
  | .break_ _ => .break_ default
  | .continue_ _ => .continue_ default
  | .return_ _ e => .return_ default (e.map Expr.erase)

def Block.erase : Block → Block
  | .nil => .nil
  | .decl d rest => .decl d.erase rest.erase
  | .stmt s rest => .stmt s.erase rest.erase

def Otherwise.erase : Otherwise → Otherwise
  | .done => .done
  | .else_ s => .else_ s.erase
  | .elseIf c s rest => .elseIf c.erase s.erase rest.erase

end

/-! ## Programs -/

namespace Parameter

def spell (p : Parameter) : List Token :=
  .keyword .int :: .ident p.name.value ::
    (match p.array with
      | some dims =>
        .mark .openBracket :: .mark .closeBracket :: spellSubscripts (Expr.spellAll dims)
      | none => [])

/-- Whether the dimensions of a parameter are stratified. -/
def stratified (p : Parameter) : Bool := p.array.all Expr.allStratified

def erase (p : Parameter) : Parameter := ⟨p.name.erase, p.array.map Expr.eraseAll⟩

end Parameter

/-- How the type of what a function gives back is written. -/
def ReturnType.token : ReturnType → Token
  | int => .keyword .int
  | void => .keyword .void

namespace FunctionDef

def spell (f : FunctionDef) : List Token :=
  f.returns.token :: .ident f.name.value :: .mark .openParen ::
    (spellList .closeParen (f.params.map Parameter.spell) ++ .mark .openBrace :: f.body.spell)

/-- Whether a function has the shape of its spelling. -/
def stratified (f : FunctionDef) : Bool := f.params.all Parameter.stratified && f.body.stratified

def erase (f : FunctionDef) : FunctionDef :=
  ⟨f.returns, f.name.erase, f.params.map Parameter.erase, f.body.erase⟩

end FunctionDef

namespace TopLevel

def spell : TopLevel → List Token
  | decl d => d.spell
  | function f => f.spell

/-- Whether what stands at the top level has the shape of its spelling. -/
def stratified : TopLevel → Bool
  | decl d => d.stratified
  | function f => f.stratified

def erase : TopLevel → TopLevel
  | decl d => decl d.erase
  | function f => function f.erase

end TopLevel

namespace Program

/-- **A program as tokens.** -/
def spell (p : Program) : List Token := p.units.flatMap TopLevel.spell

/-- **Whether a program has the shape of its spelling.** -/
def stratified (p : Program) : Bool := p.units.all TopLevel.stratified

/-- **A program without places.** -/
def erase (p : Program) : Program := ⟨p.units.map TopLevel.erase⟩

end Program

/-! ## Spellings and ranks -/

/-- A stratified expression whose operator binds at least as tight as a rank. -/
def Expr.Fits (r : Nat) (e : Expr) : Prop := e.stratified = true ∧ e.rank ≤ r

variable {r : Nat}

theorem Expr.Fits.mono {r' : Nat} {e : Expr} (h : e.Fits r) (hr : r ≤ r') : e.Fits r' :=
  ⟨h.1, Nat.le_trans h.2 hr⟩

theorem BinOp.one_lt_rank (op : BinOp) : 1 < op.rank := by
  cases op <;> decide

theorem CmpOp.three_lt_rank (op : CmpOp) : 3 < op.rank := by
  cases op <;> decide

theorem CmpOp.rank_le (op : CmpOp) : op.rank ≤ 5 := by
  cases op <;> decide

theorem LogicOp.five_lt_rank (op : LogicOp) : 5 < op.rank := by
  cases op <;> decide

theorem BinOp.rank_le (op : BinOp) : op.rank ≤ 3 := by
  cases op <;> decide

theorem Expr.rank_le (e : Expr) : e.rank ≤ 3 := by
  cases e with
  | binary _ op _ _ => exact op.rank_le
  | _ => exact Nat.le_of_ble_eq_true rfl

theorem Expr.fits_iff {e : Expr} : e.Fits 3 ↔ e.stratified = true := and_iff_left e.rank_le

theorem Expr.spellAll_eq_map (es : List Expr) : Expr.spellAll es = es.map Expr.spell := by
  induction es with
  | nil => rfl
  | cons e es ih => rw [Expr.spellAll, ih, List.map_cons]

theorem Expr.spellSubscripts_eq (es : List Expr) :
    spellSubscripts (Expr.spellAll es)
      = es.flatMap fun e => .mark .openBracket :: (e.spell ++ [.mark .closeBracket]) := by
  rw [spellSubscripts, Expr.spellAll_eq_map, List.flatMap_map]

theorem Expr.allStratified_iff {es : List Expr} :
    Expr.allStratified es = true ↔ ∀ e ∈ es, e.Fits 3 := by
  simp only [Expr.fits_iff]
  induction es with
  | nil => simp [Expr.allStratified]
  | cons e es ih => simp [Expr.allStratified, ih]

variable {span : Span}

theorem Expr.fits_binary {op : BinOp} {a b : Expr} (hop : op.rank = r + 1) :
    (Expr.binary span op a b).Fits (r + 1) ↔ a.Fits (r + 1) ∧ b.Fits r := by
  simp only [Expr.Fits, Expr.stratified, Expr.rank, Bool.and_eq_true, decide_eq_true_eq, hop,
    Nat.lt_succ_iff, Nat.le_refl, and_true]
  tauto

/-- A stratified condition whose operator binds at least as tight as a rank. -/
def Cond.Fits (r : Nat) (c : Cond) : Prop := c.stratified = true ∧ c.rank ≤ r

theorem Cond.Fits.mono {r' : Nat} {c : Cond} (h : c.Fits r) (hr : r ≤ r') : c.Fits r' :=
  ⟨h.1, Nat.le_trans h.2 hr⟩

theorem Cond.rank_le (c : Cond) : c.rank ≤ 7 := by
  cases c with
  | expr e => exact Nat.le_of_ble_eq_true rfl
  | compare _ op _ _ | logic _ op _ _ => cases op <;> exact Nat.le_of_ble_eq_true rfl

theorem Cond.fits_iff {c : Cond} : c.Fits 7 ↔ c.stratified = true := and_iff_left c.rank_le

theorem Cond.fits_compare {op : CmpOp} {a b : Cond} (hop : op.rank = r + 1) :
    (Cond.compare span op a b).Fits (r + 1) ↔ a.Fits (r + 1) ∧ b.Fits r := by
  simp only [Cond.Fits, Cond.stratified, Cond.rank, Bool.and_eq_true, decide_eq_true_eq, hop,
    Nat.lt_succ_iff, Nat.le_refl, and_true]
  tauto

theorem Cond.fits_logic {op : LogicOp} {a b : Cond} (hop : op.rank = r + 1) :
    (Cond.logic span op a b).Fits (r + 1) ↔ a.Fits (r + 1) ∧ b.Fits r := by
  simp only [Cond.Fits, Cond.stratified, Cond.rank, Bool.and_eq_true, decide_eq_true_eq, hop,
    Nat.lt_succ_iff, Nat.le_refl, and_true]
  tauto

theorem InitVal.spellAll_eq_map (is : List InitVal) :
    InitVal.spellAll is = is.map InitVal.spell := by
  induction is with
  | nil => rfl
  | cons i is ih => rw [InitVal.spellAll, ih, List.map_cons]

theorem InitVal.allStratified_iff {is : List InitVal} :
    InitVal.allStratified is = true ↔ ∀ i ∈ is, i.stratified = true := by
  induction is with
  | nil => simp [InitVal.allStratified]
  | cons i is ih => simp [InitVal.allStratified, ih]

theorem Stmt.isIf_eq_false {s : Stmt} {k : List Token}
    (h : (s.spell ++ k).head? ≠ some (.keyword .if_)) : s.isIf = false := by
  cases s with
  | if_ c s rest => exact absurd rfl h
  | _ => rfl

theorem TopLevel.spell_ne_nil (u : TopLevel) : u.spell ≠ [] := by
  cases u with
  | function f => exact List.cons_ne_nil _ _
  | decl d => exact List.append_ne_nil_of_right_ne_nil _ (List.cons_ne_nil _ _)

end SysY
