/-!
# Tokens

The lexical units of a SysY program: identifiers and integer literals, which
keep their text, keywords, and the operator and punctuation marks.
-/

namespace SysY

/-- The reserved words. -/
inductive Keyword where
  | const
  | int
  | void
  | if_
  | else_
  | while_
  | break_
  | continue_
  | return_
deriving DecidableEq, Repr

namespace Keyword

def all : List Keyword :=
  [const, int, void, if_, else_, while_, break_, continue_, return_]

def spelling : Keyword → String
  | const => "const"
  | int => "int"
  | void => "void"
  | if_ => "if"
  | else_ => "else"
  | while_ => "while"
  | break_ => "break"
  | continue_ => "continue"
  | return_ => "return"

/-- The keyword written as `word`, if there is one. -/
def ofSpelling? (word : String) : Option Keyword :=
  all.find? fun k => k.spelling == word

theorem mem_all (k : Keyword) : k ∈ all := by cases k <;> decide

/-- **Spellings are read back.** -/
@[simp] theorem ofSpelling?_spelling (k : Keyword) : ofSpelling? k.spelling = some k := by
  cases k <;> decide

end Keyword

/-- The operator and punctuation marks. -/
inductive Mark where
  | assign
  | comma
  | semicolon
  | plus
  | minus
  | times
  | slash
  | percent
  | equal
  | notEqual
  | less
  | greater
  | lessEqual
  | greaterEqual
  | not
  | and
  | or
  | openParen
  | closeParen
  | openBrace
  | closeBrace
  | openBracket
  | closeBracket
deriving DecidableEq, Repr

def Mark.spelling : Mark → String
  | assign => "="
  | comma => ","
  | semicolon => ";"
  | plus => "+"
  | minus => "-"
  | times => "*"
  | slash => "/"
  | percent => "%"
  | equal => "=="
  | notEqual => "!="
  | less => "<"
  | greater => ">"
  | lessEqual => "<="
  | greaterEqual => ">="
  | not => "!"
  | and => "&&"
  | or => "||"
  | openParen => "("
  | closeParen => ")"
  | openBrace => "\x7b"
  | closeBrace => "\x7d"
  | openBracket => "["
  | closeBracket => "]"

inductive Token where
  | ident (name : String)
  | keyword (k : Keyword)
  /-- An integer literal, by its text. -/
  | number (text : String)
  | mark (m : Mark)
deriving DecidableEq, Repr

namespace Token

def spelling : Token → String
  | ident name => name
  | keyword k => k.spelling
  | number text => text
  | mark m => m.spelling

/-- How a token is named in a message: its spelling between backticks, after
what kind of word it is. -/
def describe : Token → String
  | ident name => "identifier `" ++ name ++ "`"
  | keyword k => "keyword `" ++ k.spelling ++ "`"
  | number text => "literal `" ++ text ++ "`"
  | mark m => "`" ++ m.spelling ++ "`"

/-- The token that a word stands for: a keyword if it spells one, and
otherwise an identifier. -/
def ofWord (word : String) : Token :=
  match Keyword.ofSpelling? word with
  | some k => keyword k
  | none => ident word

end Token

end SysY
