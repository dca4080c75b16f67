import SysY.Scope.Env

/-!
# Scope trees

All scopes of a program at once. Each scope but the global one has a parent,
and is known by its handle, the number of scopes opened before it. What a
scope sees is an environment: its own frame and then what its parent sees.

The scopes are kept in the order in which they were opened, the newest
first, and the parent of a scope is sought among the ones opened before it
(`path`). So a path ends, whatever the parents are, and a scope opened later
cannot change what an earlier one sees.
-/

namespace SysY

/-- A scope: its parent and the names it binds. -/
structure Scope (α : Type) where
  /-- The handle of the enclosing scope; none for the global one. -/
  parent : Option Nat
  frame : Frame α
deriving Repr

/-- Scopes, the newest first. -/
structure ScopeTree (α : Type) where
  scopes : List (Scope α)
deriving Repr

namespace ScopeTree

variable {α : Type}

/-- A tree with the global scope only. -/
def new : ScopeTree α := ⟨[⟨none, []⟩]⟩

/-- The handle of the global scope. -/
def global : Nat := 0

/-- How many scopes there are; also the next handle. -/
def size (t : ScopeTree α) : Nat := t.scopes.length

/-- Open a scope inside another one. -/
def openIn (t : ScopeTree α) (parent : Nat) : ScopeTree α × Nat :=
  (⟨⟨some parent, []⟩ :: t.scopes⟩, t.size)

/-- The scope with a handle, among scopes of which the newest is first. -/
def scopeAt? : List (Scope α) → Nat → Option (Scope α)
  | [], _ => none
  | s :: older, handle => if handle = older.length then some s else scopeAt? older handle

/-- The handle of the enclosing scope. -/
def parent? (t : ScopeTree α) (handle : Nat) : Option Nat :=
  (scopeAt? t.scopes handle).bind (·.parent)

/-- The frames from a scope outward. -/
def path : List (Scope α) → Nat → Env α
  | [], _ => []
  | s :: older, handle =>
    if handle = older.length then
      s.frame :: (match s.parent with
        | some p => path older p
        | none => [])
    else path older handle

/-- What a scope sees. -/
def env (t : ScopeTree α) (handle : Nat) : Env α := path t.scopes handle

def lookup (t : ScopeTree α) (handle : Nat) (name : String) : Option α :=
  (t.env handle).lookup name

/-- Put a name into the frame of one scope. -/
def insert (name : String) (meaning : α) : List (Scope α) → Nat → List (Scope α)
  | [], _ => []
  | s :: older, handle =>
    if handle = older.length then { s with frame := (name, meaning) :: s.frame } :: older
    else s :: insert name meaning older handle

/-- Declare a name in a scope, unless that very scope has it already. -/
def declare? (t : ScopeTree α) (handle : Nat) (name : String) (meaning : α) :
    Option (ScopeTree α) :=
  match scopeAt? t.scopes handle with
  | some s =>
    if (List.lookup name s.frame).isSome then none else some ⟨insert name meaning t.scopes handle⟩
  | none => some t

/-- How the refusal of a declaration is worded. -/
def alreadyDeclared (name : String) : String :=
  "`" ++ name ++ "` is already declared in this scope"

end ScopeTree

end SysY
