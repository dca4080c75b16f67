/-!
# Environments

What the names of a program mean at one place of it. An environment is a
list of frames, innermost first; a frame binds names to what they mean. A
name means what the innermost frame that binds it says.

The same environments serve two purposes that differ in what happens to a
name bound twice in one frame: a declaration is refused (`declare?`), while a
binding covers the one before it (`bind`).
-/

namespace SysY

/-- The names bound in one scope, the latest first. -/
abbrev Frame (α : Type) := List (String × α)

/-- The frames seen from a place, innermost first. -/
abbrev Env (α : Type) := List (Frame α)

namespace Env

variable {α : Type}

/-- What a name means: the innermost binding. -/
def lookup : Env α → String → Option α
  | [], _ => none
  | frame :: outer, name => (List.lookup name frame).or (lookup outer name)

/-- Open a frame inside the others. -/
def enter (env : Env α) : Env α := [] :: env

/-- Bind a name in the innermost frame, over any binding it has there. -/
def bind (env : Env α) (name : String) (meaning : α) : Env α :=
  match env with
  | [] => [[(name, meaning)]]
  | frame :: outer => ((name, meaning) :: frame) :: outer

/-- Declare a name in the innermost frame, unless that frame has it already.
What the outer frames bind is no hindrance. -/
def declare? (env : Env α) (name : String) (meaning : α) : Option (Env α) :=
  match env with
  | [] => some (bind env name meaning)
  | frame :: _ => if (List.lookup name frame).isSome then none else some (bind env name meaning)

@[simp] theorem lookup_enter (env : Env α) (name : String) :
    env.enter.lookup name = env.lookup name := by
  simp [lookup, enter]

@[simp] theorem lookup_bind_self (env : Env α) (name : String) (meaning : α) :
    (env.bind name meaning).lookup name = some meaning := by
  cases env <;> simp [lookup, bind]

theorem lookup_bind_of_ne {env : Env α} {name other : String} {meaning : α} (h : other ≠ name) :
    (env.bind name meaning).lookup other = env.lookup other := by
  have hne : (other == name) = false := by simpa using h
  cases env <;> simp [lookup, bind, List.lookup_cons, hne]

/-- What is found after a binding is what was bound, or was there before. -/
theorem of_lookup_bind {env : Env α} {name other : String} {a b : α}
    (h : (env.bind name a).lookup other = some b) :
    other = name ∧ b = a ∨ other ≠ name ∧ env.lookup other = some b := by
  by_cases heq : other = name
  · subst heq
    rw [lookup_bind_self] at h
    exact .inl ⟨rfl, (Option.some.inj h).symm⟩
  · exact .inr ⟨heq, lookup_bind_of_ne heq ▸ h⟩

end Env

end SysY
