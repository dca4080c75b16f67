import SysY.Proofs.Roles.Program

/-!
# Names that the lowering looks up

The judgement and the lowering keep scopes of their own. The judgement has one
kind of name and declares a name before it looks at what belongs to its
declaration; the lowering keeps functions and variables apart, and evaluates
dimensions and constants before it binds the name.

So a program may be accepted although the lowering finds a name that means
nothing to it: that of a function where a variable is looked up, or one that
is used in its own declaration. These are the only ways. If every name that is
taken for a variable is one where it is looked up (`Site.named`), then a
program that is accepted is never refused for a name.
-/

namespace SysY

namespace Lower

/-- The program is judged, and its names are those of variables. What values
are for does not matter. -/
def Policy.resolving : Policy where
  allowed s := isUndefined s = false
  judged := True
  site s := s.named = true
  loose := True
  takes _ _ := True
  stops _ h := h
  named _ h := .inl h
  scalar _ _ := .inr trivial
  unjudged := .inl trivial

/-- Every value has every role. -/
def Reading.any (P : Policy) : Reading P where
  has _ _ := True
  there _ := True
  const _ := trivial
  result _ _ _ _ _ := trivial
  same _ _ := Iff.rfl

end Lower

/-- **An accepted program is not refused for a name that means nothing**, if
each name that it takes for a variable is that of a variable where the lowering
looks it up. -/
theorem Program.lower_ne_undefined {p : Program} (haccepted : p.accepted = true)
    (hnamed : ∀ s ∈ p.sites, s.named = true) (name : String) (span : Span) :
    p.lower.result ≠ .error (.error ⟨.undefined name, span⟩) := by
  intro h
  have hends := Program.lower_given (P := .resolving) (p := p) (fun _ _ => .any _)
    ⟨fun _ => Program.accepted_iff.1 haccepted, hnamed⟩
    (fun _ _ => ⟨fun _ => trivial, fun _ _ => trivial⟩) (fun _ _ _ _ => ⟨trivial, trivial⟩)
    (fun _ _ _ _ _ => trivial)
  rw [h] at hends
  cases hends

namespace Source.Sample

/-- A constant in whose initial value its own name stands for another one, and
a variable with the name of a function:

    int f() { return 1; }
    int main() {
      const int x = 2;
      if (f()) { const int x = x; int f[x] = {x}; return f[0]; }
      return x;
    }
-/
def shadowing : Program where
  units := [
    .function (function "f" [] (ret (num "1"))),
    .function (function "main" [] <|
      .decl ⟨true, scalar "x" (num "2"), []⟩ <|
      .stmt (.if_ (.expr (call "f" [])) (.block <|
        .decl ⟨true, scalar "x" (get "x"), []⟩ <|
        .decl ⟨false, array "f" [get "x"] (row [get "x"]), []⟩ <|
        ret (get "f" [num "0"])) .done) <|
      ret (get "x"))]

/-- The name of a function as a statement: `f;`. -/
def functionName : Program where
  units := [
    .function (function "f" [] (ret (num "0"))),
    .function (function "main" [] (.stmt (.eval (some (get "f"))) (ret (num "0"))))]

/-- A constant whose initial value is its own name: `const int x = x;`. -/
def ownName : Program where
  units := [
    .function (function "main" [] (.decl ⟨true, scalar "x" (get "x"), []⟩ (ret (get "x"))))]

end Source.Sample

open Source.Sample

theorem Program.lower_ne_undefined_shadowing :
    shadowing.accepted = true ∧ (∀ s ∈ shadowing.sites, s.named = true) ∧
      shadowing.lower.result ≠ .error (.error ⟨.undefined "x", default⟩) :=
  ⟨by decide +kernel, by decide +kernel,
    Program.lower_ne_undefined (by decide +kernel) (by decide +kernel) "x" default⟩

/-- Acceptance alone is not enough: the lowering stops at a function's name that
is taken for a variable, and at a constant's own name. -/
theorem Program.accepted_lower_undefined :
    (functionName.accepted = true ∧
      functionName.lower.result = .error (.error ⟨.undefined "f", default⟩)) ∧
    ownName.accepted = true ∧
      ownName.lower.result = .error (.error ⟨.undefined "x", default⟩) :=
  ⟨⟨by decide +kernel, rfl⟩, by decide +kernel, rfl⟩

end SysY
