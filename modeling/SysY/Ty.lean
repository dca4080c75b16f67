/-!
# Types

The types of SysY: integers, arrays of any depth, and functions, with `void`
for what gives nothing back. The size of an array is not part of its type.
Two types agree only if they are equal: there are no conversions.
-/

namespace SysY

inductive Ty where
  | void
  | int
  | array (element : Ty)
  | function (returns : Ty) (params : List Ty)
deriving Repr, Inhabited

namespace Ty

mutual

/-- Whether two types are built alike. -/
def same : Ty → Ty → Bool
  | void, void => true
  | int, int => true
  | array a, array b => same a b
  | function r ps, function r' ps' => same r r' && sameAll ps ps'
  | _, _ => false

/-- Whether two lists of types have the same length and are built alike one
by one. -/
def sameAll : List Ty → List Ty → Bool
  | [], [] => true
  | a :: as, b :: bs => same a b && sameAll as bs
  | _, _ => false

end

mutual

/-- **Types built alike are equal.** -/
theorem same_iff : ∀ a b : Ty, same a b = true ↔ a = b
  | void, b => by cases b <;> simp [same]
  | int, b => by cases b <;> simp [same]
  | array a, b => by
    cases b with
    | array b => simp [same, same_iff a b]
    | _ => simp [same]
  | function r ps, b => by
    cases b with
    | function r' ps' => simp [same, same_iff r r', sameAll_iff ps ps']
    | _ => simp [same]

theorem sameAll_iff : ∀ as bs : List Ty, sameAll as bs = true ↔ as = bs
  | [], bs => by cases bs <;> simp [sameAll]
  | a :: as, bs => by
    cases bs with
    | nil => simp [sameAll]
    | cons b bs => simp [sameAll, same_iff a b, sameAll_iff as bs]

end

instance : DecidableEq Ty := fun a b => decidable_of_iff _ (same_iff a b)

/-- An array type of a given depth over an element type. -/
def arrayOf (element : Ty) : Nat → Ty
  | 0 => element
  | n + 1 => array (arrayOf element n)

def isArray : Ty → Bool
  | array _ => true
  | _ => false

/-- The type of an element, for an array type. -/
def element? : Ty → Option Ty
  | array t => some t
  | _ => none

/-- The type after a number of subscripts, if there are as many dimensions. -/
def peel : Nat → Ty → Option Ty
  | 0, t => some t
  | n + 1, array t => peel n t
  | _ + 1, _ => none

mutual

def text : Ty → String
  | void => "void"
  | int => "int"
  | array t => t.text ++ "[]"
  | function r ps => r.text ++ "(" ++ ", ".intercalate (texts ps) ++ ")"

def texts : List Ty → List String
  | [] => []
  | t :: ts => t.text :: texts ts

end

/-- Subscripts take away what dimensions added. -/
theorem peel_arrayOf (t : Ty) (n m : Nat) :
    peel n (arrayOf t (n + m)) = some (arrayOf t m) := by
  induction n with
  | zero => simp [peel]
  | succ n ih => rw [Nat.succ_add]; exact ih

end Ty

end SysY
