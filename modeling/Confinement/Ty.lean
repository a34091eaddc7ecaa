/-!
# Types of the intermediate language

A type is the empty type, an integer of some width, a pointer, an array or a function signature.
Widths and lengths are natural numbers without bound. Equality of types is decided by walking both
at once (`Ty.same_iff`), and `Ty.text` is the written form that listings and messages use.
-/

set_option autoImplicit false

namespace Confinement

/-- A type of the intermediate language. -/
inductive Ty where
  /-- The type of an instruction without a result. -/
  | void
  /-- An integer of `bits` bits. -/
  | int (bits : Nat)
  /-- The address of a `pointee`. -/
  | ptr (pointee : Ty)
  /-- `len` elements side by side. -/
  | array (len : Nat) (elem : Ty)
  /-- A function that takes `params` and returns `ret`. -/
  | func (ret : Ty) (params : List Ty)
  deriving Inhabited

namespace Ty

/-- Induction on types, with a hypothesis for each parameter of a function. -/
@[elab_as_elim]
theorem induct {motive : Ty → Prop} (void : motive .void) (int : ∀ n, motive (.int n))
    (ptr : ∀ t, motive t → motive (.ptr t)) (array : ∀ n t, motive t → motive (.array n t))
    (func : ∀ r ps, motive r → (∀ p ∈ ps, motive p) → motive (.func r ps)) : ∀ t, motive t
  | .void => void
  | .int n => int n
  | .ptr t => ptr t (induct void int ptr array func t)
  | .array n t => array n t (induct void int ptr array func t)
  | .func r ps => func r ps (induct void int ptr array func r)
      fun p _ => induct void int ptr array func p

/-! ## Equality -/

mutual

/-- Do two types agree, constructor by constructor? -/
def same : Ty → Ty → Bool
  | .void, .void => true
  | .int m, .int n => m == n
  | .ptr t, .ptr u => t.same u
  | .array m t, .array n u => m == n && t.same u
  | .func r ps, .func s qs => r.same s && sameAll ps qs
  | _, _ => false

/-- Do two lists of types agree, place by place? -/
def sameAll : List Ty → List Ty → Bool
  | [], [] => true
  | t :: ts, u :: us => t.same u && sameAll ts us
  | _, _ => false

end

mutual

theorem same_iff : ∀ t u : Ty, t.same u = true ↔ t = u
  | .void, u => by cases u <;> simp [same]
  | .int _, u => by cases u <;> simp [same]
  | .ptr t, u => by cases u <;> simp [same, same_iff t]
  | .array _ t, u => by cases u <;> simp [same, same_iff t]
  | .func r ps, u => by cases u <;> simp [same, same_iff r, sameAll_iff ps]

theorem sameAll_iff : ∀ ts us : List Ty, sameAll ts us = true ↔ ts = us
  | [], us => by cases us <;> simp [sameAll]
  | t :: ts, us => by cases us <;> simp [sameAll, same_iff t, sameAll_iff ts]

end

instance : DecidableEq Ty := fun t u => decidable_of_iff _ (same_iff t u)

/-! ## Shape -/

/-- Is this the type of an address? -/
def isPointer : Ty → Bool
  | .ptr _ => true
  | _ => false

/-- Is this the integer type of exactly `bits` bits? -/
def isInt (bits : Nat) : Ty → Bool
  | .int n => n == bits
  | _ => false

/-- The width of an integer type. -/
def intBits? : Ty → Option Nat
  | .int n => some n
  | _ => none

/-- What a pointer type points at. -/
def pointee? : Ty → Option Ty
  | .ptr t => some t
  | _ => none

theorem isPointer_iff {t : Ty} : t.isPointer = true ↔ ∃ u, t = .ptr u := by
  cases t <;> simp [isPointer]

theorem isInt_iff {t : Ty} {n : Nat} : t.isInt n = true ↔ t = .int n := by
  cases t <;> simp [isInt]

theorem intBits?_eq_some_iff {t : Ty} {n : Nat} : t.intBits? = some n ↔ t = .int n := by
  cases t <;> simp [intBits?]

theorem pointee?_eq_some_iff {t u : Ty} : t.pointee? = some u ↔ t = .ptr u := by
  cases t <;> simp [pointee?]

/-! ## Written form -/

mutual

/-- The written form: an array in brackets, a star after what is pointed at, and the parameters of
a function after its return type. -/
def text : Ty → String
  | .void => "void"
  | .int n => s!"i{n}"
  | .ptr t => t.text ++ "*"
  | .array n t => s!"[{n} x " ++ t.text ++ "]"
  | .func r ps => r.text ++ " (" ++ ", ".intercalate (texts ps) ++ ")"

/-- The written forms of a list of types. -/
def texts : List Ty → List String
  | [] => []
  | t :: ts => t.text :: texts ts

end

theorem texts_eq_map (ts : List Ty) : texts ts = ts.map text := by
  induction ts with
  | nil => rfl
  | cons t ts ih => simp [texts, ih]

end Ty

end Confinement
