import Confinement.Ty

/-!
# Constants

An integer constant stores the signed reading of its low bits, so that two constants of one width
are equal exactly when they denote the same bit pattern. Integers live in 64 bits: a width of 64 or
more is read as 64, and so is the degenerate width 0, whose unsigned reading has no bits at all.
-/

set_option autoImplicit false

namespace Confinement

/-- A value known before the program runs. -/
inductive Constant where
  /-- An integer of `bits` bits with its signed reading; `Constant.ofInt` reduces it. -/
  | int (bits : Nat) (value : Int)
  /-- The address that points at nothing, of a pointer type. -/
  | null (ty : Ty)
  /-- Any value at all of a type. -/
  | undef (ty : Ty)
  deriving DecidableEq, Inhabited

namespace Constant

/-- The number of bits that an integer of a nominal width is stored in. -/
def storedBits (bits : Nat) : Nat :=
  if bits = 0 ∨ 64 ≤ bits then 64 else bits

/-- The constant of a width that agrees with `value` in its low bits. -/
def ofInt (bits : Nat) (value : Int) : Constant :=
  .int bits (value.bmod (Nat.pow 2 (storedBits bits)))

/-- The type of a constant. -/
def ty : Constant → Ty
  | .int bits _ => .int bits
  | .null t => t
  | .undef t => t

/-- The signed reading of an integer constant. -/
def signed? : Constant → Option Int
  | .int _ value => some value
  | _ => none

/-- The unsigned reading of an integer constant: its low bits, 64 of them at most. -/
def unsigned? : Constant → Option Nat
  | .int bits value => some (value % (Nat.pow 2 (min bits 64) : Nat)).toNat
  | _ => none

@[simp] theorem ty_ofInt (bits : Nat) (value : Int) : (ofInt bits value).ty = .int bits := rfl

@[simp] theorem signed?_ofInt (bits : Nat) (value : Int) :
    (ofInt bits value).signed? = some (value.bmod (Nat.pow 2 (storedBits bits))) := rfl

end Constant

end Confinement
