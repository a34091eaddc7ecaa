import Confinement.Ty

/-!
# Store sizes

The number of bytes that an access to a value of a type touches. Sizes are kept in 64 bits and stop
at `maxSize`, so that an array of huge arrays has the largest size and not a small wrapped one.
-/

set_option autoImplicit false

namespace Confinement

/-- What sizes depend on besides the type. -/
structure DataLayout where
  /-- Bytes that a stored pointer takes. -/
  pointerBytes : Nat := 8
  deriving DecidableEq, Inhabited

namespace DataLayout

/-- The largest size that is told apart from larger ones. -/
def maxSize : Nat := 0xFFFFFFFFFFFFFFFF

/-- Bytes touched by storing a value of a type: whole bytes for an integer, nothing for `void` and
for code. -/
def storeSize (layout : DataLayout) : Ty → Nat
  | .void => 0
  | .int n => min ((n + 7) / 8) maxSize
  | .ptr _ => min layout.pointerBytes maxSize
  | .array n t => min (layout.storeSize t * n) maxSize
  | .func _ _ => 0

theorem storeSize_le_maxSize (layout : DataLayout) (t : Ty) : layout.storeSize t ≤ maxSize := by
  cases t <;> simp only [storeSize] <;> omega

end DataLayout

end Confinement
