import Confinement.Access.Plan
import Confinement.Region

/-!
# Confining a length

The length of a bulk operation is a bound and no address: it is enough to mask it. An access that
starts inside the subspace then ends inside the guard region.
-/

set_option autoImplicit false

namespace Confinement

/-- Makes an instruction read a masked length in a slot; says whether the width needs a mask. -/
def Edit.confineLength (cx : Context) (id : InstId) (slot : Nat) : Edit Bool := do
  match cx.region.width.mask? with
  | none => return false
  | some mask =>
    let f ← get
    let length ← ofExcept (f.slotValue id slot)
    let bits ← ofExcept (f.slotBits cx.symbols id slot)
    let masked ← insertBefore id (.binary .and length (.int bits mask)) (.int bits)
    replaceOperand id slot (.inst masked)
    return true

end Confinement
