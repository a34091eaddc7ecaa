import Confinement.Address.Base
import Confinement.Address.Fold

/-!
# Confining an address

In front of an access its address is computed anew from the base of the region and the low bits of
the old address, and the access is made to read the new one:

* the 32 low bits of the old address, or the index of a folded one;
* of these the bits that the width keeps, unless it keeps all 32;
* widened to 64 bits by zeros and added to the base;
* plus the constant of a folded address;
* converted back to an address.

A fold may leave the old conversion and the old addition without a reader. They are removed then, and
their source positions live on in the instructions that take their place.
-/

set_option autoImplicit false

namespace Confinement

namespace Edit

/-- The base plus what the width keeps of a 32-bit value, computed before `anchor`. -/
def emitSum (width : Width) (base anchor : InstId) (low : Value) : Edit InstId := do
  let kept ← match width.mask? with
    | none => pure low
    | some mask => Value.inst <$> insertBefore anchor (.binary .and low (.int 32 mask)) (.int 32)
  let wide ← insertBefore anchor (.cast .zext kept) (.int 64)
  insertBefore anchor (.binary .add (.inst base) (.inst wide)) (.int 64)

/-- The confined address of type `ty` that stands for an address, computed before `anchor`. -/
def emitPlain (width : Width) (base anchor : InstId) (address : Value) (ty : Ty) :
    Edit InstId := do
  let low ← insertBefore anchor (.cast .ptrtoint address) (.int 32)
  let sum ← emitSum width base anchor (.inst low)
  insertBefore anchor (.cast .inttoptr (.inst sum)) ty

/-- The instructions that take the place of a folded addition and its conversion. -/
structure Successors where
  /-- The addition of the constant. -/
  add : InstId
  /-- The conversion to an address. -/
  cast : InstId
  deriving DecidableEq, Inhabited

/-- The confined address of type `ty` that stands for a folded one, computed before `anchor`. -/
def emitFolded (width : Width) (base anchor : InstId) (fold : Fold) (ty : Ty) :
    Edit Successors := do
  let sum ← emitSum width base anchor fold.index
  let add ← insertBefore anchor (.binary .add (.inst sum) (.int 64 fold.offset)) (.int 64)
  let cast ← insertBefore anchor (.cast .inttoptr (.inst add)) ty
  return { add, cast }

/-- Removes a live instruction that nothing is counted to read; says how many were removed. -/
def eraseUnread (id : InstId) : Edit Nat := do
  let f ← get
  if (f.inst? id).isSome ∧ ¬ f.hasUses id then
    erase id
    return 1
  return 0

/-- Hands the source positions of a folded address on, and removes what nothing reads any more: first
the conversion, which reads the addition. -/
def retire (fold : Fold) (successors : Successors) : Edit Nat := do
  let f ← get
  setLoc successors.add ((f.inst? fold.add).bind (·.loc))
  setLoc successors.cast ((f.inst? fold.cast).bind (·.loc))
  let casts ← eraseUnread fold.cast
  let adds ← eraseUnread fold.add
  return casts + adds

end Edit

/-- What confining one address did. -/
structure PointerOutcome where
  /-- Was the address an index plus a constant? -/
  folded : Bool
  /-- Instructions that were removed. -/
  removed : Nat
  deriving DecidableEq, Inhabited

/-- The fold that applies to an address in a slot; bulk operations have none. -/
def Func.foldFor? (f : Func) (cx : Context) (slot : PointerSlot) (address : Value) (pointee : Ty) :
    Option Fold :=
  if slot.firstClass then f.fold? address (cx.layout.storeSize pointee) cx.region.width.size
  else none

/-- Makes an instruction read a confined address in a slot. -/
def Drafting.confinePointer (cx : Context) (id : InstId) (slot : PointerSlot) :
    Drafting PointerOutcome := do
  -- The base stays loaded even when the slot turns out to hold no address.
  let base ← loadBase
  let f := (← get).func
  let address ← ofExcept (f.slotValue id slot.index)
  let pointee ← ofExcept (f.slotPointee cx.symbols id slot.index)
  edit <| match f.foldFor? cx slot address pointee with
    | none => do
      let pointer ← Edit.emitPlain cx.region.width base id address (.ptr pointee)
      Edit.replaceOperand id slot.index (.inst pointer)
      return { folded := false, removed := 0 }
    | some fold => do
      let successors ← Edit.emitFolded cx.region.width base id fold (.ptr pointee)
      Edit.replaceOperand id slot.index (.inst successors.cast)
      let removed ← Edit.retire fold successors
      return { folded := true, removed }

end Confinement
