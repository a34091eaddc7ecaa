import Confinement.Address.Confine
import Confinement.Length

/-!
# Confining a function body

The accesses of a plan are confined one after the other, each with its addresses in slot order and
then its length. An instruction that is no longer there is passed over. What was done is counted.
-/

set_option autoImplicit false

namespace Confinement

/-- How much was confined. -/
structure Tally where
  /-- Addresses confined. -/
  pointers : Nat
  /-- Lengths masked. -/
  lengths : Nat
  /-- Addresses that were an index plus a constant. -/
  folded : Nat
  /-- Instructions removed. -/
  removed : Nat
  deriving DecidableEq, Inhabited

namespace Tally

/-- Nothing was confined. -/
def zero : Tally := { pointers := 0, lengths := 0, folded := 0, removed := 0 }

instance : Zero Tally := ⟨zero⟩

/-- What two parts of the work did together. -/
def add (a b : Tally) : Tally where
  pointers := a.pointers + b.pointers
  lengths := a.lengths + b.lengths
  folded := a.folded + b.folded
  removed := a.removed + b.removed

instance : Add Tally := ⟨add⟩

/-- One address was confined. -/
def pointer (outcome : PointerOutcome) : Tally where
  pointers := 1
  lengths := 0
  folded := if outcome.folded then 1 else 0
  removed := outcome.removed

/-- One length was looked at, and masked or not. -/
def length (masked : Bool) : Tally where
  pointers := 0
  lengths := if masked then 1 else 0
  folded := 0
  removed := 0

end Tally

/-- What confining one body did. -/
structure BodyTally where
  /-- How much was confined. -/
  tally : Tally
  /-- Was the base loaded? -/
  loadedBase : Bool
  deriving DecidableEq, Inhabited

namespace Drafting

variable (cx : Context)

/-- Confines the addresses in some slots of an instruction. -/
def confinePointers (id : InstId) : List PointerSlot → Drafting Tally
  | [] => return 0
  | slot :: slots => do
    let here ← confinePointer cx id slot
    let rest ← confinePointers id slots
    return .pointer here + rest

/-- Confines the length of an instruction, if it has one. -/
def confineLength (id : InstId) : Option Nat → Drafting Tally
  | none => return 0
  | some slot => return .length (← edit (.confineLength cx id slot))

/-- Confines one access, unless its instruction is gone. -/
def confineAccess (planned : Planned) : Drafting Tally := do
  if ((← get).func.inst? planned.id).isNone then return 0
  let pointers ← confinePointers cx planned.id planned.access.pointers
  let length ← confineLength cx planned.id planned.access.length
  return pointers + length

/-- Confines the accesses of a plan in order. -/
def confinePlan : Plan → Drafting Tally
  | [] => return 0
  | planned :: plan => do
    let here ← confineAccess cx planned
    let rest ← confinePlan plan
    return here + rest

end Drafting

/-- Confines the accesses of a plan in a function that has not loaded the base yet. -/
def Edit.confineBody (cx : Context) (plan : Plan) : Edit BodyTally := fun f =>
  match Drafting.confinePlan cx plan { func := f, base := .start cx.region.memoryBase } with
  | .ok tally draft => .ok { tally, loadedBase := draft.base.loaded.isSome } draft.func
  | .error fault draft => .error fault draft.func

end Confinement
