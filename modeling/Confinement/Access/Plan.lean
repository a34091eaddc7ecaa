import Confinement.Access
import Confinement.Error
import Confinement.Listing

/-!
# Access plans

The plan of a function lists its memory accesses in program order. It exists only when nothing is
left over: each access has addresses and lengths where it should, and no other instruction reads an
address. The first instruction that breaks this decides the error.
-/

set_option autoImplicit false

namespace Confinement

/-- An access that is to be confined. -/
structure Planned where
  /-- The instruction. -/
  id : InstId
  /-- Its slots. -/
  access : Access
  deriving DecidableEq, Inhabited

/-- The accesses of a function in program order. -/
abbrev Plan := List Planned

/-- The operands of an instruction that are data; the callee of a call is code. -/
def InstKind.dataOperands (kind : InstKind) : List Value :=
  kind.callArgs?.getD kind.operands

namespace Func

variable (f : Func) (symbols : SymbolTable)

/-- The value in an operand slot. -/
def slotValue (id : InstId) (slot : Nat) : Except Fault Value :=
  match f.operand? id slot with
  | some v => .ok v
  | none => .error (.noOperand f.name id slot)

/-- What the address in an operand slot points at. -/
def slotPointee (id : InstId) (slot : Nat) : Except Fault Ty := do
  let ty ← f.valueType symbols (← f.slotValue id slot)
  match ty.pointee? with
  | some pointee => return pointee
  | none => throw (.notPointer f.name id slot)

/-- The width of the integer in an operand slot. -/
def slotBits (id : InstId) (slot : Nat) : Except Fault Nat := do
  let ty ← f.valueType symbols (← f.slotValue id slot)
  match ty.intBits? with
  | some bits => return bits
  | none => throw (.lengthNotInteger f.name id)

/-- Refuses an access unless its slots hold addresses and an integer length. -/
def checkAccess (id : InstId) (access : Access) : Except Fault Unit := do
  if (f.inst? id).isNone then throw (.stale f.name id)
  access.pointers.forM fun slot => discard (f.slotPointee symbols id slot.index)
  access.length.forM fun slot => discard (f.slotBits symbols id slot)

/-- Refuses an instruction if one of its data operands is an address. -/
def checkNoPointers (id : InstId) : Except Error Unit :=
  match f.inst? id with
  | none => .error (.malformed (.stale f.name id))
  | some inst => inst.kind.dataOperands.forM fun v =>
    match f.valueType symbols v with
    | .error fault => .error (.malformed fault)
    | .ok ty =>
      if ty.isPointer then .error (.uncoveredPointer f.name (f.instText symbols id)) else .ok ()

/-- What one instruction adds to the plan. -/
def planInst (id : InstId) : Except Error Plan :=
  match f.inst? id with
  | none => .ok []
  | some inst =>
    match inst.kind.route with
    | .whitelisted => .ok []
    | .validate => (f.checkNoPointers symbols id).map fun _ => []
    | .sandbox access =>
      match f.checkAccess symbols id access with
      | .ok () => .ok [{ id, access }]
      | .error fault => .error (.malformed fault)

/-- What several instructions add to the plan, in their order. -/
def planInsts : List InstId → Except Error Plan
  | [] => .ok []
  | id :: ids => do
    let here ← f.planInst symbols id
    let rest ← planInsts ids
    return here ++ rest

/-- The accesses to confine, or the error of the first instruction that cannot be let through. -/
def plan : Except Error Plan :=
  f.planInsts symbols f.order

end Func

end Confinement
