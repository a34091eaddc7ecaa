import Confinement.Instruction

/-!
# Memory accesses

Which instructions touch memory, and through which operand slots. Every instruction is either an
access, or free to carry addresses because it only passes them on, or bound to carry none.
-/

set_option autoImplicit false

namespace Confinement

/-- A slot that holds an address to confine. -/
structure PointerSlot where
  /-- The operand slot. -/
  index : Nat
  /-- Is a single value accessed, of the type that the address points at? -/
  firstClass : Bool
  deriving DecidableEq, Inhabited

/-- The slots through which an instruction touches memory. -/
structure Access where
  /-- The addresses, in the order in which they are confined. -/
  pointers : List PointerSlot
  /-- The slot of the length of a bulk operation. -/
  length : Option Nat
  deriving DecidableEq, Inhabited

namespace Access

/-- One value at the address in a slot. -/
def value (index : Nat) : Access where
  pointers := [{ index, firstClass := true }]
  length := none

/-- Bytes from the address in slot 1 to the address in slot 0, as many as slot 2 says. -/
def copy : Access where
  pointers := [{ index := 0, firstClass := false }, { index := 1, firstClass := false }]
  length := some 2

/-- Bytes from the address in slot 0 on, as many as slot 2 says. -/
def fill : Access where
  pointers := [{ index := 0, firstClass := false }]
  length := some 2

end Access

/-- How an instruction is treated. -/
inductive Route where
  /-- It touches memory through these slots. -/
  | sandbox (access : Access)
  /-- It may carry addresses, and does not touch memory. -/
  | whitelisted
  /-- It must not carry addresses. -/
  | validate
  deriving DecidableEq, Inhabited

/-- The treatment of a call to an intrinsic. -/
def Intrinsic.route : Intrinsic → Route
  | memcpy => .sandbox .copy
  | memmove => .sandbox .copy
  | memset => .sandbox .fill
  | atomicLoad => .sandbox (.value 0)
  | atomicCmpxchg => .sandbox (.value 0)
  | atomicStore => .sandbox (.value 1)
  | atomicRmw => .sandbox (.value 1)
  | atomicIsLockFree => .sandbox (.value 1)
  | atomicFence => .validate
  | trap => .validate
  | stackSave => .validate
  | stackRestore => .validate

/-- The treatment of a conversion: an address may be read as an integer or as another address. -/
def CastOp.route : CastOp → Route
  | ptrtoint => .whitelisted
  | bitcast => .whitelisted
  | trunc => .validate
  | zext => .validate
  | sext => .validate
  | inttoptr => .validate

/-- The treatment of an instruction, a closed list. -/
def InstKind.route : InstKind → Route
  | .load _ => .sandbox (.value 0)
  | .store _ _ => .sandbox (.value 1)
  | .intrinsic op _ => op.route
  | .cast op _ => op.route
  | .binary _ _ _ => .validate
  | .icmp _ _ _ => .validate
  | .select _ _ _ => .validate
  | .phi _ => .validate
  | .gep _ _ => .validate
  | .call _ _ => .validate
  | .ret _ => .validate
  | .br _ => .validate
  | .condBr _ _ _ => .validate
  | .unreachable => .validate

/-- The slots through which an instruction touches memory, if it does. -/
def InstKind.access? (kind : InstKind) : Option Access :=
  match kind.route with
  | .sandbox access => some access
  | _ => none

end Confinement
