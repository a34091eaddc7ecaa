import Confinement.Fault
import Confinement.Ty

/-!
# Violations

What the audit of a sandboxed module objects to. A reason names the first part of the expected
address computation that is missing.
-/

set_option autoImplicit false

namespace Confinement

/-- Why an access is not known to be confined. -/
inductive Reason where
  /-- A function loads the base of the region a second time. -/
  | baseLoadedTwice
  /-- A function loads the base elsewhere than at its entry. -/
  | baseNotAtEntry
  /-- The address is not converted from an integer. -/
  | notRebuilt
  /-- Something that is no constant is added to the confined address. -/
  | offsetNotConstant
  /-- A constant is added to the address of a bulk operation. -/
  | bulkFolded
  /-- The address has no type. -/
  | untyped (fault : Fault)
  /-- The address is of no pointer type. -/
  | notAddress
  /-- The access may reach beyond the guard region. -/
  | pastGuard (offset : Int)
  /-- The integer is not a sum with the base. -/
  | baseNotAdded
  /-- What is added to the base is not widened by zeros. -/
  | notExtended
  /-- What is widened is not a 32-bit integer. -/
  | extendedFrom (ty : Ty)
  /-- What is widened is not masked. -/
  | notMasked
  /-- The length of a bulk operation is not masked. -/
  | lengthNotMasked
  /-- The slot does not exist. -/
  | missingOperand (slot : Nat)
  /-- A reason that a user of the library states in words of its own. -/
  | reported (text : String)
  deriving DecidableEq

/-- The wording of a reason. -/
def Reason.message : Reason → String
  | baseLoadedTwice => "sandbox base loaded more than once"
  | baseNotAtEntry => "sandbox base is not loaded at function entry"
  | notRebuilt => "pointer is not rebuilt from a sandboxed address"
  | offsetNotConstant => "folded offset is not a constant"
  | bulkFolded => "bulk access uses a folded offset"
  | untyped fault => "IR error: " ++ fault.message
  | notAddress => "address is not a pointer"
  | pastGuard offset => s!"folded offset {offset} exceeds the guard region"
  | baseNotAdded => "address does not add the sandbox base"
  | notExtended => "offset is not zero-extended"
  | extendedFrom ty => "offset extended from " ++ ty.text ++ " instead of i32"
  | notMasked => "offset is not masked"
  | lengthNotMasked => "length is not masked"
  | missingOperand slot => s!"missing operand {slot}"
  | reported text => text

/-- An instruction that is not known to be confined, as a message shows it. -/
structure Violation where
  /-- The function. -/
  func : String
  /-- The instruction, listed. -/
  inst : String
  /-- What is wrong with it. -/
  reason : Reason
  deriving DecidableEq

/-- The wording of a violation. -/
def Violation.message (v : Violation) : String :=
  "@" ++ v.func ++ ": " ++ v.inst ++ ": " ++ v.reason.message

end Confinement
