/-!
# Faults

What can be wrong with a function or a module, or with a request to edit one. A fault carries the
names and numbers that its message speaks of.
-/

set_option autoImplicit false

namespace Confinement

/-- A malformed program, or a request that the program at hand cannot serve. -/
inductive Fault where
  /-- The instruction was erased, or never existed. -/
  | stale (func : String) (id : Nat)
  /-- The function has no such block. -/
  | noBlock (func : String) (block : Nat)
  /-- The slot that is to be written does not exist. -/
  | noSlot (id slot : Nat)
  /-- The slot that is to be read does not exist, or its instruction does not. -/
  | noOperand (func : String) (id slot : Nat)
  /-- The result of the instruction that is to be erased is read. -/
  | stillUsed (func : String) (id : Nat)
  /-- The block of a live instruction does not list it. -/
  | unlisted (id : Nat)
  /-- The function has no such parameter. -/
  | noParameter (func : String) (index : Nat)
  /-- The module has no such global symbol. -/
  | unknownGlobal (id : Nat)
  /-- The module has no such function. -/
  | unknownFunction (id : Nat)
  /-- The slot of an access holds no address. -/
  | notPointer (func : String) (id slot : Nat)
  /-- The length of a bulk operation is no integer. -/
  | lengthNotInteger (func : String) (id : Nat)
  /-- A declaration has no entry block to load the base in. -/
  | noBody (func : String)
  /-- A fault that a user of the library states in words of its own. -/
  | reported (text : String)
  deriving DecidableEq

/-- The wording of a fault. -/
def Fault.message : Fault → String
  | stale func id => s!"stale instruction %{id} in @{func}"
  | noBlock func block => s!"@{func} has no block {block}"
  | noSlot id slot => s!"instruction %{id} has no operand {slot}"
  | noOperand func id slot => s!"instruction %{id} in @{func} has no operand {slot}"
  | stillUsed func id => s!"cannot erase %{id} in @{func}: result still in use"
  | unlisted id => s!"instruction %{id} missing from its block"
  | noParameter func index => s!"@{func} has no parameter {index}"
  | unknownGlobal id => s!"unknown global #{id}"
  | unknownFunction id => s!"unknown function #{id}"
  | notPointer func id slot => s!"operand {slot} of %{id} in @{func} is not a pointer"
  | lengthNotInteger func id => s!"length operand of %{id} in @{func} is not an integer"
  | noBody func => s!"@{func} has no body to sandbox"
  | reported text => text

end Confinement
