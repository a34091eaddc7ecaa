import Confinement.Module
import Confinement.Violation

/-!
# Errors

Everything that can keep a module from being sandboxed, with its wording. An error in what the user
chose can be mended by choosing anew; every other error ends the compilation.
-/

set_option autoImplicit false

namespace Confinement

/-- What is wrong with an options document. -/
inductive OptionsFault where
  /-- It is not a JSON text. -/
  | notJson
  /-- It is neither an object nor an array. -/
  | notRecord
  /-- A key holds no text. -/
  | brokenKey
  /-- An option is given twice. -/
  | repeated (option : String)
  /-- An option is given a value of the wrong kind. -/
  | wrongKind (option : String)
  /-- An array has more entries than there are options. -/
  | tooMany
  /-- A fault that a user of the library states in words of its own. -/
  | reported (text : String)
  deriving DecidableEq

/-- The wording of a fault in an options document. -/
def OptionsFault.message : OptionsFault → String
  | notJson => "not a JSON text"
  | notRecord => "expected an object or an array"
  | brokenKey => "a key is not valid text"
  | repeated option => "duplicate option " ++ option
  | wrongKind option => "wrong kind of value for option " ++ option
  | tooMany => "more than three options"
  | reported text => text

/-- Why a module was not sandboxed. -/
inductive Error where
  /-- An instruction other than an access reads an address. -/
  | uncoveredPointer (func inst : String)
  /-- The module was sandboxed before. -/
  | alreadySandboxed (name : String)
  /-- A symbol of the runtime contract cannot be defined. -/
  | conflict (conflict : Conflict)
  /-- The width is not one from 1 to 32. -/
  | invalidWidth (bits : Nat)
  /-- The options cannot be read. -/
  | invalidOptions (fault : OptionsFault)
  /-- The program is malformed. -/
  | malformed (fault : Fault)
  /-- The audit objects to the sandboxed module. -/
  | unconfined (count : Nat) (first : Violation)
  deriving DecidableEq

namespace Error

/-- The wording of an error. -/
def message : Error → String
  | uncoveredPointer func inst =>
    s!"unexpected instruction with pointer-type operands in @{func}: " ++ inst
  | alreadySandboxed name => s!"module {name} is already sandboxed"
  | conflict c => "symbol conflict on " ++ c.name ++ ": " ++ c.cause.message
  | invalidWidth bits => s!"invalid sandbox pointer size: {bits} bits (expected 1-32)"
  | invalidOptions fault => "invalid configuration: " ++ fault.message
  | malformed fault => "IR error: " ++ fault.message
  | unconfined count first =>
    s!"IR error: sandboxed module failed confinement check ({count} violations): " ++ first.message

/-- Must compilation stop, whatever options are chosen? -/
def isFatal : Error → Bool
  | invalidWidth _ => false
  | invalidOptions _ => false
  | _ => true

end Error

end Confinement
