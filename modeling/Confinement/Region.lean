import Confinement.Module
import Confinement.Width

/-!
# The sandbox region and its symbols

The runtime sets up the region before sandboxed code runs. It reads the width from one exported
constant and stores the address of the region into one variable; both are symbols of the module, and
defining them either succeeds as a whole or leaves the module alone.
-/

set_option autoImplicit false

namespace Confinement

/-- The variable in which the runtime stores the 64-bit address of the region. -/
def baseSymbol : String := "__sfi_memory_base"

/-- The exported constant from which the runtime reads the width. -/
def widthSymbol : String := "__sfi_pointer_size"

/-- The flag of a module that has been sandboxed. -/
def sandboxedFlag : String := "minsfi.sandboxed"

/-- A global that the runtime can fill in with the address of the region. -/
def Global.HoldsBase (g : Global) : Prop :=
  g.ty = .int 64 ∧ g.linkage = .external ∧ g.isConstant = false ∧ g.init = none

instance (g : Global) : Decidable g.HoldsBase :=
  inferInstanceAs (Decidable (_ ∧ _ ∧ _ ∧ _))

/-- The region that a module is confined to. -/
structure Region where
  /-- The width of its subspace. -/
  width : Width
  /-- The variable that holds its address. -/
  memoryBase : GlobalId
  /-- The constant that holds its width. -/
  pointerSize : GlobalId
  deriving DecidableEq, Inhabited

/-- The constant that tells the runtime a width. -/
def Width.global (w : Width) : Global where
  name := widthSymbol
  ty := .int 32
  linkage := .external
  isConstant := true
  init := some (.ofInt 32 w.bits)

/-- Defines the symbols of a region, taking over a base variable that the runtime can fill in. All
that can stand against it is looked at before the module is changed. -/
def Region.install (width : Width) : Linking Region := do
  let m ← get
  if (m.globalNamed? widthSymbol).isSome then
    throw { name := widthSymbol, cause := .widthDefined }
  if (m.findGlobal? baseSymbol).any fun (_, g) => ¬ g.HoldsBase then
    throw { name := baseSymbol, cause := .baseUnusable }
  -- Nothing can be refused from here on.
  let memoryBase ← Linking.globalOfType baseSymbol (.int 64)
  let pointerSize ← Linking.addGlobal width.global
  return { width, memoryBase, pointerSize }

/-- What the confinement of every function body refers to. -/
structure Context where
  /-- The region to confine to. -/
  region : Region
  /-- The symbols, those of the region included. -/
  symbols : SymbolTable
  /-- The sizes of values. -/
  layout : DataLayout
  deriving DecidableEq, Inhabited

/-- The context that a module gives to its functions. -/
def Module.context (m : Module) (region : Region) : Context where
  region := region
  symbols := m.symbols
  layout := m.layout

end Confinement
