import Confinement.Symbols
import Confinement.Ty.Size

/-!
# Modules

A module holds functions, global symbols and flags. Symbols are numbered in the order of definition
and none is ever taken away, so a number keeps its meaning. A name that is already taken by a global
is refused, or found again when the type agrees.
-/

set_option autoImplicit false

namespace Confinement

/-- Who can see a symbol. -/
inductive Linkage where
  /-- Code outside the module too. -/
  | external
  /-- The module alone. -/
  | internal
  deriving DecidableEq, Inhabited

/-- A global variable or constant. -/
structure Global where
  /-- The name. -/
  name : String
  /-- The type of the stored value; the symbol itself is an address of it. -/
  ty : Ty
  /-- Who can see it. -/
  linkage : Linkage
  /-- Is it never written? -/
  isConstant : Bool
  /-- The value at the start; nothing when the symbol is defined elsewhere. -/
  init : Option Constant
  deriving DecidableEq, Inhabited

/-- A unit of compilation. -/
structure Module where
  /-- The name in messages. -/
  name : String
  /-- How values are laid out in memory. -/
  layout : DataLayout
  /-- The functions in order of definition. -/
  functions : List Func
  /-- The global symbols in order of definition. -/
  globals : List Global
  /-- The flags that are set, each once. -/
  flags : List String
  deriving DecidableEq, Inhabited

/-! ## Conflicts -/

/-- Why a symbol cannot be defined. -/
inductive ConflictCause where
  /-- The name is taken. -/
  | alreadyDefined
  /-- The name is taken by a symbol of another type. -/
  | otherType (expected found : Ty)
  /-- The constant that the runtime reads the width from exists before the width is chosen. -/
  | widthDefined
  /-- What is named like the base of the region cannot be filled in by the runtime. -/
  | baseUnusable
  /-- A cause that a user of the library states in words of its own. -/
  | reported (text : String)
  deriving DecidableEq

/-- The wording of a cause. -/
def ConflictCause.message : ConflictCause → String
  | alreadyDefined => "symbol already defined in module"
  | otherType expected found => "expected type " ++ expected.text ++ ", found " ++ found.text
  | widthDefined => "pointer size constant is already defined"
  | baseUnusable => "memory base must be an external, mutable, uninitialized i64"
  | reported text => text

/-- A symbol that cannot be defined. -/
structure Conflict where
  /-- The name in question. -/
  name : String
  /-- What stands against it. -/
  cause : ConflictCause
  deriving DecidableEq

/-- A change of a module's symbols that may be refused. -/
abbrev Linking := EStateM Conflict Module

namespace Module

/-- A module without symbols. -/
def empty (name : String) (layout : DataLayout) : Module :=
  { name, layout, functions := [], globals := [], flags := [] }

/-- The first function of a name. -/
def functionNamed? (m : Module) (name : String) : Option FuncId :=
  m.functions.findIdx? (·.name = name)

/-- The first global of a name. -/
def globalNamed? (m : Module) (name : String) : Option GlobalId :=
  m.globals.findIdx? (·.name = name)

/-- A global by number. -/
def global? (m : Module) (id : GlobalId) : Option Global :=
  m.globals[id]?

/-- The first global of a name, with its number. -/
def findGlobal? (m : Module) (name : String) : Option (GlobalId × Global) :=
  (m.globalNamed? name).bind fun id => (m.global? id).map fun g => (id, g)

/-- Is a flag set? -/
def hasFlag (m : Module) (flag : String) : Bool :=
  flag ∈ m.flags

/-- Sets a flag, once. -/
def setFlag (m : Module) (flag : String) : Module :=
  { m with flags := m.flags.insert flag }

/-- The symbols as functions of the module see them. -/
def symbols (m : Module) : SymbolTable where
  globals := m.globals.map fun g => { name := g.name, ty := .ptr g.ty }
  functions := m.functions.map fun f => { name := f.name, ty := .ptr f.signature }

theorem hasFlag_setFlag (m : Module) (flag other : String) :
    (m.setFlag flag).hasFlag other = true ↔ other = flag ∨ m.hasFlag other = true := by
  simp [hasFlag, setFlag]

end Module

namespace Linking

/-- Adds a function behind the others. -/
def addFunction (f : Func) : Linking FuncId :=
  modifyGet fun m => (m.functions.length, { m with functions := m.functions ++ [f] })

/-- Adds a global whose name is free. -/
def addGlobal (g : Global) : Linking GlobalId := do
  let m ← get
  if (m.globalNamed? g.name).isSome then
    throw { name := g.name, cause := .alreadyDefined }
  set { m with globals := m.globals ++ [g] }
  return m.globals.length

/-- The global of a name and a type; when the name is free, it is declared as defined elsewhere. -/
def globalOfType (name : String) (ty : Ty) : Linking GlobalId := do
  match (← get).findGlobal? name with
  | none => addGlobal { name, ty, linkage := .external, isConstant := false, init := none }
  | some (id, found) =>
    if found.ty = ty then return id
    throw { name, cause := .otherType ty found.ty }

end Linking

end Confinement
