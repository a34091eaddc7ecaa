import Confinement.Function.Edit

/-!
# Symbol tables and the types of values

A symbol table holds the names of a module's symbols and the types of their addresses. With it every
value of a function has a type, unless it names something that does not exist.
-/

set_option autoImplicit false

namespace Confinement

/-- A symbol as seen from inside a function. -/
structure Symbol where
  /-- The name. -/
  name : String
  /-- The type of the address. -/
  ty : Ty
  deriving DecidableEq, Inhabited

/-- The symbols of a module. -/
structure SymbolTable where
  globals : List Symbol
  functions : List Symbol
  deriving DecidableEq, Inhabited

namespace SymbolTable

/-- The type of a global's address. -/
def globalType (symbols : SymbolTable) (id : GlobalId) : Except Fault Ty :=
  match symbols.globals[id]? with
  | some symbol => .ok symbol.ty
  | none => .error (.unknownGlobal id)

/-- The type of a function's address. -/
def functionType (symbols : SymbolTable) (id : FuncId) : Except Fault Ty :=
  match symbols.functions[id]? with
  | some symbol => .ok symbol.ty
  | none => .error (.unknownFunction id)

/-- The name of a global. -/
def globalName? (symbols : SymbolTable) (id : GlobalId) : Option String :=
  symbols.globals[id]?.map (·.name)

/-- The name of a function. -/
def functionName? (symbols : SymbolTable) (id : FuncId) : Option String :=
  symbols.functions[id]?.map (·.name)

end SymbolTable

/-- The type of a value inside a function. -/
def Func.valueType (f : Func) (symbols : SymbolTable) : Value → Except Fault Ty
  | .inst id =>
    match f.inst? id with
    | some inst => .ok inst.ty
    | none => .error (.stale f.name id)
  | .arg index =>
    match f.params[index]? with
    | some ty => .ok ty
    | none => .error (.noParameter f.name index)
  | .const c => .ok c.ty
  | .global id => symbols.globalType id
  | .func id => symbols.functionType id

end Confinement
