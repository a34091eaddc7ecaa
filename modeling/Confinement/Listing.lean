import Confinement.Symbols

/-!
# Listings

The written form of instructions and functions, one instruction a line. A listing never fails: a
value without a type is marked, a symbol without a name is a question mark, a block that does not
exist goes by its number, and an erased instruction is listed as such.
-/

set_option autoImplicit false

namespace Confinement

/-- A value by itself. -/
def Value.text (symbols : SymbolTable) : Value → String
  | .inst id => s!"%{id}"
  | .arg index => s!"%arg{index}"
  | .const (.int _ value) => s!"{value}"
  | .const (.null _) => "null"
  | .const (.undef _) => "undef"
  | .global id => "@" ++ (symbols.globalName? id).getD "?"
  | .func id => "@" ++ (symbols.functionName? id).getD "?"

namespace Func

variable (f : Func) (symbols : SymbolTable)

/-- A value behind its type. -/
def typedText (v : Value) : String :=
  match f.valueType symbols v with
  | .ok ty => ty.text ++ " " ++ v.text symbols
  | .error _ => "<?> " ++ v.text symbols

/-- Several values behind their types. -/
def typedTexts (vs : List Value) : String :=
  ", ".intercalate (vs.map (f.typedText symbols))

/-- The name that jumps give to a block. -/
def blockText (b : BlockId) : String :=
  match f.block? b with
  | some block => block.name
  | none => s!"bb{b}"

/-- The target of a jump. -/
def labelText (b : BlockId) : String :=
  "label %" ++ f.blockText b

/-- One input of a `phi`. -/
def inputText (input : Value × BlockId) : String :=
  "[ " ++ input.1.text symbols ++ ", %" ++ f.blockText input.2 ++ " ]"

/-- What an instruction of a result type does. -/
def kindText (ty : Ty) : InstKind → String
  | .load ptr => "load " ++ ty.text ++ ", " ++ f.typedText symbols ptr
  | .store value ptr => "store " ++ f.typedText symbols value ++ ", " ++ f.typedText symbols ptr
  | .binary op lhs rhs =>
    op.mnemonic ++ " " ++ f.typedText symbols lhs ++ ", " ++ rhs.text symbols
  | .icmp rel lhs rhs =>
    "icmp " ++ rel.mnemonic ++ " " ++ f.typedText symbols lhs ++ ", " ++ rhs.text symbols
  | .cast op value => op.mnemonic ++ " " ++ f.typedText symbols value ++ " to " ++ ty.text
  | .select cond onTrue onFalse => "select " ++ f.typedTexts symbols [cond, onTrue, onFalse]
  | .phi incoming =>
    "phi " ++ ty.text ++ " " ++ ", ".intercalate (incoming.map (f.inputText symbols))
  | .gep base indices => "getelementptr " ++ f.typedTexts symbols (base :: indices)
  | .call callee args =>
    "call " ++ ty.text ++ " " ++ callee.text symbols ++ "(" ++ f.typedTexts symbols args ++ ")"
  | .intrinsic op args =>
    "call " ++ ty.text ++ " @" ++ op.symbol ++ "(" ++ f.typedTexts symbols args ++ ")"
  | .ret (some value) => "ret " ++ f.typedText symbols value
  | .ret none => "ret void"
  | .br target => "br " ++ f.labelText target
  | .condBr cond onTrue onFalse =>
    "br " ++ f.typedText symbols cond ++ ", " ++ f.labelText onTrue ++ ", " ++ f.labelText onFalse
  | .unreachable => "unreachable"

/-- One instruction as a line: what it does, behind its number when it has a result. -/
def instText (id : InstId) : String :=
  match f.inst? id with
  | none => s!"<erased %{id}>"
  | some inst =>
    let text := f.kindText symbols inst.ty inst.kind
    if inst.ty = .void then text else s!"%{id} = " ++ text

/-- The parameters with their types. -/
def paramsText : String :=
  ", ".intercalate (f.params.zipIdx.map fun (ty, index) => ty.text ++ s!" %arg{index}")

/-- The lines of a block: its label, then its instructions. -/
def blockLines (block : Block) : List String :=
  (block.name ++ ":\n") :: block.insts.map fun id => "  " ++ f.instText symbols id ++ "\n"

/-- The whole function. -/
def text : String :=
  let head := f.ret.text ++ " @" ++ f.name ++ "(" ++ f.paramsText ++ ")"
  if f.isDeclaration then "declare " ++ head ++ "\n"
  else
    "define " ++ head ++ " \x7b\n" ++ String.join (f.blocks.flatMap (f.blockLines symbols)) ++
      "\x7d\n"

end Func

end Confinement
