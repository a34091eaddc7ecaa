import Confinement.Instruction.Operands

/-!
# Functions

A function keeps its instructions in numbered cells and its program order in blocks that list those
numbers. An erased instruction leaves an empty cell, so a number never comes to mean another
instruction. Beside each instruction its cell counts the operand slots known to read the result.
-/

set_option autoImplicit false

namespace Confinement

/-- A labelled run of instructions. -/
structure Block where
  /-- The label. -/
  name : String
  /-- The instructions in program order. -/
  insts : List InstId
  deriving DecidableEq, Inhabited

/-- The place of one instruction number. -/
structure Cell where
  /-- The instruction; nothing once it is erased. -/
  inst : Option Inst
  /-- Operand slots that are counted as reading the result. -/
  uses : Nat
  deriving DecidableEq, Inhabited

/-- A function: a definition when it has blocks, a declaration when it has none. -/
structure Func where
  /-- The symbol under which it is called. -/
  name : String
  /-- The types of the parameters. -/
  params : List Ty
  /-- The type of the result. -/
  ret : Ty
  /-- The blocks in layout order; the first is the entry. -/
  blocks : List Block
  /-- The cells, one for each instruction number given out so far. -/
  cells : Array Cell
  deriving DecidableEq, Inhabited

namespace Func

/-- A function without a body. -/
def declare (name : String) (params : List Ty) (ret : Ty) : Func :=
  { name, params, ret, blocks := [], cells := #[] }

/-- The type of the function itself. -/
def signature (f : Func) : Ty :=
  .func f.ret f.params

/-- Is the body missing? -/
def isDeclaration (f : Func) : Bool :=
  f.blocks.isEmpty

/-- The block where control enters. -/
def entry? (f : Func) : Option BlockId :=
  if f.isDeclaration then none else some 0

/-- A block by number. -/
def block? (f : Func) (b : BlockId) : Option Block :=
  f.blocks[b]?

/-- A live instruction by number. -/
def inst? (f : Func) (id : InstId) : Option Inst :=
  f.cells[id]?.bind (·.inst)

/-- Operand slots counted as reading the result of an instruction; none for a number that was never
given out. -/
def useCount (f : Func) (id : InstId) : Nat :=
  (f.cells[id]?.map (·.uses)).getD 0

/-- Is the result of an instruction counted as read? -/
def hasUses (f : Func) (id : InstId) : Bool :=
  0 < f.useCount id

/-- The instructions in program order, block after block. -/
def order (f : Func) : List InstId :=
  f.blocks.flatMap (·.insts)

/-- The number of listed instructions. -/
def instCount (f : Func) : Nat :=
  f.blocks.foldr (fun block count => block.insts.length + count) 0

theorem instCount_eq_length_order (f : Func) : f.instCount = f.order.length := by
  unfold instCount order
  induction f.blocks with
  | nil => rfl
  | cons block blocks ih => simp [ih]

theorem isDeclaration_iff {f : Func} : f.isDeclaration = true ↔ f.blocks = [] :=
  List.isEmpty_iff

/-- The kind of the live instruction whose result a value is. -/
def producer? (f : Func) (v : Value) : Option InstKind :=
  v.inst?.bind fun id => (f.inst? id).map (·.kind)

/-- The value in an operand slot of a live instruction. -/
def operand? (f : Func) (id : InstId) (slot : Nat) : Option Value :=
  (f.inst? id).bind (·.kind.operand? slot)

end Func

end Confinement
