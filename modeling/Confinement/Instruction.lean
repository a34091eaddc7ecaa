import Confinement.Constant

/-!
# Values and instructions

The closed instruction set. An instruction names the values it reads and the blocks it jumps to by
number: a value is the result of an instruction of the same function, a parameter, a constant, or
the address of a symbol of the module.
-/

set_option autoImplicit false

namespace Confinement

/-- An instruction of a function, numbered in the order of creation. -/
abbrev InstId := Nat

/-- A block of a function, numbered in layout order. -/
abbrev BlockId := Nat

/-- A global symbol of a module, numbered in the order of definition. -/
abbrev GlobalId := Nat

/-- A function of a module, numbered in the order of definition. -/
abbrev FuncId := Nat

/-- What an operand slot holds. -/
inductive Value where
  /-- The result of an instruction. -/
  | inst (id : InstId)
  /-- A parameter of the function. -/
  | arg (index : Nat)
  /-- A constant. -/
  | const (c : Constant)
  /-- The address of a global symbol. -/
  | global (id : GlobalId)
  /-- The address of a function. -/
  | func (id : FuncId)
  deriving DecidableEq, Inhabited

namespace Value

/-- The integer constant of a width that agrees with `value` in its low bits. -/
def int (bits : Nat) (value : Int) : Value :=
  .const (.ofInt bits value)

/-- The instruction whose result this is. -/
def inst? : Value → Option InstId
  | .inst id => some id
  | _ => none

/-- The constant that this is. -/
def const? : Value → Option Constant
  | .const c => some c
  | _ => none

theorem inst?_eq_some_iff {v : Value} {id : InstId} : v.inst? = some id ↔ v = .inst id := by
  cases v <;> simp [inst?]

theorem const?_eq_some_iff {v : Value} {c : Constant} : v.const? = some c ↔ v = .const c := by
  cases v <;> simp [const?]

end Value

/-! ## Operators -/

/-- A binary operation on integers. -/
inductive BinOp where
  | add | sub | mul | and | or | xor | shl | lshr
  deriving DecidableEq, Inhabited

/-- The word for a binary operation. -/
def BinOp.mnemonic : BinOp → String
  | add => "add"
  | sub => "sub"
  | mul => "mul"
  | and => "and"
  | or => "or"
  | xor => "xor"
  | shl => "shl"
  | lshr => "lshr"

/-- A comparison of integers. -/
inductive Comparison where
  | eq | ne | ult | slt
  deriving DecidableEq, Inhabited

/-- The word for a comparison. -/
def Comparison.mnemonic : Comparison → String
  | eq => "eq"
  | ne => "ne"
  | ult => "ult"
  | slt => "slt"

/-- A conversion between types. -/
inductive CastOp where
  | trunc | zext | sext | ptrtoint | inttoptr | bitcast
  deriving DecidableEq, Inhabited

/-- The word for a conversion. -/
def CastOp.mnemonic : CastOp → String
  | trunc => "trunc"
  | zext => "zext"
  | sext => "sext"
  | ptrtoint => "ptrtoint"
  | inttoptr => "inttoptr"
  | bitcast => "bitcast"

/-- An operation that the compiler itself provides. -/
inductive Intrinsic where
  | memcpy | memmove | memset
  | atomicLoad | atomicStore | atomicRmw | atomicCmpxchg | atomicIsLockFree | atomicFence
  | trap | stackSave | stackRestore
  deriving DecidableEq, Inhabited

/-- The symbol under which an intrinsic is called. -/
def Intrinsic.symbol : Intrinsic → String
  | memcpy => "llvm.memcpy"
  | memmove => "llvm.memmove"
  | memset => "llvm.memset"
  | atomicLoad => "llvm.nacl.atomic.load"
  | atomicStore => "llvm.nacl.atomic.store"
  | atomicRmw => "llvm.nacl.atomic.rmw"
  | atomicCmpxchg => "llvm.nacl.atomic.cmpxchg"
  | atomicIsLockFree => "llvm.nacl.atomic.is.lock.free"
  | atomicFence => "llvm.nacl.atomic.fence"
  | trap => "llvm.trap"
  | stackSave => "llvm.stacksave"
  | stackRestore => "llvm.stackrestore"

/-! ## Instructions -/

/-- What an instruction does, with the values it reads. -/
inductive InstKind where
  /-- Read memory at `ptr`. -/
  | load (ptr : Value)
  /-- Write `value` to memory at `ptr`. -/
  | store (value ptr : Value)
  /-- Combine two integers. -/
  | binary (op : BinOp) (lhs rhs : Value)
  /-- Compare two integers. -/
  | icmp (rel : Comparison) (lhs rhs : Value)
  /-- Convert a value to the type of the instruction. -/
  | cast (op : CastOp) (value : Value)
  /-- Choose between two values. -/
  | select (cond onTrue onFalse : Value)
  /-- The value that belongs to the block from which control came. -/
  | phi (incoming : List (Value × BlockId))
  /-- The address of a part of what `base` points at. -/
  | gep (base : Value) (indices : List Value)
  /-- Call a function. -/
  | call (callee : Value) (args : List Value)
  /-- Call an operation that the compiler provides. -/
  | intrinsic (op : Intrinsic) (args : List Value)
  /-- Return from the function. -/
  | ret (value : Option Value)
  /-- Continue in another block. -/
  | br (target : BlockId)
  /-- Continue in one of two blocks. -/
  | condBr (cond : Value) (onTrue onFalse : BlockId)
  /-- Control never arrives here. -/
  | unreachable
  deriving DecidableEq, Inhabited

/-- A position in the source text that an instruction stands for. -/
structure Loc where
  line : Nat
  col : Nat
  deriving DecidableEq, Inhabited

/-- An instruction with its result type, its block and its source position. -/
structure Inst where
  kind : InstKind
  ty : Ty
  block : BlockId
  loc : Option Loc
  deriving DecidableEq, Inhabited

namespace InstKind

/-- The arguments of a call to a function. -/
def callArgs? : InstKind → Option (List Value)
  | .call _ args => some args
  | _ => none

/-- Does the instruction end its block? -/
def isTerminator : InstKind → Bool
  | .ret _ => true
  | .br _ => true
  | .condBr _ _ _ => true
  | .unreachable => true
  | _ => false

end InstKind

end Confinement
