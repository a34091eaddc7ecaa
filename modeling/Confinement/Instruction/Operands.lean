import Confinement.Instruction

/-!
# Operand slots

The values that an instruction reads, numbered from 0. A store reads its value before its address,
and a call its arguments before its callee. Writing a slot changes that entry of the list and
nothing else: `operands_setOperand`.
-/

set_option autoImplicit false

namespace Confinement.InstKind

/-- The values that an instruction reads, in slot order. -/
def operands : InstKind → List Value
  | .load ptr => [ptr]
  | .store value ptr => [value, ptr]
  | .binary _ lhs rhs => [lhs, rhs]
  | .icmp _ lhs rhs => [lhs, rhs]
  | .cast _ value => [value]
  | .select cond onTrue onFalse => [cond, onTrue, onFalse]
  | .phi incoming => incoming.map (·.1)
  | .gep base indices => base :: indices
  | .call callee args => args ++ [callee]
  | .intrinsic _ args => args
  | .ret value => value.toList
  | .br _ => []
  | .condBr cond _ _ => [cond]
  | .unreachable => []

/-- The value in a slot. -/
def operand? (kind : InstKind) (slot : Nat) : Option Value :=
  kind.operands[slot]?

/-- The instruction with `v` written into a slot; unchanged where there is no such slot. -/
def setOperand (kind : InstKind) (slot : Nat) (v : Value) : InstKind :=
  match kind, slot with
  | .load _, 0 => .load v
  | .store _ ptr, 0 => .store v ptr
  | .store value _, 1 => .store value v
  | .binary op _ rhs, 0 => .binary op v rhs
  | .binary op lhs _, 1 => .binary op lhs v
  | .icmp rel _ rhs, 0 => .icmp rel v rhs
  | .icmp rel lhs _, 1 => .icmp rel lhs v
  | .cast op _, 0 => .cast op v
  | .select _ onTrue onFalse, 0 => .select v onTrue onFalse
  | .select cond _ onFalse, 1 => .select cond v onFalse
  | .select cond onTrue _, 2 => .select cond onTrue v
  | .phi incoming, i => .phi (incoming.modify i fun input => (v, input.2))
  | .gep _ indices, 0 => .gep v indices
  | .gep base indices, i + 1 => .gep base (indices.set i v)
  | .call callee args, i =>
    if i = args.length then .call v args else .call callee (args.set i v)
  | .intrinsic op args, i => .intrinsic op (args.set i v)
  | .ret (some _), 0 => .ret (some v)
  | .condBr _ onTrue onFalse, 0 => .condBr v onTrue onFalse
  | kind, _ => kind

/-- The values of a list of pairs, one of which is given another value. -/
theorem map_fst_modify (l : List (Value × BlockId)) (i : Nat) (v : Value) :
    (l.modify i fun input => (v, input.2)).map (·.1) = (l.map (·.1)).set i v := by
  induction l generalizing i with
  | nil => cases i <;> rfl
  | cons p l ih => cases i <;> simp [List.modify_succ_cons, ih]

/-- Writing a slot replaces that operand and keeps every other one. -/
theorem operands_setOperand (kind : InstKind) (slot : Nat) (v : Value) :
    (kind.setOperand slot v).operands = kind.operands.set slot v := by
  cases kind with
  | phi incoming => simp [setOperand, operands, map_fst_modify]
  | gep base indices => cases slot <;> simp [setOperand, operands]
  | call callee args =>
    by_cases h : slot = args.length
    · subst h; simp [setOperand, operands]
    · rcases Nat.lt_or_gt_of_ne h with h' | h'
      · simp [setOperand, operands, h, List.set_append_left, h']
      · have e : slot - args.length = slot - args.length - 1 + 1 := by omega
        simp [setOperand, operands, h, List.set_append_right _ _ (Nat.le_of_lt h'),
          List.set_eq_of_length_le (Nat.le_of_lt h')]
        rw [e]; rfl
  | intrinsic op args => simp [setOperand, operands]
  | ret value => cases value <;> rcases slot with _ | slot <;> simp [setOperand, operands]
  | select cond onTrue onFalse =>
    rcases slot with _ | _ | _ | slot <;> simp [setOperand, operands]
  | store value ptr => rcases slot with _ | _ | slot <;> simp [setOperand, operands]
  | binary op lhs rhs => rcases slot with _ | _ | slot <;> simp [setOperand, operands]
  | icmp rel lhs rhs => rcases slot with _ | _ | slot <;> simp [setOperand, operands]
  | load ptr => cases slot <;> simp [setOperand, operands]
  | cast op value => cases slot <;> simp [setOperand, operands]
  | condBr cond onTrue onFalse => cases slot <;> simp [setOperand, operands]
  | br target => simp [setOperand, operands]
  | unreachable => simp [setOperand, operands]

@[simp] theorem length_operands_setOperand (kind : InstKind) (slot : Nat) (v : Value) :
    (kind.setOperand slot v).operands.length = kind.operands.length := by
  rw [operands_setOperand, List.length_set]

/-- The written slot holds the written value. -/
theorem operand?_setOperand_self {kind : InstKind} {slot : Nat} (v : Value)
    (h : slot < kind.operands.length) : (kind.setOperand slot v).operand? slot = some v := by
  simp [operand?, operands_setOperand, h]

/-- Every other slot holds what it held before. -/
theorem operand?_setOperand_of_ne {kind : InstKind} {slot other : Nat} (v : Value)
    (h : other ≠ slot) : (kind.setOperand slot v).operand? other = kind.operand? other := by
  simp [operand?, operands_setOperand, Ne.symm h]

end Confinement.InstKind
