import Confinement.Module

/-!
# Types that agree

Instructions carry their types, so a type may disagree with those of the operands. A module is typed
when loads and binary operations agree with what they read (`Module.Typed`); the weaker
`Module.NarrowAdds` asks it of the additions of 32 bits alone. Both are checked instruction by
instruction.
-/

set_option autoImplicit false

namespace Confinement

namespace Func

variable (f : Func) (symbols : SymbolTable)

/-- A value has a type inside a function. -/
def HasType (v : Value) (ty : Ty) : Prop :=
  f.valueType symbols v = .ok ty

instance (v : Value) (ty : Ty) : Decidable (f.HasType symbols v ty) :=
  decidable_of_iff ((f.valueType symbols v).toOption = some ty) (by
    rw [HasType]
    cases f.valueType symbols v <;> simp [Except.toOption])

/-- A value has a type, and it is not that of an address. -/
def HoldsData (v : Value) : Prop :=
  ∃ ty, f.HasType symbols v ty ∧ ty.isPointer = false

/-- A load reads what its address points at, and a binary operation combines two values of its own
type. -/
def agrees (inst : Inst) : Bool :=
  match inst.kind with
  | .load ptr => f.HasType symbols ptr (.ptr inst.ty)
  | .binary _ lhs rhs => f.HasType symbols lhs inst.ty ∧ f.HasType symbols rhs inst.ty
  | _ => true

/-- An addition of 32 bits adds integers of 32 bits. -/
def narrowAdd (inst : Inst) : Bool :=
  match inst.kind with
  | .binary .add lhs rhs =>
    inst.ty = .int 32 → f.HasType symbols lhs (.int 32) ∧ f.HasType symbols rhs (.int 32)
  | _ => true

variable {f symbols} {inst : Inst}

theorem agrees_load (h : f.agrees symbols inst = true) {ptr : Value}
    (hkind : inst.kind = .load ptr) : f.HasType symbols ptr (.ptr inst.ty) := by
  rw [agrees] at h
  rw [hkind] at h
  exact of_decide_eq_true h

theorem agrees_binary (h : f.agrees symbols inst = true) {op : BinOp} {lhs rhs : Value}
    (hkind : inst.kind = .binary op lhs rhs) :
    f.HasType symbols lhs inst.ty ∧ f.HasType symbols rhs inst.ty := by
  rw [agrees] at h
  rw [hkind] at h
  exact of_decide_eq_true h

theorem narrowAdd_binary (h : f.narrowAdd symbols inst = true) {lhs rhs : Value}
    (hkind : inst.kind = .binary .add lhs rhs) (hty : inst.ty = .int 32) :
    f.HasType symbols lhs (.int 32) ∧ f.HasType symbols rhs (.int 32) := by
  rw [narrowAdd] at h
  rw [hkind] at h
  exact of_decide_eq_true h hty

/-- What is checked for every number is true of every live instruction. -/
theorem forall_inst?_of_all {p : InstId → Inst → Bool}
    (h : (List.range f.cells.size).all fun id => (f.inst? id).all (p id)) :
    ∀ id inst, f.inst? id = some inst → p id inst = true := by
  intro id inst hi
  have hid := List.all_eq_true.mp h id (List.mem_range.mpr (lt_size_of_inst? hi))
  rw [hi] at hid
  exact hid

end Func

/-- Every live instruction of a module agrees with what it reads. -/
def Module.Typed (m : Module) : Prop :=
  ∀ f ∈ m.functions, ∀ id inst, f.inst? id = some inst → f.agrees m.symbols inst = true

/-- The additions of 32 bits of a module add integers of 32 bits. -/
def Module.NarrowAdds (m : Module) : Prop :=
  ∀ f ∈ m.functions, ∀ id inst, f.inst? id = some inst → f.narrowAdd m.symbols inst = true

/-- A typed module has only narrow additions of 32 bits. -/
theorem Module.Typed.narrowAdds {m : Module} (hm : m.Typed) : m.NarrowAdds := by
  intro f hf id inst hi
  rw [Func.narrowAdd]
  split
  · next lhs rhs hkind =>
    refine decide_eq_true fun hty => ?_
    have hagrees := Func.agrees_binary (hm f hf id inst hi) hkind
    rw [hty] at hagrees
    exact hagrees
  · rfl

end Confinement
