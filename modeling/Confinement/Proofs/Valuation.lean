import Confinement.Module
import Confinement.Proofs.Growth
import Confinement.Proofs.Word

/-!
# Values at run time

A valuation gives a natural number to everything that an operand can name: a parameter, a symbol's
address, an undefined constant, the result of an instruction. Integers are read unsigned and
addresses are numbers. An instruction that only computes determines its result from the values of
its operands (`Valuation.eval?`); what depends on memory, on control or on a call may be anything of
its type.

Two ways to read a function follow. A valuation may be given on all instructions and is then asked
to solve their equations (`SolvesFrom`), or it is given on the instructions below some number and
computed on the others in their order (`after`); the second solves the equations of the instructions
that it computes (`after_solvesFrom`).
-/

set_option autoImplicit false

namespace Confinement

open Func

/-! ## Operators -/

/-- The signed reading of the low `bits` bits of a number. -/
def signedReading (bits value : Nat) : Int :=
  (value : Int).bmod (2 ^ bits)

/-- The result of a binary operation on integers of `bits` bits. A shift by the width or more has
none. -/
def BinOp.eval? (op : BinOp) (bits lhs rhs : Nat) : Option Nat :=
  match op with
  | .add => some ((lhs + rhs) % 2 ^ bits)
  | .sub => some ((lhs + (2 ^ bits - rhs % 2 ^ bits)) % 2 ^ bits)
  | .mul => some (lhs * rhs % 2 ^ bits)
  | .and => some (lhs &&& rhs)
  | .or => some (lhs ||| rhs)
  | .xor => some (lhs ^^^ rhs)
  | .shl => if rhs < bits then some ((lhs <<< rhs) % 2 ^ bits) else none
  | .lshr => if rhs < bits then some (lhs >>> rhs) else none

/-- Does a comparison of integers of `bits` bits hold? -/
def Comparison.holds (rel : Comparison) (bits lhs rhs : Nat) : Bool :=
  match rel with
  | .eq => lhs == rhs
  | .ne => lhs != rhs
  | .ult => lhs < rhs
  | .slt => signedReading bits lhs < signedReading bits rhs

/-- The result of a conversion, given the widths of the integer types that it converts from and to.
Addresses have 64 bits and keep their number. -/
def CastOp.eval? (op : CastOp) (source target : Option Nat) (value : Nat) : Option Nat :=
  match op with
  | .trunc => target.map (value % 2 ^ ·)
  | .ptrtoint => target.map (value % 2 ^ ·)
  | .zext => some value
  | .sext => source.bind fun m => target.map fun n =>
      (signedReading m value % (2 ^ n : Nat)).toNat
  | .inttoptr => some value
  | .bitcast => some value

/-! ## Valuations -/

/-- A value for everything that an operand can name. -/
structure Valuation where
  /-- The parameters. -/
  arg : Nat → Nat
  /-- The addresses of the global symbols. -/
  global : GlobalId → Nat
  /-- The addresses of the functions. -/
  func : FuncId → Nat
  /-- What an undefined constant of a type happens to be. -/
  undef : Ty → Nat
  /-- The results of the instructions. -/
  result : InstId → Nat

namespace Valuation

/-- The value of a constant; the null address is 0. -/
def constant (ρ : Valuation) : Constant → Nat
  | .int bits value => Constant.word bits value
  | .null _ => 0
  | .undef ty => ρ.undef ty

/-- The value of an operand. -/
def value (ρ : Valuation) : Value → Nat
  | .inst id => ρ.result id
  | .arg index => ρ.arg index
  | .const c => ρ.constant c
  | .global id => ρ.global id
  | .func id => ρ.func id

/-- The width of an operand of integer type. -/
def operandBits (f : Func) (symbols : SymbolTable) (v : Value) : Option Nat :=
  match f.valueType symbols v with
  | .ok ty => ty.intBits?
  | .error _ => none

/-- The result of an instruction that computes; nothing for one whose result depends on more than
its operands. -/
def eval? (ρ : Valuation) (f : Func) (symbols : SymbolTable) (inst : Inst) : Option Nat :=
  match inst.kind with
  | .binary op lhs rhs =>
    inst.ty.intBits?.bind fun bits => op.eval? bits (ρ.value lhs) (ρ.value rhs)
  | .icmp rel lhs rhs =>
    (operandBits f symbols lhs).map fun bits =>
      if rel.holds bits (ρ.value lhs) (ρ.value rhs) then 1 else 0
  | .cast op v => op.eval? (operandBits f symbols v) inst.ty.intBits? (ρ.value v)
  | .select cond onTrue onFalse =>
    some (if ρ.value cond = 1 then ρ.value onTrue else ρ.value onFalse)
  | _ => none

/-- Integers of a function lie in the range of their types. -/
structure Fits (ρ : Valuation) (f : Func) : Prop where
  arg : ∀ index bits, f.params[index]? = some (.int bits) → ρ.arg index < 2 ^ bits
  undef : ∀ bits, ρ.undef (.int bits) < 2 ^ bits
  result : ∀ id inst bits, f.inst? id = some inst → inst.ty = .int bits → ρ.result id < 2 ^ bits

/-- The results of the instructions numbered `n` and higher are what these compute. -/
def SolvesFrom (ρ : Valuation) (f : Func) (symbols : SymbolTable) (n : Nat) : Prop :=
  ∀ id inst value, n ≤ id → f.inst? id = some inst → ρ.eval? f symbols inst = some value →
    ρ.result id = value

/-- Every result is what its instruction computes. -/
def Solves (ρ : Valuation) (f : Func) (symbols : SymbolTable) : Prop :=
  ρ.SolvesFrom f symbols 0

/-- Takes over what an instruction computes as its result. -/
def step (ρ : Valuation) (f : Func) (symbols : SymbolTable) (id : InstId) : Valuation :=
  match (f.inst? id).bind (ρ.eval? f symbols) with
  | some value => { ρ with result := fun other => if other = id then value else ρ.result other }
  | none => ρ

/-- Computes `count` instructions from number `n` on, one after the other. -/
def compute (ρ : Valuation) (f : Func) (symbols : SymbolTable) (n : Nat) : Nat → Valuation
  | 0 => ρ
  | count + 1 => (ρ.compute f symbols n count).step f symbols (n + count)

/-- Computes every instruction from number `n` on. An instruction that does not compute keeps the
result that it has. -/
def after (ρ : Valuation) (f : Func) (symbols : SymbolTable) (n : Nat) : Valuation :=
  ρ.compute f symbols n (f.cells.size - n)

/-! ## Ranges -/

theorem value_lt {ρ : Valuation} {f : Func} {m : Module} (hf : ρ.Fits f) {v : Value} {bits : Nat}
    (h : f.valueType m.symbols v = .ok (.int bits)) : ρ.value v < 2 ^ bits := by
  -- a typed integer is a result, a parameter or a constant, each in its range
  cases v with
  | inst id =>
    simp only [Func.valueType] at h
    split at h
    · next inst hi => exact hf.result id inst bits hi (Except.ok.inj h)
    · cases h
  | arg index =>
    simp only [Func.valueType] at h
    split at h
    · next ty hp =>
      cases h
      exact hf.arg index bits hp
    · cases h
  | const c =>
    have hc : c.ty = .int bits := Except.ok.inj h
    cases c with
    | int n value =>
      cases hc
      exact Constant.word_lt bits value
    | null ty => exact Nat.two_pow_pos bits
    | undef ty =>
      cases hc
      exact hf.undef bits
  | global id =>
    simp only [Func.valueType, SymbolTable.globalType, Module.symbols, List.getElem?_map] at h
    cases hg : m.globals[id]? <;> rw [hg] at h <;> cases h
  | func id =>
    simp only [Func.valueType, SymbolTable.functionType, Module.symbols, List.getElem?_map] at h
    cases hg : m.functions[id]? <;> rw [hg] at h <;> cases h

/-! ## Computing the later instructions -/

section After

variable {ρ σ : Valuation} {f : Func} {symbols : SymbolTable} {n count id : Nat} {inst : Inst}
  {v : Value}

/-- A result depends on the operands alone. -/
theorem eval?_congr (h : ∀ v ∈ inst.kind.operands, ρ.value v = σ.value v) :
    ρ.eval? f symbols inst = σ.eval? f symbols inst := by
  obtain ⟨kind, ty, block, loc⟩ := inst
  cases kind with
  | binary op lhs rhs =>
    have hl := h lhs (by simp [InstKind.operands])
    have hr := h rhs (by simp [InstKind.operands])
    simp only [eval?, hl, hr]
  | icmp rel lhs rhs =>
    have hl := h lhs (by simp [InstKind.operands])
    have hr := h rhs (by simp [InstKind.operands])
    simp only [eval?, hl, hr]
  | cast op operand =>
    have hv := h operand (by simp [InstKind.operands])
    simp only [eval?, hv]
  | select cond onTrue onFalse =>
    have hc := h cond (by simp [InstKind.operands])
    have ht := h onTrue (by simp [InstKind.operands])
    have hf := h onFalse (by simp [InstKind.operands])
    simp only [eval?, hc, ht, hf]
  | _ => rfl

theorem value_step (h : v ≠ .inst id) : (ρ.step f symbols id).value v = ρ.value v := by
  rw [step]
  split
  · cases v with
    | inst other =>
      have hne : other ≠ id := fun e => h (by rw [e])
      exact if_neg hne
    | const c => cases c <;> rfl
    | _ => rfl
  · rfl

theorem result_step (hi : f.inst? id = some inst) {value : Nat}
    (he : ρ.eval? f symbols inst = some value) : (ρ.step f symbols id).result id = value := by
  have hb : (f.inst? id).bind (ρ.eval? f symbols) = some value := by rw [hi]; exact he
  rw [step]
  rw [hb]
  exact if_pos rfl

theorem step_eq_self (hi : f.inst? id = some inst) (he : ρ.eval? f symbols inst = none) :
    ρ.step f symbols id = ρ := by
  have hb : (f.inst? id).bind (ρ.eval? f symbols) = none := by rw [hi]; exact he
  rw [step]
  rw [hb]

theorem value_compute (h : ∀ other : Nat, v = .inst other → other < n ∨ n + count ≤ other) :
    (ρ.compute f symbols n count).value v = ρ.value v := by
  induction count with
  | zero => rfl
  | succ count ih =>
    rw [compute, value_step]
    · refine ih fun other hv => ?_
      rcases h other hv with hlt | hle
      · exact Or.inl hlt
      · exact Or.inr (by omega)
    · intro hv
      rcases h _ hv with hlt | hle
      · omega
      · omega

/-- A computed result is not disturbed by the instructions computed after it, since none of its
operands is. -/
theorem result_compute (hf : f.ReadsOlder n) (hle : n ≤ id) (hlt : id < n + count)
    (hi : f.inst? id = some inst) {value : Nat}
    (he : (ρ.compute f symbols n count).eval? f symbols inst = some value) :
    (ρ.compute f symbols n count).result id = value := by
  -- on the number of instructions computed: the last one is the one in question, or a later one
  induction count with
  | zero => exact absurd hlt (Nat.not_lt.mpr hle)
  | succ count ih =>
    have hsame : (ρ.compute f symbols n (count + 1)).eval? f symbols inst =
        (ρ.compute f symbols n count).eval? f symbols inst := by
      refine eval?_congr fun v hv => value_step fun e => ?_
      subst e
      -- the instruction would read one that is computed after it
      have hread : n + count < id := hf id inst hle hi _ hv
      omega
    rw [hsame] at he
    rcases Nat.lt_succ_iff_lt_or_eq.mp hlt with hold | hnew
    · have hne : Value.inst id ≠ .inst (n + count) := fun e =>
        Nat.ne_of_lt hold (Value.inst.inj e)
      have hkeep : ((ρ.compute f symbols n count).step f symbols (n + count)).value (.inst id) =
          (ρ.compute f symbols n count).value (.inst id) := value_step hne
      exact hkeep.trans (ih hold he)
    · subst hnew
      exact result_step hi he

/-- What has a number below `n` keeps its value. -/
theorem value_after (h : ∀ other : Nat, v = .inst other → other < n) :
    (ρ.after f symbols n).value v = ρ.value v :=
  value_compute fun other hv => Or.inl (h other hv)

/-- The computed valuation solves the equations of the instructions that it computes. -/
theorem after_solvesFrom (hf : f.ReadsOlder n) :
    (ρ.after f symbols n).SolvesFrom f symbols n := by
  intro id inst value hle hi he
  have hlt : id < f.cells.size := lt_size_of_inst? hi
  exact result_compute hf hle (by omega) hi he

/-- An instruction that does not compute keeps the result that it was given. -/
theorem result_after (hi : f.inst? id = some inst)
    (hnone : ∀ σ : Valuation, σ.eval? f symbols inst = none) :
    (ρ.after f symbols n).result id = ρ.result id := by
  rw [after]
  generalize f.cells.size - n = count
  induction count with
  | zero => rfl
  | succ count ih =>
    refine Eq.trans ?_ ih
    by_cases hid : id = n + count
    · -- its own step computes nothing
      subst hid
      show ((ρ.compute f symbols n count).step f symbols (n + count)).result (n + count) = _
      rw [step_eq_self hi (hnone _)]
    · exact value_step (v := .inst id) fun e => hid (Value.inst.inj e)

end After

end Valuation

end Confinement
