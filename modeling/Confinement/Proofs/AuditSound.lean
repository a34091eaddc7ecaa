import Confinement.Proofs.AuditShapes
import Confinement.Proofs.Placement
import Confinement.Proofs.Valuation

/-!
# The audit is sound

A typed module that the audit has no objection to is confined, however it came about. Under every
valuation that solves the equations of a function, each address that an access uses is the base plus
an offset inside the subspace, or, for a single value, an offset from which the value ends before
twice its size; and a length is smaller than the subspace unless this has the full width
(`Module.violations_sound`).
-/

set_option autoImplicit false

namespace Confinement

namespace Func

variable {f : Func} {symbols : SymbolTable}

theorem hasType_inst_iff {id : InstId} {inst : Inst} {ty : Ty} (hi : f.inst? id = some inst) :
    f.HasType symbols (.inst id) ty ↔ inst.ty = ty := by
  have hvalue : f.valueType symbols (.inst id) = .ok inst.ty := by
    simp only [valueType, hi]
  rw [HasType]
  rw [hvalue]
  exact ⟨Except.ok.inj, congrArg _⟩

theorem hasType_const_iff {c : Constant} {ty : Ty} :
    f.HasType symbols (.const c) ty ↔ c.ty = ty :=
  ⟨Except.ok.inj, congrArg _⟩

theorem HasType.unique {v : Value} {ty ty' : Ty} (h : f.HasType symbols v ty)
    (h' : f.HasType symbols v ty') : ty = ty' :=
  Except.ok.inj (h.symm.trans h')

end Func

open Func

/-! ## Values that the checks bound -/

namespace Auditor

/-- A valuation of a typed function: it solves the equations, and integers are in range. -/
structure Runs (a : Auditor) (ρ : Valuation) : Prop where
  solves : ρ.Solves a.func a.cx.symbols
  small : ∀ v bits, a.func.HasType a.cx.symbols v (.int bits) → ρ.value v < 2 ^ bits
  agrees : ∀ id inst, a.func.inst? id = some inst → a.func.agrees a.cx.symbols inst = true
  base : a.func.HasType a.cx.symbols (.global a.cx.region.memoryBase) (.ptr (.int 64))

variable {a : Auditor} {ρ : Valuation} {v address : Value} {id base : InstId} {inst : Inst}

theorem Runs.value_eq (ha : a.Runs ρ) (hi : a.func.inst? id = some inst) {value : Nat}
    (he : ρ.eval? a.func a.cx.symbols inst = some value) : ρ.value (.inst id) = value :=
  ha.solves id inst value (Nat.zero_le id) hi he

/-- What is masked is small, in every integer type. -/
theorem Runs.masked_lt (ha : a.Runs ρ) (h : a.isMasked v = true) :
    a.cx.region.width.mask? = none ∨ ρ.value v < a.cx.region.width.size := by
  rcases isMasked_iff.mp h with hnone | ⟨lhs, rhs, hp, hmask⟩
  · exact Or.inl hnone
  · refine Or.inr ?_
    obtain ⟨id, inst, rfl, hi, hkind⟩ := producer?_eq_some_iff.mp hp
    obtain ⟨mask, c, hwidth, rfl, hc⟩ := isMask_iff.mp hmask
    cases c with
    | null ty => cases hc
    | undef ty => cases hc
    | int bits stored =>
      have hty : Ty.int bits = inst.ty :=
        hasType_const_iff.mp (agrees_binary (ha.agrees id inst hi) hkind).2
      -- the mask reads the same in every integer type, since it has at most 31 bits
      have hword : Constant.word bits stored = mask := by
        refine Constant.word_eq_of_unsigned? ?_ hc
        have := a.cx.region.width.size_le
        obtain ⟨-, rfl⟩ := Width.mask?_eq_some_iff.mp hwidth
        omega
      have hvalue : ρ.value (.inst id) = ρ.value lhs % a.cx.region.width.size := by
        refine ha.value_eq hi ?_
        rw [Valuation.eval?, hkind, ← hty]
        show some (ρ.value lhs &&& Constant.word bits stored) = _
        rw [hword, Width.and_mask hwidth]
      rw [hvalue]
      exact Nat.mod_lt _ a.cx.region.width.size_pos

/-- An offset lies inside the subspace. -/
theorem Runs.offset_lt (ha : a.Runs ρ) (h : a.checkOffset v = .ok ()) :
    ρ.value v < a.cx.region.width.size := by
  obtain ⟨narrow, hp, hty, hmasked⟩ := checkOffset_eq_ok_iff.mp h
  obtain ⟨id, inst, rfl, hi, hkind⟩ := producer?_eq_some_iff.mp hp
  have hvalue : ρ.value (.inst id) = ρ.value narrow := by
    refine ha.value_eq hi ?_
    rw [Valuation.eval?, hkind]
    rfl
  rw [hvalue]
  rcases ha.masked_lt hmasked with hnone | hlt
  · -- without a mask the 32 bits of the type are the bound
    rw [Width.size_of_mask?_eq_none hnone]
    exact ha.small narrow 32 hty
  · exact hlt

/-- The load of the base gives a number of 64 bits. -/
theorem Runs.hasType_base (ha : a.Runs ρ) (h : a.base? = some base) :
    a.func.HasType a.cx.symbols (.inst base) (.int 64) := by
  obtain ⟨inst, hi, hkind⟩ := inst?_of_base? h
  have hty := agrees_load (ha.agrees base inst hi) hkind
  rw [hasType_inst_iff hi]
  exact Ty.ptr.inj (hty.unique ha.base)

/-- A sum is the base plus an offset inside the subspace, in 64 bits. -/
theorem Runs.sum_eq (ha : a.Runs ρ) (h : a.checkSum v = .ok ()) :
    a.func.HasType a.cx.symbols v (.int 64) ∧
      ∃ base offset, a.base? = some base ∧ offset < a.cx.region.width.size ∧
        ρ.value v = (ρ.result base + offset) % 2 ^ 64 := by
  obtain ⟨lhs, rhs, hp, hlhs, hoffset⟩ := checkSum_eq_ok_iff.mp h
  obtain ⟨id, inst, rfl, hi, hkind⟩ := producer?_eq_some_iff.mp hp
  obtain ⟨base, hbase, rfl⟩ := isBase_iff.mp hlhs
  have hty : inst.ty = .int 64 :=
    (agrees_binary (ha.agrees id inst hi) hkind).1.unique (ha.hasType_base hbase)
  refine ⟨(hasType_inst_iff hi).mpr hty, base, ρ.value rhs, hbase, ha.offset_lt hoffset, ?_⟩
  refine ha.value_eq hi ?_
  rw [Valuation.eval?, hkind, hty]
  rfl

/-- An offset from the base that an access of a value may have. -/
def Reaches (a : Auditor) (address : Value) (firstClass : Bool) (offset : Nat) : Prop :=
  offset < a.cx.region.width.size ∨ firstClass = true ∧ ∃ pointee,
    a.func.HasType a.cx.symbols address (.ptr pointee) ∧
    offset + a.cx.layout.storeSize pointee ≤ 2 * a.cx.region.width.size

/-- A checked address is the base plus an offset that the access may have. -/
theorem Runs.pointer_eq (ha : a.Runs ρ) {firstClass : Bool}
    (h : a.checkPointer address firstClass = .ok ()) :
    ∃ base offset, a.base? = some base ∧ ρ.value address = (ρ.result base + offset) % 2 ^ 64 ∧
      a.Reaches address firstClass offset := by
  obtain ⟨integer, hp, hcase⟩ := checkPointer_eq_ok_iff.mp h
  have hvalue : ρ.value address = ρ.value integer := by
    obtain ⟨id, inst, rfl, hi, hkind⟩ := producer?_eq_some_iff.mp hp
    refine ha.value_eq hi ?_
    rw [Valuation.eval?, hkind]
    rfl
  rw [hvalue]
  rcases hcase with hsum | ⟨sum, constant, hadd, -, hfolded⟩
  · obtain ⟨-, base, offset, hbase, hlt, he⟩ := ha.sum_eq hsum
    exact ⟨base, offset, hbase, he, Or.inl hlt⟩
  · obtain ⟨c, shift, pointee, rfl, hshift, hfirst, hpointee, hguard, hsum⟩ :=
      checkFolded_eq_ok_iff.mp hfolded
    obtain ⟨hty, base, offset, hbase, hlt, he⟩ := ha.sum_eq hsum
    obtain ⟨id, inst, rfl, hi, hkind⟩ := producer?_eq_some_iff.mp hadd
    obtain ⟨hlhs, hrhs⟩ := agrees_binary (ha.agrees id inst hi) hkind
    have hinst : inst.ty = .int 64 := hlhs.unique hty
    obtain ⟨hpos, hsize, hle⟩ := hguard
    have hwidth := a.cx.region.width.size_le
    -- the constant has the type of the sum and is small, so it is worth what it reads as
    have hword : ρ.value (.const c) = shift.toNat := by
      cases c with
      | null ty => cases hshift
      | undef ty => cases hshift
      | int bits stored =>
        cases hshift
        obtain rfl : bits = 64 := by
          rw [hinst] at hrhs
          exact Ty.int.inj (hasType_const_iff.mp hrhs)
        show Constant.word 64 shift = shift.toNat
        rw [Constant.word_eq_of_le (Nat.le_refl 64), Int.emod_eq_of_lt hpos]
        omega
    refine ⟨base, offset + shift.toNat, hbase, ha.value_eq hi ?_,
      Or.inr ⟨hfirst, pointee, hpointee, by omega⟩⟩
    rw [Valuation.eval?, hkind, hinst]
    show some ((ρ.value sum + ρ.value (.const c)) % 2 ^ 64) = _
    rw [he, hword, Nat.mod_add_mod, Nat.add_assoc]

end Auditor

/-! ## Soundness -/

/-- The first instruction of a function, which loads the base. -/
def Func.EntryLoad (f : Func) (region : Region) (id : InstId) : Prop :=
  (f.block? 0).bind (·.insts.head?) = some id ∧
    ∃ inst, f.inst? id = some inst ∧ inst.kind = .load (.global region.memoryBase)

/-- Under a valuation, the addresses and the length of an access stay in the region. -/
structure Valuation.Keeps (ρ : Valuation) (f : Func) (m : Module) (region : Region) (inst : Inst)
    (access : Access) : Prop where
  pointers : ∀ slot ∈ access.pointers, ∃ base address offset, f.EntryLoad region base ∧
    inst.kind.operand? slot.index = some address ∧
    ρ.value address = (ρ.result base + offset) % 2 ^ 64 ∧
    (offset < region.width.size ∨ slot.firstClass = true ∧ ∃ pointee,
      f.HasType m.symbols address (.ptr pointee) ∧
      offset + m.layout.storeSize pointee ≤ 2 * region.width.size)
  length : region.width.bits < 32 → ∀ slot, access.length = some slot →
    ∃ v, inst.kind.operand? slot = some v ∧ ρ.value v ≤ region.width.size - 1

/-- The loads of the base that the audit found are at the entry. -/
theorem Auditor.entryLoad_of_mem {a : Auditor} {region : Region} {id : InstId}
    (hregion : a.cx.region = region) (h : a.baseFindings = []) (hid : id ∈ a.baseLoads) :
    a.func.EntryLoad region id := by
  obtain ⟨inst, hi, hkind⟩ := loadsBase_iff_inst.mp (List.mem_filter.mp hid).2
  rw [hregion] at hkind
  rcases baseFindings_eq_nil h with hnone | ⟨first, honly, hentry⟩
  · rw [hnone] at hid
    cases hid
  · rw [honly, List.mem_singleton] at hid
    exact ⟨hid ▸ hentry, inst, hi, hkind⟩

/-- A typed module without violations keeps every access in the region, but for the load of the base
at the entry of a function. -/
theorem Module.violations_sound {m : Module} {region : Region} {g : Global} (hm : m.Built)
    (htyped : m.Typed) (hbase : m.global? region.memoryBase = some g) (hty : g.ty = .int 64)
    (h : m.violations region = []) :
    ∀ f ∈ m.functions, ∀ ρ : Valuation, ρ.Fits f → ρ.Solves f m.symbols →
      ∀ id inst access, f.inst? id = some inst → inst.kind.access? = some access →
        f.EntryLoad region id ∨ ρ.Keeps f m region inst access := by
  intro f hf ρ hfits hsolves id inst access hi haccess
  have hplaced := (hm f hf).placed
  have hlisted := hplaced.mem_order.mpr ⟨inst, hi⟩
  let a : Auditor := { func := f, cx := m.context region }
  have hfindings : a.findings = [] := by
    -- a function with a listed instruction has a body, so it was audited
    have hbody : f.isDeclaration = false := by
      cases hd : f.isDeclaration with
      | false => rfl
      | true =>
        have hnil : f.order = [] := by
          rw [order]
          rw [isDeclaration_iff.mp hd]
          rfl
        rw [hnil] at hlisted
        cases hlisted
    have hmem : f ∈ m.functions.filter fun f => ¬ f.isDeclaration :=
      List.mem_filter.mpr ⟨hf, by rw [hbody]; rfl⟩
    exact List.map_eq_nil_iff.mp (List.flatMap_eq_nil_iff.mp h f hmem)
  obtain ⟨hbases, hinsts⟩ := List.append_eq_nil_iff.mp hfindings
  rcases Auditor.instFindings_eq_nil_iff.mp (List.flatMap_eq_nil_iff.mp hinsts id hlisted) with
    hload | hall
  · exact Or.inl (Auditor.entryLoad_of_mem rfl hbases (List.mem_filter.mpr ⟨hlisted, hload⟩))
  · -- what is left is to read the checks with the values of `ρ`
    have hruns : a.Runs ρ := by
      refine ⟨hsolves, fun v bits hv => Valuation.value_lt hfits hv, htyped f hf, ?_⟩
      show m.symbols.globalType region.memoryBase = .ok (.ptr (.int 64))
      have hsymbol : m.symbols.globals[region.memoryBase]? =
          some { name := g.name, ty := .ptr g.ty } := by
        show (m.globals.map fun g => _)[region.memoryBase]? = _
        rw [List.getElem?_map, show m.globals[region.memoryBase]? = some g from hbase]
        rfl
      rw [SymbolTable.globalType]
      rw [hsymbol, hty]
    obtain ⟨hpointers, hlengths⟩ :=
      Auditor.accessFindings_eq_nil_iff.mp (hall inst access hi haccess)
    refine Or.inr ⟨fun slot hslot => ?_, fun hbits slot hslot => ?_⟩
    · obtain ⟨address, haddress, hcheck⟩ := hpointers slot hslot
      obtain ⟨base, offset, hb, hvalue, hreach⟩ := hruns.pointer_eq hcheck
      exact ⟨base, address, offset,
        Auditor.entryLoad_of_mem rfl hbases (List.mem_of_head? hb), haddress, hvalue, hreach⟩
    · obtain ⟨v, hv, hmasked⟩ := hlengths slot hslot
      refine ⟨v, hv, ?_⟩
      rcases hruns.masked_lt hmasked with hnone | hlt
      · have hfull : region.width.bits = 32 := Width.mask?_eq_none_iff.mp hnone
        omega
      · have hlt : ρ.value v < region.width.size := hlt
        omega

/-! ## A function without findings -/

/-- A function that loads through its first parameter, and fills memory from there on for as many
bytes as its second parameter says, with all that the audit asks for at 16 bits. -/
def guarded : Func :=
  [.addBlock "entry",
    .append 0 (.load (.global 0)) (.int 64),
    .append 0 (.cast .ptrtoint (.arg 0)) (.int 32),
    .append 0 (.binary .and (.inst 1) (.int 32 65535)) (.int 32),
    .append 0 (.cast .zext (.inst 2)) (.int 64),
    .append 0 (.binary .add (.inst 0) (.inst 3)) (.int 64),
    .append 0 (.cast .inttoptr (.inst 4)) (.ptr (.int 8)),
    .append 0 (.load (.inst 5)) (.int 8),
    .append 0 (.binary .and (.arg 1) (.int 32 65535)) (.int 32),
    .append 0 (.intrinsic .memset [.inst 5, .int 8 0, .inst 7]) .void,
    .append 0 (.ret none) .void].foldl Operation.apply
    (.declare "guarded" [.ptr (.int 8), .int 32] .void)

/-- A module of this function and of the base of the region. -/
def guardedModule : Module where
  name := "guarded"
  layout := {}
  functions := [guarded]
  globals := [{ name := baseSymbol, ty := .int 64, linkage := .external, isConstant := false,
                init := none }]
  flags := []

/-- Its region. -/
def guardedRegion : Region where
  width := ⟨16, by decide, by decide⟩
  memoryBase := 0
  pointerSize := 0

/-- A run of the function, with an address and a length that reach beyond 16 bits. -/
def guardedValuation : Valuation :=
  Valuation.after
    { arg := fun index => if index = 0 then 0xFFFF12345678 else 70000
      global := fun _ => 0
      func := fun _ => 0
      undef := fun _ => 0
      result := fun id => if id = 0 then 0x500000000000 else 0 }
    guarded guardedModule.symbols 0

theorem guardedModule_built : guardedModule.Built :=
  Module.built_of_functions_eq rfl ((Func.Built.declare _ _ _).history _)

theorem guardedModule_typed : guardedModule.Typed := by
  intro f hf
  rw [List.mem_singleton.mp hf]
  exact forall_inst?_of_all (p := fun _ => guarded.agrees guardedModule.symbols)
    (by decide +kernel)

theorem guarded_readsOlder : guarded.ReadsOlder 0 := by
  intro id inst _ hi other hmem
  have hall := forall_inst?_of_all (f := guarded)
    (p := fun id inst => inst.kind.operands.all fun v => v.inst?.all (· < id))
    (by decide +kernel) id inst hi
  exact of_decide_eq_true (List.all_eq_true.mp hall _ hmem)

theorem guardedValuation_solves : guardedValuation.Solves guarded guardedModule.symbols :=
  Valuation.after_solvesFrom guarded_readsOlder

theorem guardedValuation_fits : guardedValuation.Fits guarded where
  arg := by
    intro index bits hp
    match index, hp with
    | 1, hp =>
      obtain rfl : 32 = bits := by
        have h : some (Ty.int 32) = some (.int bits) := hp
        exact Ty.int.inj (Option.some.inj h)
      decide +kernel
  undef := fun bits => Nat.two_pow_pos bits
  result := by
    intro id inst bits hi hty
    have hall := forall_inst?_of_all (f := guarded)
      (p := fun id inst => inst.ty.intBits?.all (guardedValuation.result id < 2 ^ ·))
      (by decide +kernel) id inst hi
    rw [hty] at hall
    exact of_decide_eq_true hall

theorem guardedModule_keeps :
    guardedModule.violations guardedRegion = [] ∧
      guardedValuation.Fits guarded ∧ guardedValuation.Solves guarded guardedModule.symbols ∧
      ∀ id inst access, guarded.inst? id = some inst → inst.kind.access? = some access →
        guarded.EntryLoad guardedRegion id ∨
          guardedValuation.Keeps guarded guardedModule guardedRegion inst access := by
  have hclean : guardedModule.violations guardedRegion = [] := by decide +kernel
  exact ⟨hclean, guardedValuation_fits, guardedValuation_solves,
    Module.violations_sound guardedModule_built guardedModule_typed rfl rfl hclean guarded
      List.mem_cons_self guardedValuation guardedValuation_fits guardedValuation_solves⟩

end Confinement
