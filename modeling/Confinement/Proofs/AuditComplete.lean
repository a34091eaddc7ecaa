import Confinement.Proofs.Outcome

/-!
# The audit accepts what the pass leaves

The audit reads shapes, and the pass writes them: each landing of an address is one that the audit
recognises (`Completes.checkPointer_eq_ok`), each masked length is masked for the audit as well as
long as the type of the length holds the mask, and the one load of the base stands at the head of the
entry block (`Completes.baseFindings_eq_nil`). A module with exact counters, narrow additions and
lengths that are wide enough is therefore sandboxed without an objection, whether the run audits
itself or not (`Pass.run_audited`).
-/

set_option autoImplicit false

namespace Confinement

open Func

/-! ## What the audit sees of a body -/

/-- The audit of a function against a region and its symbols. -/
def Func.auditor (g : Func) (cx : Context) (table : SymbolTable) : Auditor where
  func := g
  cx := { cx with symbols := table }

namespace Func

variable {f g : Func} {cx : Context} {table : SymbolTable} {m : Module} {n : Nat} {b id : InstId}
  {kind : InstKind} {ty : Ty} {width : Width} {low v : Value} {base : Option InstId}

theorem Inserted.producer? (hi : g.Inserted n id kind ty) : g.producer? (.inst id) = some kind := by
  obtain ⟨-, inst, hi, hkind, -⟩ := hi
  exact Auditor.producer?_eq_some_iff.mpr ⟨id, inst, rfl, hi, hkind⟩

theorem Inserted.hasType (hi : g.Inserted n id kind ty) (table : SymbolTable) :
    g.HasType table (.inst id) ty := by
  obtain ⟨-, inst, hi, -, hty⟩ := hi
  exact (hasType_inst_iff hi).mpr hty

/-- What an inserted instruction reads is read. -/
theorem Inserted.reads_pos (hi : g.Inserted n id kind ty) {other : InstId}
    (hmem : .inst other ∈ kind.operands) : 0 < g.reads other := by
  obtain ⟨-, inst, hi, hkind, -⟩ := hi
  exact reads_pos_iff.mpr ⟨id, inst, hi, hkind ▸ hmem⟩

/-- Whether a value is an integer does not depend on the symbols, which are addresses. -/
theorem HasType.of_int {bits : Nat} (h : g.HasType m.symbols v (.int bits))
    (table : SymbolTable) : g.HasType table v (.int bits) := by
  cases v with
  | inst id => exact h
  | arg index => exact h
  | const c => exact h
  | global id =>
    simp only [HasType, valueType, SymbolTable.globalType, Module.symbols, List.getElem?_map] at h
    cases hg : m.globals[id]? with
    | none =>
      rw [hg] at h
      cases h
    | some g =>
      rw [hg] at h
      cases h
  | func id =>
    simp only [HasType, valueType, SymbolTable.functionType, Module.symbols, List.getElem?_map] at h
    cases hf : m.functions[id]? with
    | none =>
      rw [hf] at h
      cases h
    | some f =>
      rw [hf] at h
      cases h

/-- What is added to the base is read. -/
theorem Sums.reads_pos {sum : InstId} (hs : g.Sums n width b low sum) {other : InstId}
    (hlow : low = .inst other) : 0 < g.reads other := by
  cases hs with
  | whole _ hwide _ => exact hwide.reads_pos (hlow ▸ List.mem_cons_self)
  | masked _ hkept _ _ => exact hkept.reads_pos (hlow ▸ List.mem_cons_self)

theorem Sums.inserted {sum : InstId} (hs : g.Sums n width b low sum) :
    ∃ wide, g.Inserted n sum (.binary .add (.inst b) (.inst wide)) (.int 64) := by
  cases hs with
  | whole _ _ hsum => exact ⟨_, hsum⟩
  | masked _ _ _ hsum => exact ⟨_, hsum⟩

end Func

namespace Auditor

variable {a : Auditor} {n : Nat} {b sum : InstId} {low : Value} {bits mask : Nat}

/-- The base is loaded and not computed. -/
theorem isBase_eq_false_of_binary {v lhs rhs : Value} {op : BinOp}
    (hv : a.func.producer? v = some (.binary op lhs rhs)) : a.isBase v = false := by
  rw [← Bool.not_eq_true, isBase_iff]
  rintro ⟨base, hbase, rfl⟩
  obtain ⟨inst, hi, hload⟩ := inst?_of_base? hbase
  obtain ⟨id, found, hid, hfound, hkind⟩ := producer?_eq_some_iff.mp hv
  cases hid
  cases hi.symm.trans hfound
  rw [hload] at hkind
  cases hkind

/-- Without a load of the base there is nothing to say about it. -/
theorem baseFindings_eq_nil_of_unloaded (hloads : a.baseLoads = []) : a.baseFindings = [] := by
  rw [baseFindings, hloads]
  rfl

/-- The only load of the base is found. -/
theorem baseLoads_eq_singleton (hplaced : a.func.Placed)
    (honly : ∀ id, a.loadsBase id = true ↔ id = b) : a.baseLoads = [b] := by
  obtain ⟨inst, hi, -⟩ := loadsBase_iff_inst.mp ((honly b).mpr rfl)
  have hfilter : a.baseLoads = a.func.order.filter (· == b) := by
    refine List.filter_congr fun id _ => ?_
    rw [Bool.eq_iff_iff, honly, beq_iff_eq]
  -- the load is listed, and nothing is listed twice
  rw [hfilter, List.filter_beq, List.count_eq_one_of_mem hplaced.nodup_order
    (hplaced.mem_order.mpr ⟨inst, hi⟩)]
  rfl

/-- It is not objected to where the entry block starts with it. -/
theorem baseFindings_eq_nil_of_heads (hloads : a.baseLoads = [b]) (hhead : a.func.Heads b) :
    a.baseFindings = [] := by
  rw [Func.Heads] at hhead
  rw [baseFindings, hloads]
  show (if (a.func.block? 0).bind (·.insts.head?) = some b then [] else _) = []
  rw [if_pos hhead]

/-- A type with at least the bits of the width holds the mask. -/
theorem isMask_int (hmask : a.cx.region.width.mask? = some mask)
    (hbits : a.cx.region.width.bits ≤ bits) : a.isMask (.int bits mask) = true := by
  obtain ⟨-, hvalue⟩ := Width.mask?_eq_some_iff.mp hmask
  have hpos := a.cx.region.width.size_pos
  have hle := a.cx.region.width.size_le
  have hpow : a.cx.region.width.size ≤ 2 ^ bits := Nat.pow_le_pow_right (by omega) hbits
  exact isMask_iff.mpr ⟨mask, _, hmask, rfl, Constant.unsigned?_ofInt_natCast (by omega) (by omega)⟩

/-- An emitted sum passes for one, when what is added has 32 bits. -/
theorem checkSum_of_sums (hbase : a.base? = some b)
    (hs : a.func.Sums n a.cx.region.width b low sum)
    (hlow : a.func.HasType a.cx.symbols low (.int 32)) : a.checkSum (.inst sum) = .ok () := by
  have hisBase : a.isBase (.inst b) = true := isBase_iff.mpr ⟨b, hbase, rfl⟩
  cases hs with
  | whole hmask hwide hsum =>
    exact checkSum_eq_ok_iff.mpr ⟨_, _, hsum.producer?, hisBase,
      checkOffset_eq_ok_iff.mpr ⟨low, hwide.producer?, hlow, isMasked_iff.mpr (Or.inl hmask)⟩⟩
  | masked hmask hkept hwide hsum =>
    have hmasked : a.isMasked _ = true := isMasked_iff.mpr
      (Or.inr ⟨low, _, hkept.producer?, isMask_int hmask a.cx.region.width.le⟩)
    exact checkSum_eq_ok_iff.mpr ⟨_, _, hsum.producer?, hisBase,
      checkOffset_eq_ok_iff.mpr ⟨_, hwide.producer?, hkept.hasType _, hmasked⟩⟩

end Auditor

/-! ## A complete body -/

namespace Func.Completes

variable {f g : Func} {cx : Context} {symbols table : SymbolTable} {base : Option InstId}
  {id : InstId}

/-- The load of the base is the one instruction that passes for one. -/
theorem loadsBase_iff (hc : f.Completes g cx symbols base) :
    (g.auditor cx table).loadsBase id = true ↔ base = some id := by
  constructor
  · intro hload
    obtain ⟨inst, hi, hkind⟩ := Auditor.loadsBase_iff_inst.mp hload
    have hi : g.inst? id = some inst := hi
    have ha : inst.kind.access? = some (.value 0) := by rw [hkind]; rfl
    rcases hc.sandboxed.access id inst _ hi ha with hb | ht
    · exact hb
    · -- a treated load reads an instruction, not a symbol
      obtain ⟨b, address, pointer, -, -, hread, -⟩ :=
        ht.pointers { index := 0, firstClass := true } List.mem_cons_self
      rw [operand?_eq hi, hkind] at hread
      cases hread
  · intro hb
    obtain ⟨-, inst, hi, hkind, -⟩ := hc.sandboxed.load id hb
    exact Auditor.loadsBase_iff_inst.mpr ⟨inst, hi, hkind⟩

theorem baseLoads_eq (hc : f.Completes g cx symbols base) (hg : g.Placed) :
    (g.auditor cx table).baseLoads = base.toList := by
  cases base with
  | none =>
    refine List.filter_eq_nil_iff.mpr fun id _ hload => ?_
    cases hc.loadsBase_iff.mp hload
  | some b =>
    refine Auditor.baseLoads_eq_singleton hg fun id => ?_
    rw [hc.loadsBase_iff, Option.some.injEq, eq_comm]

theorem base?_eq (hc : f.Completes g cx symbols base) (hg : g.Placed) :
    (g.auditor cx table).base? = base := by
  rw [Auditor.base?, hc.baseLoads_eq hg]
  cases base <;> rfl

theorem baseFindings_eq_nil (hc : f.Completes g cx symbols base)
    (hg : g.Placed) : (g.auditor cx table).baseFindings = [] := by
  cases base with
  | none => exact Auditor.baseFindings_eq_nil_of_unloaded (hc.baseLoads_eq hg)
  | some b => exact Auditor.baseFindings_eq_nil_of_heads (hc.baseLoads_eq hg) (hc.head b rfl)

/-- A confined address passes for one. -/
theorem checkPointer_eq_ok {m m₁ : Module} {region : Region}
    (hc : f.Completes g (m₁.context region) m.symbols base) (hg : g.Placed)
    (hadds : ∀ id inst, f.inst? id = some inst → f.narrowAdd m.symbols inst = true)
    {slot : PointerSlot} {b pointer : InstId} {address : Value} (hbase : base = some b)
    (hconfines : f.Confines g (m₁.context region) b slot address pointer) :
    (g.auditor (m₁.context region) table).checkPointer (.inst pointer) slot.firstClass =
      .ok () := by
  obtain ⟨pointee, landing, hlands, htakes⟩ := hconfines
  have hfirst : (g.auditor (m₁.context region) table).base? = some b :=
    (hc.base?_eq hg).trans hbase
  cases hlands with
  | plain hlow hsum hpointer =>
    exact Auditor.checkPointer_eq_ok_iff.mpr ⟨_, hpointer.producer?,
      Or.inl (Auditor.checkSum_of_sums hfirst hsum (hlow.hasType _))⟩
  | @folded fold sum total _ hsum htotal hpointer =>
    obtain ⟨hsingle, hfold⟩ := htakes
    obtain ⟨-, -, addInst, c, offset, -, -, hadd, haddTy, haddKind, -⟩ :=
      Func.fold?_eq_some_iff.mp hfold
    -- the index has 32 bits in the body, and it is read still
    obtain ⟨hindex, -⟩ := narrowAdd_binary (hadds fold.add addInst hadd) haddKind haddTy
    have hindex' : g.HasType table fold.index (.int 32) :=
      (hc.types fold.index (.int 32) hindex fun _ he => hsum.reads_pos he).of_int table
    -- the confined sum is no load of the base
    obtain ⟨wide, hadd⟩ := hsum.inserted
    have hnot : (g.auditor (m₁.context region) table).isBase (.inst sum) = false :=
      Auditor.isBase_eq_false_of_binary hadd.producer?
    exact Auditor.checkPointer_eq_ok_iff.mpr ⟨_, hpointer.producer?, Or.inr ⟨_, _,
      htotal.producer?, hnot, Auditor.checkFolded_eq_ok_iff.mpr ⟨_, fold.offset, pointee, rfl,
        Constant.signed?_ofInt_natCast (offset_lt_of_fold? hfold), hsingle, hpointer.hasType _,
        staysInGuard_of_fold? hfold, Auditor.checkSum_of_sums hfirst hsum hindex'⟩⟩⟩

end Func.Completes

/-! ## Lengths -/

/-- The bits of the length of a bulk operation. -/
def Func.lengthBits? (f : Func) (symbols : SymbolTable) (inst : Inst) : Option Nat := do
  let access ← inst.kind.access?
  let slot ← access.length
  let v ← inst.kind.operand? slot
  let ty ← (f.valueType symbols v).toOption
  ty.intBits?

/-- No length of a bulk operation has fewer bits than the width. -/
def Module.WideLengths (m : Module) (width : Width) : Prop :=
  ∀ f ∈ m.functions, ∀ id inst bits, f.inst? id = some inst →
    f.lengthBits? m.symbols inst = some bits → width.bits ≤ bits

theorem Func.lengthBits?_eq {f : Func} {symbols : SymbolTable} {inst : Inst} {access : Access}
    {slot bits : Nat} {v : Value} (ha : inst.kind.access? = some access)
    (hs : access.length = some slot) (hv : inst.kind.operand? slot = some v)
    (hty : f.HasType symbols v (.int bits)) : f.lengthBits? symbols inst = some bits := by
  rw [HasType] at hty
  simp only [lengthBits?, ha, hs, hv, hty, Except.toOption, Option.bind_eq_bind, Option.bind_some]
  rfl

namespace Func.Completes

variable {f g : Func} {m m₁ : Module} {region : Region} {base : Option InstId} {table : SymbolTable}

/-- A length that is read passes for a masked one. -/
theorem length_isMasked
    (hlengths : ∀ id inst bits, f.inst? id = some inst →
      f.lengthBits? m.symbols inst = some bits → region.width.bits ≤ bits)
    {id : InstId} {access : Access} {slot : Nat} {v : Value}
    (ht : f.Treated g (m₁.context region) base { id, access })
    (hmasks : f.Masks g m.symbols region.width id access.length)
    (hs : access.length = some slot) (hv : g.operand? id slot = some v) :
    (g.auditor (m₁.context region) table).isMasked v = true := by
  cases hmask : region.width.mask? with
  | none => exact Auditor.isMasked_iff.mpr (Or.inl hmask)
  | some mask =>
    obtain ⟨old, bits, kept, hty, hold, hread, hkept⟩ := hmasks slot mask hs hmask
    cases hv.symm.trans hread
    obtain ⟨inst, -, hi, -, ha, -⟩ := ht.live
    rw [operand?_eq hi] at hold
    have hbits := hlengths id inst bits hi (lengthBits?_eq ha hs hold hty)
    exact Auditor.isMasked_iff.mpr
      (Or.inr ⟨old, _, hkept.producer?, Auditor.isMask_int hmask hbits⟩)

/-- The audit has no objection to a complete body. -/
theorem findings_eq_nil (hc : f.Completes g (m₁.context region) m.symbols base) (hg : g.Placed)
    (hadds : ∀ id inst, f.inst? id = some inst → f.narrowAdd m.symbols inst = true)
    (hlengths : ∀ id inst bits, f.inst? id = some inst →
      f.lengthBits? m.symbols inst = some bits → region.width.bits ≤ bits) :
    (g.auditor (m₁.context region) table).findings = [] := by
  refine List.append_eq_nil_iff.mpr ⟨hc.baseFindings_eq_nil hg, ?_⟩
  refine List.flatMap_eq_nil_iff.mpr fun id _ => Auditor.instFindings_eq_nil_iff.mpr ?_
  by_cases hbase : base = some id
  · exact Or.inl (hc.loadsBase_iff.mpr hbase)
  · refine Or.inr fun inst access hi ha => Auditor.accessFindings_eq_nil_iff.mpr ⟨?_, ?_⟩
    · intro slot hslot
      have ht := (hc.sandboxed.access id inst access hi ha).resolve_left hbase
      obtain ⟨b, address, pointer, hb, -, hread, hconfines⟩ := ht.pointers slot hslot
      exact ⟨_, (operand?_eq hi _).symm.trans hread, hc.checkPointer_eq_ok hg hadds hb hconfines⟩
    · intro slot hslot
      have ht := (hc.sandboxed.access id inst access hi ha).resolve_left hbase
      have hmasks := (hc.masks id inst access hi ha).resolve_left hbase
      obtain ⟨old, new, -, hread, -⟩ := ht.length slot hslot
      exact ⟨new, (operand?_eq hi _).symm.trans hread,
        length_isMasked hlengths ht hmasks hslot hread⟩

end Func.Completes

/-! ## Runs -/

/-- A run on a module with exact counters, narrow additions and lengths that are wide enough is
served, and the audit of what it leaves has no objection. -/
theorem Pass.run_audited {pass : Pass} {m : Module} (hm : m.Built) (hexact : ∀ f ∈ m.functions, f.Exact)
    (hadds : m.NarrowAdds) (hlengths : m.WideLengths pass.width)
    (hflag : m.hasFlag sandboxedFlag = false)
    (hplans : ∀ f ∈ m.functions, ∃ plan, f.plan m.symbols = .ok plan)
    (hinstall : ∃ region m₁, (Region.install pass.width).run m = .ok region m₁) :
    ∃ report m' region, pass.run.run m = .ok report m' ∧ region.width = pass.width ∧
      m'.globalNamed? baseSymbol = some region.memoryBase ∧
      m'.globalNamed? widthSymbol = some region.pointerSize ∧ m'.violations region = [] := by
  have hplaced : ∀ f ∈ m.functions, f.Placed := fun f hf => (hm f hf).placed
  have hadmits : m.AdmitsRegion := by
    rcases Region.install_outcome m pass.width with ⟨hadmits, -⟩ | ⟨-, conflict, hrefused⟩
    · exact hadmits
    · obtain ⟨region, m₁, hregion⟩ := hinstall
      cases hregion.symm.trans hrefused
  obtain ⟨plans, region, m₁, bodies, functions, hplan, hregion, hsettle, hall⟩ :=
    Pass.steps_of_sandboxable pass hplaced (fun f hf => (hexact f hf).trusted _ _ _)
      ⟨hflag, hplans, hadmits⟩
  obtain ⟨hwidth, -, -, hnamed, -⟩ := Region.install_eq_ok hregion
  -- every function that is left comes from one of the module
  have hclean : (({ m₁ with functions } : Module).setFlag sandboxedFlag).violations region = [] := by
    refine List.flatMap_eq_nil_iff.mpr fun g hg => List.map_eq_nil_iff.mpr ?_
    obtain ⟨hg, hbody⟩ := List.mem_filter.mp hg
    obtain ⟨f, hf, hfinish⟩ := exists_mem_of_forall₂ hall g hg
    rcases hfinish with ⟨hdecl, rfl⟩ | ⟨base, hc⟩
    · exact absurd hdecl (of_decide_eq_true hbody)
    · exact hc.findings_eq_nil (hc.upholds.placed (hplaced f hf)) (hadds f hf)
        (hwidth ▸ hlengths f hf)
  have hrun := Pass.run_of_steps hflag hplan hregion hsettle fun _ => by
    rw [Module.audit, hclean]
  have hsize : m₁.globalNamed? widthSymbol = some region.pointerSize := Region.install_named hregion
  exact ⟨_, _, region, hrun, hwidth, hnamed, hsize, hclean⟩

/-- A function that reads and writes through one sum of a parameter and 4, fills memory, and reads the
base of the region itself. -/
def mixed : Func :=
  [.addBlock "entry",
    .append 0 (.binary .add (.arg 0) (.int 32 4)) (.int 32),
    .append 0 (.cast .inttoptr (.inst 0)) (.ptr (.int 32)),
    .append 0 (.load (.inst 1)) (.int 32),
    .append 0 (.store (.inst 2) (.inst 1)) .void,
    .append 0 (.intrinsic .memset [.arg 1, .int 8 0, .arg 2]) .void,
    .append 0 (.load (.global 0)) (.int 64),
    .append 0 (.ret none) .void].foldl Operation.apply
    (.declare "mixed" [.int 32, .ptr (.int 8), .int 32] .void)

/-- A module of this function and of a base that the runtime can fill in. -/
def mixedModule : Module where
  name := "mixed"
  layout := {}
  functions := [mixed]
  globals := [{ name := baseSymbol, ty := .int 64, linkage := .external, isConstant := false,
                init := none }]
  flags := []

theorem mixedModule_built : mixedModule.Built :=
  Module.built_of_functions_eq rfl ((Func.Built.declare _ _ _).history _)

theorem mixedModule_narrowAdds : mixedModule.NarrowAdds := by
  intro f hf
  rw [List.mem_singleton.mp hf]
  exact forall_inst?_of_all (p := fun _ => mixed.narrowAdd mixedModule.symbols)
    (by decide +kernel)

theorem mixedModule_wideLengths : mixedModule.WideLengths Pass.narrow.width := by
  intro f hf id inst bits hi hbits
  rw [List.mem_singleton.mp hf] at hi hbits
  have hall := forall_inst?_of_all (f := mixed)
    (p := fun _ inst => (mixed.lengthBits? mixedModule.symbols inst).all
      (Pass.narrow.width.bits ≤ ·)) (by decide +kernel) id inst hi
  rw [hbits] at hall
  exact of_decide_eq_true hall

theorem mixedModule_audited : ∃ report m' region,
    Pass.narrow.run.run mixedModule = .ok report m' ∧ region.width = Pass.narrow.width ∧
      m'.globalNamed? baseSymbol = some region.memoryBase ∧
      m'.globalNamed? widthSymbol = some region.pointerSize ∧ m'.violations region = [] := by
  have hruns : Pass.narrow.succeeds mixedModule (fun _ _ => true) = true := by decide +kernel
  obtain ⟨report, m', hrun, -⟩ := Pass.run_of_succeeds hruns
  obtain ⟨plans, region, m₁, -, -, hplans, hregion, -⟩ := Pass.run_eq_ok hrun
  exact Pass.run_audited mixedModule_built (by decide +kernel) mixedModule_narrowAdds
    mixedModule_wideLengths rfl (Module.plans_eq_ok_iff.mp ⟨plans, hplans⟩) ⟨region, m₁, hregion⟩

end Confinement
