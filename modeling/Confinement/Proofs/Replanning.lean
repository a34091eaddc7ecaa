import Confinement.Proofs.Logs

/-!
# Planning a confined body again

The output of the pass is a module that the pass could plan. What a slot reads keeps the type that it
had, be it a value of the body or the last member of a row (`Func.Recorded.slot_hasType`); a row carries
no addresses but in the conversion of the old one, which may (`Emission.Stands.passes`). So a confined
body has a plan again: the load of the base, and behind it exactly the accesses of the plan it was
confined by (`Pass.run_replans`).
-/

set_option autoImplicit false

namespace Confinement

open Func

/-! ## Kinds that obey -/

theorem InstKind.operands_of_dataOperands {kind : InstKind} {v : Value}
    (h : v ∈ kind.dataOperands) : v ∈ kind.operands := by
  cases kind with
  | call callee args => exact List.mem_append_left _ h
  | _ => exact h

theorem InstKind.route_setOperands (kind : InstKind) (writes : List (Nat × Value)) :
    (kind.setOperands writes).route = kind.route := by
  induction writes generalizing kind with
  | nil => rfl
  | cons write writes ih => exact (ih _).trans (kind.route_setOperand write.1 write.2)

namespace Func

/-- A number belongs to an instruction that is no access and may stand where it stands. -/
def Passes (g : Func) (table : SymbolTable) (member : InstId) : Prop :=
  ∃ inst, g.inst? member = some inst ∧ inst.kind.access? = none ∧ g.Obeys table inst.kind

section Shapes

variable {f g : Func} {table : SymbolTable} {n : Nat} {width : Width} {b : BlockId}
  {base sum pointer id : InstId} {low length v lhs rhs : Value} {row : List InstId} {ty : Ty}
  {landing : Landing} {inst : Inst} {op : BinOp} {loc : Option Loc}

theorem HasType.holdsData {bits : Nat} (h : g.HasType table v (.int bits)) :
    g.HoldsData table v :=
  ⟨.int bits, h, rfl⟩

theorem holdsData_int (g : Func) (table : SymbolTable) (bits : Nat) (value : Int) :
    g.HoldsData table (.int bits value) :=
  HasType.holdsData (show g.HasType table (.int bits value) (.int bits) from rfl)

theorem Added.hasType (ha : g.Added n id inst) : g.HasType table (.inst id) inst.ty :=
  (hasType_inst_iff ha.2).mpr rfl

/-- A binary operation on data may stand anywhere. -/
theorem Added.passes_binary (ha : g.Added n id ⟨.binary op lhs rhs, ty, b, loc⟩)
    (hl : g.HoldsData table lhs) (hr : g.HoldsData table rhs) : g.Passes table id := by
  refine ⟨_, ha.2, rfl, fun v hv => ?_⟩
  rcases List.mem_cons.mp hv with rfl | hv
  · exact hl
  · exact List.mem_singleton.mp hv ▸ hr

/-- So may a conversion of data. -/
theorem Added.passes_cast {op : CastOp} (ha : g.Added n id ⟨.cast op v, ty, b, loc⟩)
    (hv : g.HoldsData table v) : g.Passes table id := by
  refine ⟨_, ha.2, by cases op <;> rfl, ?_⟩
  have hcarries : g.CarriesNoPointer table (.cast op v) := fun read hread =>
    List.mem_singleton.mp hread ▸ hv
  cases op with
  | ptrtoint => trivial
  | bitcast => trivial
  | _ => exact hcarries

/-- An address may be converted to an integer. -/
theorem Added.passes_ptrtoint (ha : g.Added n id ⟨.cast .ptrtoint v, ty, b, loc⟩) :
    g.Passes table id :=
  ⟨_, ha.2, rfl, trivial⟩

theorem SumRow.hasType (hs : g.SumRow n width b base low row sum) :
    g.HasType table (.inst sum) (.int 64) := by
  cases hs with
  | whole _ _ hsum => exact hsum.hasType
  | masked _ _ _ hsum => exact hsum.hasType

theorem SumRow.passes (hs : g.SumRow n width b base low row sum)
    (hbase : g.HasType table (.inst base) (.int 64)) (hlow : g.HoldsData table low) :
    ∀ member ∈ row, g.Passes table member := by
  intro member hmember
  cases hs with
  | whole hmask hwide hsum =>
    rw [List.mem_cons, List.mem_singleton] at hmember
    rcases hmember with rfl | rfl
    · exact hwide.passes_cast hlow
    · exact hsum.passes_binary hbase.holdsData hwide.hasType.holdsData
  | masked hmask hkept hwide hsum =>
    rw [List.mem_cons, List.mem_cons, List.mem_singleton] at hmember
    rcases hmember with rfl | rfl | rfl
    · exact hkept.passes_binary hlow (holdsData_int _ _ _ _)
    · exact hwide.passes_cast hkept.hasType.holdsData
    · exact hsum.passes_binary hbase.holdsData hwide.hasType.holdsData

theorem LandRow.hasType (hl : f.LandRow g width b base ty landing row pointer) :
    g.HasType table (.inst pointer) ty := by
  cases hl with
  | plain _ _ hpointer => exact hpointer.hasType
  | folded _ _ hpointer => exact hpointer.hasType

theorem LandRow.passes (hl : f.LandRow g width b base ty landing row pointer)
    (hbase : g.HasType table (.inst base) (.int 64))
    (hindex : ∀ fold, landing = .folded fold → g.HoldsData table fold.index) :
    ∀ member ∈ row, g.Passes table member := by
  intro member hmember
  cases hl with
  | plain hlow hsum hpointer =>
    rw [List.cons_append, List.mem_cons, List.mem_append, List.mem_singleton] at hmember
    rcases hmember with rfl | hmember | rfl
    · exact hlow.passes_ptrtoint
    · exact hsum.passes hbase hlow.hasType.holdsData member hmember
    · exact hpointer.passes_cast hsum.hasType.holdsData
  | folded hsum htotal hpointer =>
    rw [List.mem_append, List.mem_cons, List.mem_singleton] at hmember
    rcases hmember with hmember | rfl | rfl
    · exact hsum.passes hbase (hindex _ rfl) member hmember
    · exact htotal.passes_binary hsum.hasType.holdsData (holdsData_int _ _ _ _)
    · exact hpointer.passes_cast htotal.hasType.holdsData

theorem CapRow.passes {symbols : SymbolTable} (hc : f.CapRow g symbols width b length row)
    (hlength : g.HoldsData table length) : ∀ member ∈ row, g.Passes table member := by
  intro member hmember
  cases hc with
  | whole => cases hmember
  | masked hmask hty hkept =>
    rw [List.mem_singleton.mp hmember]
    exact hkept.passes_binary hlength (holdsData_int _ _ _ _)

/-- The row of a folded address reads the index. -/
theorem LandRow.reads_index {fold : Fold} {read : InstId}
    (hl : f.LandRow g width b base ty (.folded fold) row pointer) (hr : fold.index = .inst read) :
    0 < g.reads read := by
  cases hl with
  | folded hsum htotal hpointer =>
    cases hsum with
    | whole hmask hwide hsum =>
      exact reads_pos_iff.mpr ⟨_, _, hwide.2, hr ▸ List.mem_singleton.mpr rfl⟩
    | masked hmask hkept hwide hsum =>
      exact reads_pos_iff.mpr ⟨_, _, hkept.2, hr ▸ List.mem_cons_self⟩

end Shapes

end Func

/-! ## What a confined body may carry -/

namespace Draft.Logged

variable {f : Func} {symbols : SymbolTable} {cx : Context} {log : List Emission} {d : Draft}
  {id : InstId} {inst later : Inst} {v : Value} {ty : Ty} {slot : Nat}

/-- A value of the body that is read has its type. -/
theorem hasType_later (hd : d.Logged f symbols cx log) (hup : f.Upholds none d.func)
    (hwithin : symbols.Within cx.symbols) (hty : f.HasType symbols v ty)
    (hread : ∀ id, v = .inst id → 0 < d.func.reads id) : d.func.HasType cx.symbols v ty :=
  hty.later hwithin hd.advances hup hread

/-- The base is an integer of 64 bits. -/
theorem base_hasType (hd : d.Logged f symbols cx log) {b : InstId} (hb : d.base.loaded = some b) :
    d.func.HasType cx.symbols (.inst b) (.int 64) :=
  (hasType_inst_iff (hd.base b hb)).mpr rfl

/-- What was written into a slot has the type of what the slot held. -/
theorem written_hasType (hd : d.Logged f symbols cx log) (hwithin : symbols.Within cx.symbols)
    (hi : f.inst? id = some inst) (ho : inst.kind.operand? slot = some v)
    (hty : f.HasType symbols v ty) {new : Value} (hwritten : (slot, new) ∈ written log id) :
    d.func.HasType cx.symbols new ty := by
  obtain ⟨emission, hmem, hid, hslot, last, hlast, rfl⟩ := mem_written hwritten
  have hstands := hd.stands emission hmem
  have hty' : f.HasType cx.symbols v ty := hty.within hwithin
  cases emission with
  | address reader found landing row =>
    obtain rfl : reader = id := hid
    obtain rfl : found.index = slot := hslot
    obtain ⟨b, same, address, pointee, pointer, -, hsame, haddress, hpointer, -, hrow⟩ := hstands
    cases hi.symm.trans hsame
    cases ho.symm.trans haddress
    cases Except.ok.inj (hty'.symm.trans hpointer)
    cases hrow.getLast?.symm.trans hlast
    exact hrow.hasType
  | length reader found row =>
    obtain rfl : reader = id := hid
    obtain rfl : found = slot := hslot
    obtain ⟨same, length, hsame, hlength, hrow⟩ := hstands
    cases hi.symm.trans hsame
    cases ho.symm.trans hlength
    cases hrow with
    | whole => cases hlast
    | masked hmask hbits hkept =>
      cases Except.ok.inj (hty'.symm.trans hbits)
      cases hlast
      exact hkept.hasType

/-- A slot of an instruction that stays keeps the type of what it reads. -/
theorem slot_hasType (hd : d.Logged f symbols cx log) (hup : f.Upholds none d.func)
    (hwithin : symbols.Within cx.symbols) (hi : f.inst? id = some inst)
    (hlater : d.func.inst? id = some later) (ho : inst.kind.operand? slot = some v)
    (hty : f.HasType symbols v ty) :
    ∃ new, later.kind.operand? slot = some new ∧ d.func.HasType cx.symbols new ty := by
  obtain rfl := hd.kept_of_live hi hlater
  obtain ⟨new, hnew⟩ := InstKind.exists_operand?_setOperands ho (written log id)
  refine ⟨new, hnew, ?_⟩
  rcases InstKind.operand?_setOperands hnew with hheld | hwritten
  · rw [Option.some.inj (hheld.symm.trans ho)] at hnew ⊢
    exact hd.hasType_later hup hwithin hty fun read he =>
      reads_pos_of_operand? hlater (he ▸ hnew)
  · exact hd.written_hasType hwithin hi ho hty hwritten

/-- An instruction that stays obeys, if it did. -/
theorem obeys_old (hd : d.Logged f symbols cx log) (hup : f.Upholds none d.func)
    (hwithin : symbols.Within cx.symbols) (hi : f.inst? id = some inst)
    (hlater : d.func.inst? id = some later) (hobeys : f.Obeys symbols inst.kind) :
    d.func.Obeys cx.symbols later.kind := by
  have hkept := hd.kept_of_live hi hlater
  have hroute : later.kind.route = inst.kind.route := by
    rw [hkept]
    exact InstKind.route_setOperands _ _
  rw [Obeys] at hobeys ⊢
  rw [hroute]
  cases hr : inst.kind.route with
  | whitelisted => trivial
  | validate =>
    rw [hr] at hobeys
    -- nothing is written into what is no access
    have hquiet : inst.kind.access? = none := by rw [InstKind.access?, hr]
    have hsame : later.kind = inst.kind := by
      rw [hkept, written, hd.about_eq_nil hi hquiet]
      rfl
    intro v hv
    rw [hsame] at hv
    obtain ⟨ty, hty, hdata⟩ := hobeys v hv
    refine ⟨ty, hd.hasType_later hup hwithin hty fun read he => ?_, hdata⟩
    refine reads_pos_iff.mpr ⟨id, later, hlater, ?_⟩
    rw [hsame]
    exact he ▸ InstKind.operands_of_dataOperands hv
  | sandbox access =>
    rw [hr] at hobeys
    constructor
    · intro slot hslot
      obtain ⟨v, pointee, ho, hty⟩ := hobeys.pointer slot hslot
      obtain ⟨new, hnew, hnewTy⟩ := hd.slot_hasType hup hwithin hi hlater ho hty
      exact ⟨new, pointee, hnew, hnewTy⟩
    · intro slot hslot
      obtain ⟨v, bits, ho, hty⟩ := hobeys.length slot hslot
      obtain ⟨new, hnew, hnewTy⟩ := hd.slot_hasType hup hwithin hi hlater ho hty
      exact ⟨new, bits, hnew, hnewTy⟩

/-- The members of a row pass. -/
theorem passes_row {plan : Plan} (hd : d.Logged f symbols cx log) (hf : f.Placed)
    (hplan : f.plan symbols = .ok plan) (hup : f.Upholds none d.func)
    (hwithin : symbols.Within cx.symbols) {emission : Emission} (hmem : emission ∈ log) :
    ∀ member ∈ emission.row, d.func.Passes cx.symbols member := by
  have hstands := hd.stands emission hmem
  have howed := hd.owed emission hmem
  cases emission with
  | address reader found landing row =>
    obtain ⟨b, same, address, pointee, pointer, hb, -, -, -, htakes, hrow⟩ := hstands
    refine hrow.passes (hd.base_hasType hb) fun fold he => ?_
    subst he
    -- the addition of the fold was checked to read no address
    obtain ⟨-, addInst, c, hadd, haddKind⟩ := parts_of_fold? htakes.2
    have hcarries := carriesNoPointer_of_plan hplan (hf.mem_order.mpr ⟨addInst, hadd⟩) hadd
      (by rw [haddKind]; rfl)
    rw [haddKind] at hcarries
    obtain ⟨ty, hty, hdata⟩ := hcarries fold.index List.mem_cons_self
    exact ⟨ty, hd.hasType_later hup hwithin hty fun read he => hrow.reads_index he, hdata⟩
  | length reader found row =>
    obtain ⟨inst, access, v, bits, hi, ha, -, hv, hvty⟩ := howed.length
    obtain ⟨same, held, hsame, ho, hrow⟩ := hstands
    cases hi.symm.trans hsame
    cases hv.symm.trans ho
    cases hrow with
    | whole => exact fun member hmember => absurd hmember List.not_mem_nil
    | masked hmask hty hkept =>
      have hlater : d.func.HasType cx.symbols v (.int bits) :=
        hd.hasType_later hup hwithin hvty fun read he =>
          reads_pos_iff.mpr ⟨_, _, hkept.2, he ▸ List.mem_cons_self⟩
      exact CapRow.passes (.masked hmask hty hkept) hlater.holdsData

end Draft.Logged

/-! ## The plan of a confined body -/

/-- In a body with blocks, the order of the layout is that of the body behind the base. -/
theorem Func.Laid.order_eq {f g : Func} {base : Option InstId} {group : InstId → List InstId}
    (hg : f.Laid base group g) (hblocks : f.blocks ≠ []) :
    g.order = base.toList ++ f.order.flatMap (g.standing group) := by
  cases hb : f.blocks with
  | nil => exact absurd hb hblocks
  | cons entry rest =>
    have hlist : g.blocks =
        { entry with insts := base.toList ++ entry.insts.flatMap (g.standing group) } ::
          rest.map fun block =>
            { block with insts := block.insts.flatMap (g.standing group) } := by
      refine List.ext_getElem? fun b => ?_
      have hat := hg.lists b
      rw [block?, block?, hb] at hat
      rw [hat]
      cases b with
      | zero => rfl
      | succ b => simp
    rw [Func.order, Func.order, hlist, hb, List.flatMap_cons, List.flatMap_cons,
      List.flatMap_append, List.flatMap_map, List.flatMap_assoc, List.append_assoc]

/-- What obeys with the symbols of a module obeys with more. -/
theorem Func.Obeys.within {f : Func} {symbols table : SymbolTable} {kind : InstKind}
    (h : f.Obeys symbols kind) (hwithin : symbols.Within table) : f.Obeys table kind := by
  rw [Obeys] at h ⊢
  cases hr : kind.route with
  | whitelisted => trivial
  | validate =>
    rw [hr] at h
    intro v hv
    obtain ⟨ty, hty, hdata⟩ := h v hv
    exact ⟨ty, HasType.within hty hwithin, hdata⟩
  | sandbox access =>
    rw [hr] at h
    constructor
    · intro slot hslot
      obtain ⟨v, pointee, ho, hty⟩ := h.pointer slot hslot
      exact ⟨v, pointee, ho, HasType.within hty hwithin⟩
    · intro slot hslot
      obtain ⟨v, bits, ho, hty⟩ := h.length slot hslot
      exact ⟨v, bits, ho, HasType.within hty hwithin⟩

theorem Func.plan_within {f : Func} {symbols table : SymbolTable} {plan : Plan}
    (h : f.plan symbols = .ok plan) (hwithin : symbols.Within table) : f.plan table = .ok plan := by
  obtain ⟨hobeys, hplan⟩ := plan_eq_ok_iff.mp h
  exact plan_eq_ok_iff.mpr ⟨fun id hid inst hi => (hobeys id hid inst hi).within hwithin, hplan⟩

namespace Func.Recorded

variable {f : Func} {symbols : SymbolTable} {cx : Context} {plan : Plan} {log : List Emission}
  {d : Draft} {id : InstId} {inst : Inst} {b : InstId} {target : Ty}

/-- Where there is an access, the base is loaded. -/
theorem exists_base (hd : f.Recorded symbols cx plan log d) (hplan : plan ≠ []) :
    ∃ b, d.base.loaded = some b := by
  obtain ⟨planned, rest, rfl⟩ := List.exists_cons_of_ne_nil hplan
  obtain ⟨inst, hi, ha, -⟩ := accessOk_of_plan hd.plan_eq List.mem_cons_self
  obtain ⟨slot, hslot⟩ : ∃ slot, slot ∈ planned.access.pointers := by
    rcases InstKind.access?_cases ha with he | he | he | he
    all_goals
      rw [he]
      exact ⟨_, List.mem_cons_self⟩
  -- the address in this slot was confined, by a row that adds it to the base
  have hchore : Chore.address planned.id slot ∈ log.map Emission.chore := by
    rw [hd.chores, List.flatMap_cons]
    exact List.mem_append_left _ (List.mem_append_left _ (List.mem_map_of_mem hslot))
  obtain ⟨emission, hmem, he⟩ := List.mem_map.mp hchore
  have hstands := hd.logged.stands emission hmem
  cases emission with
  | address reader found landing row =>
    obtain ⟨b, -, -, -, -, hb, -⟩ := hstands
    exact ⟨b, hb⟩
  | length reader found row => cases he

/-- Every instruction of a confined body obeys. -/
theorem obeys (hd : f.Recorded symbols cx plan log d) (hf : f.Placed)
    (hup : f.Upholds none d.func) (hwithin : symbols.Within cx.symbols)
    (hsymbol : cx.symbols.globalType cx.region.memoryBase = .ok (.ptr target))
    (hi : d.func.inst? id = some inst) : d.func.Obeys cx.symbols inst.kind := by
  cases hold : f.inst? id with
  | some old =>
    have hobeys := (plan_eq_ok_iff.mp hd.plan_eq).1 id (hf.mem_order.mpr ⟨old, hold⟩) old hold
    exact hd.logged.obeys_old hup hwithin hold hi hobeys
  | none =>
    rcases hd.logged.laid.inserted hf (by rw [hi]; rfl) hold with hbase | ⟨reader, -, hmem⟩
    · cases hi.symm.trans (hd.logged.base id hbase)
      refine ⟨fun slot hslot => ?_, fun slot hslot => nomatch hslot⟩
      rw [List.mem_singleton.mp hslot]
      exact ⟨_, target, rfl, hsymbol⟩
    · obtain ⟨emission, hlogged, -, hrow⟩ := mem_emitted.mp hmem
      obtain ⟨same, hsame, -, hobeys⟩ :=
        hd.logged.passes_row hf hd.plan_eq hup hwithin hlogged id hrow
      cases hi.symm.trans hsame
      exact hobeys

/-- What stands in place of an instruction is planned as the instruction was. -/
theorem filterMap_standing (hd : f.Recorded symbols cx plan log d) (hf : f.Placed)
    (hup : f.Upholds none d.func) (hwithin : symbols.Within cx.symbols)
    (hi : f.inst? id = some inst) :
    (d.func.standing (emitted log) id).filterMap d.func.planned? = (f.planned? id).toList := by
  rcases hd.logged.kept id inst hi with hkept | ⟨hgone, hretired⟩
  · have hgroup : (emitted log id).filterMap d.func.planned? = [] := by
      rw [List.filterMap_eq_nil_iff]
      intro member hmember
      obtain ⟨emission, hlogged, -, hrow⟩ := mem_emitted.mp hmember
      obtain ⟨same, hsame, hquiet, -⟩ :=
        hd.logged.passes_row hf hd.plan_eq hup hwithin hlogged member hrow
      rw [planned?, hsame, Option.bind_some, hquiet]
      rfl
    have hself : d.func.planned? id = f.planned? id := by
      rw [planned?, planned?, hkept, hi, Option.bind_some, Option.bind_some,
        InstKind.access?_setOperands]
    rw [standing_of_live hkept, List.filterMap_append, hgroup, List.nil_append,
      List.filterMap_cons, hself]
    cases f.planned? id <;> rfl
  · -- a part of a fold is no access
    obtain ⟨found, hfound, hquiet⟩ := quiet_of_retired hd.logged.stands hretired
    rw [standing_of_gone hgone, planned?, hfound, Option.bind_some, hquiet]
    rfl

/-- A body with an access has a plan again: the load of the base, and its plan. -/
theorem plan_again (hd : f.Recorded symbols cx plan log d) (hf : f.Placed)
    (hup : f.Upholds none d.func) (hwithin : symbols.Within cx.symbols)
    (hsymbol : cx.symbols.globalType cx.region.memoryBase = .ok (.ptr target))
    (hb : d.base.loaded = some b) (hblocks : f.blocks ≠ []) :
    d.func.plan cx.symbols = .ok ({ id := b, access := .value 0 } :: plan) := by
  refine plan_eq_ok_iff.mpr ⟨fun id _ inst hi => hd.obeys hf hup hwithin hsymbol hi, ?_⟩
  have hentry : d.func.planned? b = some { id := b, access := .value 0 } :=
    planned?_eq_some_iff.mpr ⟨rfl, _, hd.logged.base b hb, rfl⟩
  rw [hd.logged.laid.order_eq hblocks, hb, List.filterMap_append, Option.toList_some,
    List.filterMap_cons_some hentry, List.filterMap_nil, List.singleton_append,
    List.filterMap_flatMap]
  congr 1
  rw [(plan_eq_ok_iff.mp hd.plan_eq).2, List.filterMap_eq_flatMap_toList]
  apply List.flatMap_congr
  intro id hid
  obtain ⟨inst, hi⟩ := hf.mem_order.mp hid
  exact (hd.filterMap_standing hf hup hwithin hi).symm

end Func.Recorded

/-! ## A module -/

/-- A named global has an address. -/
theorem Module.globalType_of_named {m : Module} {name : String} {id : GlobalId}
    (h : m.globalNamed? name = some id) : ∃ target, m.symbols.globalType id = .ok (.ptr target) := by
  obtain ⟨hlt, -⟩ := List.findIdx?_eq_some_iff_getElem.mp h
  refine ⟨m.globals[id].ty, ?_⟩
  rw [SymbolTable.globalType, Module.symbols, List.getElem?_map, List.getElem?_eq_getElem hlt]
  rfl

/-- A function `g` of the module `m'` that a function `f` of the module `m` has become by its plan can
be planned again. -/
structure Func.Replans (f g : Func) (m m' : Module) (plan : Plan) : Prop where
  /-- The plan before. -/
  before : f.plan m.symbols = .ok plan
  /-- Without an access there is none afterwards. -/
  idle : plan = [] → g.plan m'.symbols = .ok []
  /-- Otherwise the load of the base is one access more, the first. -/
  again : plan ≠ [] → ∃ base, f.LoadsBase g m' (some base) ∧
    g.plan m'.symbols = .ok ({ id := base, access := .value 0 } :: plan)
  /-- A slot of an instruction that stays keeps the type of what it reads. -/
  types : ∀ id inst later slot v ty, f.inst? id = some inst → g.inst? id = some later →
    inst.kind.operand? slot = some v → f.HasType m.symbols v ty →
      ∃ new, later.kind.operand? slot = some new ∧ g.HasType m'.symbols new ty

/-- A body with a full log can be planned again, with the symbols of its region. -/
theorem Func.Recorded.replans {f : Func} {m m' : Module} {cx : Context} {plan : Plan}
    {log : List Emission} {d : Draft} (hd : f.Recorded m.symbols cx plan log d) (hf : f.Placed)
    (hup : f.Upholds none d.func) (hwithin : m.symbols.Within cx.symbols)
    (hsymbols : m'.symbols = cx.symbols)
    (hnamed : m'.globalNamed? baseSymbol = some cx.region.memoryBase) :
    f.Replans d.func m m' plan where
  before := hd.plan_eq
  idle := by
    intro hnothing
    rw [hsymbols, hd.nothing hnothing]
    exact hnothing ▸ plan_within hd.plan_eq hwithin
  again := by
    intro hplan
    obtain ⟨b, hb⟩ := hd.exists_base hplan
    obtain ⟨target, htarget⟩ := Module.globalType_of_named hnamed
    refine ⟨b, ?_, ?_⟩
    · intro found hfound
      cases hfound
      exact ⟨cx.region.memoryBase, hnamed, hd.logged.laid.base_new b hb, _, hd.logged.base b hb,
        rfl, rfl⟩
    · rw [hsymbols]
      exact hd.plan_again hf hup hwithin (hsymbols ▸ htarget) hb
        (blocks_ne_nil_of_plan hd.plan_eq hplan)
  types := by
    intro id inst later slot v ty hi hlater ho hty
    rw [hsymbols]
    exact hd.logged.slot_hasType hup hwithin hi hlater ho hty

/-- A module with exact counters that was sandboxed can be planned again, function by function: the
plan is the load of the base, if there is an access, and behind it the plan from before. -/
theorem Pass.run_replans {pass : Pass} {m m' : Module} {report : Report} (hm : m.Built)
    (hexact : ∀ f ∈ m.functions, f.Exact) (h : pass.run.run m = .ok report m') :
    List.Forall₂ (fun f g => ∃ plan, f.Replans g m m' plan) m.functions m'.functions := by
  obtain ⟨region, m₁, hregion, hm', hsymbols, hall⟩ := run_logged hm h
  obtain ⟨-, -, -, hnamed, -⟩ := Region.install_eq_ok hregion
  have hnamed' : m'.globalNamed? baseSymbol = some region.memoryBase := by
    rw [hm', ← hnamed]
    rfl
  refine hall.imp ?_
  rintro f g ⟨hf, -, plan, log, d, rfl, hd⟩
  have hup := hd.upholds ((hexact f hf).trusted _ _ _)
  exact ⟨plan, hd.replans (hm f hf).placed hup (Region.install_within hregion) hsymbols hnamed'⟩

/-! ## A fold and a copy -/

/-- A function that loads through the sum of a parameter and 4, and copies as many bytes as the
parameter says. -/
def gathering : Func :=
  [.addBlock "entry",
    .append 0 (.binary .add (.arg 2) (.int 32 4)) (.int 32),
    .append 0 (.cast .inttoptr (.inst 0)) (.ptr (.int 32)),
    .append 0 (.load (.inst 1)) (.int 32),
    .append 0 (.intrinsic .memcpy [.arg 0, .arg 1, .arg 2]) .void,
    .append 0 (.ret none) .void].foldl Operation.apply
    (.declare "gathering" [.ptr (.int 8), .ptr (.int 8), .int 32] .void)

/-- A module of this function alone. -/
def gatheringModule : Module where
  name := "gathering"
  layout := {}
  functions := [gathering]
  globals := []
  flags := []

theorem gatheringModule_succeeds :
    Pass.narrow.succeeds gatheringModule (fun report _ =>
      report.tally.folded == 1 && report.tally.lengths == 1) = true := by
  decide +kernel

theorem gatheringModule_replans : ∃ report m',
    Pass.narrow.run.run gatheringModule = .ok report m' ∧ report.tally.folded = 1 ∧
      report.tally.lengths = 1 ∧
      List.Forall₂ (fun f g => ∃ plan, f.Replans g gatheringModule m' plan)
        gatheringModule.functions m'.functions := by
  obtain ⟨report, m', hrun, hcheck⟩ := Pass.run_of_succeeds gatheringModule_succeeds
  rw [Bool.and_eq_true, beq_iff_eq, beq_iff_eq] at hcheck
  have hbuilt : gatheringModule.Built :=
    Module.built_of_functions_eq rfl ((Func.Built.declare _ _ _).history _)
  have hexact : ∀ f ∈ gatheringModule.functions, f.Exact := by
    intro f hf
    rw [List.mem_singleton.mp hf]
    show gathering.Exact
    decide +kernel
  exact ⟨report, m', hrun, hcheck.1, hcheck.2, Pass.run_replans hbuilt hexact hrun⟩

end Confinement
