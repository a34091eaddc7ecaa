import Confinement.Proofs.AuditComplete
import Confinement.Proofs.Folding
import Confinement.Proofs.Replanning

/-!
# One load of the base

A body with an access loads the base of the region once, at the head of its entry block, and every
address that is computed in it starts from this load (`Func.LoadsOnce`). Two facts lead to it. What is
inserted is the load itself or belongs to a row, and a row is made of few kinds of instruction, among
which no load is (`Draft.Logged.inserted_kind`). And a load that the body had is an access, whose slot
reads the last member of a row in the end (`Draft.Logged.operand?_row`), so it is no load of the symbol
any more. A body without an access is left alone, and has no load at all.
-/

set_option autoImplicit false

namespace Confinement

open Func

/-! ## What rows are made of -/

namespace Func

/-- The result is the base plus what was widened. -/
def AddsTo (g : Func) (base sum : InstId) : Prop :=
  ∃ inst wide, g.inst? sum = some inst ∧ inst.kind = .binary .add (.inst base) (.inst wide)

/-- The instructions that rows are made of. -/
inductive RowKind (g : Func) (width : Width) (base : Option InstId) : InstKind → Prop
  /-- A conversion. -/
  | cast (op : CastOp) (v : Value) : RowKind g width base (.cast op v)
  /-- A mask, if the width has one. -/
  | mask {mask : Nat} (hmask : width.mask? = some mask) (v : Value) (bits : Nat) :
      RowKind g width base (.binary .and v (.int bits mask))
  /-- An addition to the base. -/
  | sum {b : InstId} (hbase : base = some b) (wide : InstId) :
      RowKind g width base (.binary .add (.inst b) (.inst wide))
  /-- The addition of a constant to such a sum. -/
  | total {b sum : InstId} (hbase : base = some b) (hsum : g.AddsTo b sum) (offset : Nat) :
      RowKind g width base (.binary .add (.inst sum) (.int 64 offset))

variable {f g : Func} {n : Nat} {width : Width} {b : BlockId} {base sum pointer member : InstId}
  {low length : Value} {row : List InstId} {ty : Ty} {landing : Landing} {inst : Inst}
  {symbols : SymbolTable}

theorem SumRow.addsTo (hs : g.SumRow n width b base low row sum) : g.AddsTo base sum := by
  cases hs with
  | whole hmask hwide hsum => exact ⟨_, _, hsum.2, rfl⟩
  | masked hmask hkept hwide hsum => exact ⟨_, _, hsum.2, rfl⟩

theorem SumRow.rowKind (hs : g.SumRow n width b base low row sum) (hm : member ∈ row)
    (hi : g.inst? member = some inst) : g.RowKind width (some base) inst.kind := by
  cases hs with
  | whole hmask hwide hsum =>
    rw [List.mem_cons, List.mem_singleton] at hm
    rcases hm with rfl | rfl
    · cases hi.symm.trans hwide.2
      exact .cast .zext low
    · cases hi.symm.trans hsum.2
      exact .sum rfl _
  | masked hmask hkept hwide hsum =>
    rw [List.mem_cons, List.mem_cons, List.mem_singleton] at hm
    rcases hm with rfl | rfl | rfl
    · cases hi.symm.trans hkept.2
      exact .mask hmask low 32
    · cases hi.symm.trans hwide.2
      exact .cast .zext _
    · cases hi.symm.trans hsum.2
      exact .sum rfl _

theorem LandRow.rowKind (hl : f.LandRow g width b base ty landing row pointer) (hm : member ∈ row)
    (hi : g.inst? member = some inst) : g.RowKind width (some base) inst.kind := by
  cases hl with
  | plain hlow hsum hpointer =>
    rw [List.cons_append, List.mem_cons, List.mem_append, List.mem_singleton] at hm
    rcases hm with rfl | hm | rfl
    · cases hi.symm.trans hlow.2
      exact .cast .ptrtoint _
    · exact hsum.rowKind hm hi
    · cases hi.symm.trans hpointer.2
      exact .cast .inttoptr _
  | folded hsum htotal hpointer =>
    rw [List.mem_append, List.mem_cons, List.mem_singleton] at hm
    rcases hm with hm | rfl | rfl
    · exact hsum.rowKind hm hi
    · cases hi.symm.trans htotal.2
      exact .total rfl hsum.addsTo _
    · cases hi.symm.trans hpointer.2
      exact .cast .inttoptr _

theorem CapRow.rowKind (hc : f.CapRow g symbols width b length row) (hm : member ∈ row)
    (hi : g.inst? member = some inst) (base : Option InstId) : g.RowKind width base inst.kind := by
  cases hc with
  | whole => cases hm
  | masked hmask hty hkept =>
    obtain rfl := List.mem_singleton.mp hm
    cases hi.symm.trans hkept.2
    exact .mask hmask length _

/-- No row loads anything. -/
theorem RowKind.access?_eq_none {base : Option InstId} {kind : InstKind}
    (h : g.RowKind width base kind) : kind.access? = none := by
  cases h with
  | cast op v => cases op <;> rfl
  | mask | sum | total => rfl

end Func

theorem Emission.Stands.rowKind {f g : Func} {cx : Context} {base : Option InstId}
    {emission : Emission} {member : InstId} {inst : Inst} (hs : emission.Stands f cx base g)
    (hm : member ∈ emission.row) (hi : g.inst? member = some inst) :
    g.RowKind cx.region.width base inst.kind := by
  cases emission with
  | address id slot landing row =>
    obtain ⟨b, _, address, pointee, pointer, rfl, -, -, -, -, hrow⟩ := hs
    exact hrow.rowKind hm hi
  | length id slot row =>
    obtain ⟨_, length, -, -, hrow⟩ := hs
    exact hrow.rowKind hm hi base

/-! ## Bodies with a log -/

/-- The slot of a chore that is owed holds something. -/
theorem Chore.Owed.operand? {f : Func} {symbols : SymbolTable} {chore : Chore}
    (h : chore.Owed f symbols) :
    ∃ inst v, f.inst? chore.id = some inst ∧ inst.kind.operand? chore.slot = some v := by
  cases chore with
  | address id slot =>
    obtain ⟨inst, -, v, -, hi, -, -, hv, -⟩ := h.address
    exact ⟨inst, v, hi, hv⟩
  | length id slot =>
    obtain ⟨inst, -, v, -, hi, -, -, hv, -⟩ := h.length
    exact ⟨inst, v, hi, hv⟩

namespace Draft.Logged

variable {f : Func} {symbols : SymbolTable} {cx : Context} {log : List Emission} {d : Draft}
  {id : InstId} {inst : Inst}

/-- What is inserted is the load of the base or belongs to a row. -/
theorem inserted_kind (hd : d.Logged f symbols cx log) (hf : f.Placed) (hnew : f.inst? id = none)
    (hi : d.func.inst? id = some inst) :
    d.base.loaded = some id ∨ d.func.RowKind cx.region.width d.base.loaded inst.kind := by
  rcases hd.laid.inserted hf (by rw [hi]; rfl) hnew with hbase | ⟨reader, -, hmem⟩
  · exact Or.inl hbase
  · obtain ⟨emission, hlogged, -, hrow⟩ := mem_emitted.mp hmem
    exact Or.inr ((hd.stands emission hlogged).rowKind hrow hi)

/-- A slot that was worked on once reads the last member of its row. -/
theorem operand?_row (hd : d.Logged f symbols cx log)
    (honce : (log.map (·.chore.place)).Nodup) {emission : Emission} (hmem : emission ∈ log)
    {last : InstId} (hlast : emission.row.getLast? = some last) :
    d.func.operand? emission.chore.id emission.chore.slot = some (.inst last) := by
  obtain ⟨inst, v, hi, hv⟩ := (hd.owed emission hmem).operand?
  obtain ⟨before, after, rfl⟩ := List.append_of_mem hmem
  rw [List.map_append, List.map_cons, List.nodup_append, List.nodup_cons] at honce
  obtain ⟨-, ⟨hafter, -⟩, -⟩ := honce
  exact hd.operand?_emission hi (List.getElem?_eq_some_iff.mp hv).1 hafter hlast

end Draft.Logged

/-! ## The load of a body -/

/-- `b` is the only load of the base symbol in `g`, new and at the head of the entry block, and what
is added or read in `g` where `f` had an address starts from it. -/
structure Func.LoadsOnce (f g : Func) (width : Width) (symbol : GlobalId) (b : InstId) : Prop where
  /-- It is the one live instruction of its kind. -/
  only : ∀ id inst, g.inst? id = some inst → (inst.kind = .load (.global symbol) ↔ id = b)
  /-- It is a load of a 64-bit integer. -/
  inst? : g.inst? b = some ⟨.load (.global symbol), .int 64, 0, none⟩
  /-- It was inserted. -/
  new : f.inst? b = none
  /-- It is the first instruction of the entry block. -/
  heads : g.entry? = some 0 ∧ g.Heads b
  /-- An inserted addition adds to it, or adds a constant to such a sum. -/
  adds : ∀ id inst lhs rhs, f.inst? id = none → g.inst? id = some inst →
    inst.kind = .binary .add lhs rhs →
    (lhs = .inst b ∧ ∃ wide, rhs = .inst wide) ∨
      ∃ sum offset, lhs = .inst sum ∧ g.AddsTo b sum ∧ rhs = .int 64 offset
  /-- A slot that held an address reads one that is computed from it. -/
  slots : ∀ id inst access slot, f.inst? id = some inst → inst.kind.access? = some access →
    slot ∈ access.pointers → ∃ ty landing row pointer,
      g.operand? id slot.index = some (.inst pointer) ∧
      f.LandRow g width inst.block b ty landing row pointer

namespace Func.Recorded

variable {f : Func} {symbols : SymbolTable} {cx : Context} {plan : Plan} {log : List Emission}
  {d : Draft} {id b : InstId} {inst : Inst} {access : Access}

/-- No slot comes up twice in the log. -/
theorem nodup_places (hd : f.Recorded symbols cx plan log d) (hf : f.Placed) :
    (log.map (·.chore.place)).Nodup := by
  have honce := Func.nodup_places hd.plan_eq hf.nodup_order
  rwa [← hd.chores, List.map_map] at honce

/-- The log has an entry for each address of an access. -/
theorem exists_address (hd : f.Recorded symbols cx plan log d) (hf : f.Placed)
    (hi : f.inst? id = some inst) (ha : inst.kind.access? = some access) {slot : PointerSlot}
    (hslot : slot ∈ access.pointers) :
    ∃ landing row, .address id slot landing row ∈ log := by
  have hplanned := mem_plan hd.plan_eq (hf.mem_order.mpr ⟨inst, hi⟩) hi ha
  have hchore : Chore.address id slot ∈ log.map Emission.chore := by
    rw [hd.chores]
    exact List.mem_flatMap.mpr ⟨_, hplanned, Planned.address_mem_chores hslot⟩
  obtain ⟨emission, hmem, he⟩ := List.mem_map.mp hchore
  cases emission with
  | address reader found landing row =>
    cases he
    exact ⟨landing, row, hmem⟩
  | length reader found row => cases he

/-- A slot of an access reads the last member of a row for the address that it held. -/
theorem reads_landing (hd : f.Recorded symbols cx plan log d) (hf : f.Placed)
    (hb : d.base.loaded = some b) (hi : f.inst? id = some inst)
    (ha : inst.kind.access? = some access) {slot : PointerSlot} (hslot : slot ∈ access.pointers) :
    ∃ address pointee landing row pointer,
      d.func.operand? id slot.index = some (.inst pointer) ∧
      landing.Takes f cx.layout cx.region.width slot address pointee ∧
      f.LandRow d.func cx.region.width inst.block b (.ptr pointee) landing row pointer := by
  obtain ⟨landing, row, hmem⟩ := hd.exists_address hf hi ha hslot
  obtain ⟨b', found, address, pointee, pointer, hb', hfound, -, -, htakes, hrow⟩ :=
    hd.logged.stands _ hmem
  cases hi.symm.trans hfound
  cases hb.symm.trans hb'
  exact ⟨address, pointee, landing, row, pointer,
    hd.logged.operand?_row (hd.nodup_places hf) hmem hrow.getLast?, htakes, hrow⟩

/-- It is a pointer computed from the base. -/
theorem reads_row (hd : f.Recorded symbols cx plan log d) (hf : f.Placed)
    (hb : d.base.loaded = some b) (hi : f.inst? id = some inst)
    (ha : inst.kind.access? = some access) {slot : PointerSlot} (hslot : slot ∈ access.pointers) :
    ∃ ty landing row pointer, d.func.operand? id slot.index = some (.inst pointer) ∧
      f.LandRow d.func cx.region.width inst.block b ty landing row pointer := by
  obtain ⟨-, pointee, landing, row, pointer, hread, -, hrow⟩ := hd.reads_landing hf hb hi ha hslot
  exact ⟨.ptr pointee, landing, row, pointer, hread, hrow⟩

/-- A load that the body had does not load a symbol any more. -/
theorem load_ne (hd : f.Recorded symbols cx plan log d) (hf : f.Placed)
    (hb : d.base.loaded = some b) {old : Inst} (hold : f.inst? id = some old)
    (hi : d.func.inst? id = some inst) (symbol : GlobalId) :
    inst.kind ≠ .load (.global symbol) := by
  intro hkind
  have haccess : old.kind.access? = some (.value 0) := by
    rw [← InstKind.access?_setOperands old.kind (written log id)]
    rw [hd.logged.kept_of_live hold hi] at hkind
    exact congrArg InstKind.access? hkind
  have hslot : (⟨0, true⟩ : PointerSlot) ∈ (Access.value 0).pointers := List.mem_cons_self
  obtain ⟨_, _, _, pointer, hread, -⟩ := hd.reads_row hf hb hold haccess hslot
  rw [operand?_eq hi, hkind] at hread
  cases hread

/-- The base stands at the head of the entry block. -/
theorem heads (hd : f.Recorded symbols cx plan log d) (hb : d.base.loaded = some b)
    (hplan : plan ≠ []) : d.func.entry? = some 0 ∧ d.func.Heads b := by
  obtain ⟨block, hblock⟩ : ∃ block, f.block? 0 = some block := by
    obtain ⟨block, blocks, hblocks⟩ :=
      List.exists_cons_of_ne_nil (blocks_ne_nil_of_plan hd.plan_eq hplan)
    exact ⟨block, by rw [Func.block?, hblocks]; rfl⟩
  have hlist := hd.logged.laid.lists 0
  rw [hblock, hb] at hlist
  refine ⟨?_, ?_⟩
  · rw [Func.entry?, if_neg]
    rw [isDeclaration_iff]
    intro hnone
    rw [Func.block?, hnone] at hlist
    cases hlist
  · rw [Heads, hlist]
    rfl

/-- A body with an access loads the base once. -/
theorem loadsOnce (hd : f.Recorded symbols cx plan log d) (hf : f.Placed) (hplan : plan ≠ []) :
    ∃ b, f.LoadsOnce d.func cx.region.width cx.region.memoryBase b := by
  obtain ⟨b, hb⟩ := hd.exists_base hplan
  have hbase := hd.logged.base b hb
  have hnew : f.inst? b = none := by
    cases hi : f.inst? b with
    | none => rfl
    | some inst =>
      exact absurd (lt_size_of_inst? hi) (Nat.not_lt.mpr (hd.logged.laid.base_new b hb))
  refine ⟨b, { only := ?only, inst? := hbase, new := hnew, heads := hd.heads hb hplan,
               adds := ?adds, slots := ?slots }⟩
  case only =>
    intro id inst hi
    constructor
    · intro hkind
      cases hold : f.inst? id with
      | some old => exact absurd hkind (hd.load_ne hf hb hold hi _)
      | none =>
        rcases hd.logged.inserted_kind hf hold hi with hid | hrow
        · exact Option.some.inj (hid.symm.trans hb)
        · have hquiet := hrow.access?_eq_none
          rw [hkind] at hquiet
          cases hquiet
    · rintro rfl
      cases hi.symm.trans hbase
      rfl
  case adds =>
    intro id inst lhs rhs hold hi hkind
    rcases hd.logged.inserted_kind hf hold hi with hid | hrow
    · cases hid.symm.trans hb
      cases hi.symm.trans hbase
      cases hkind
    · rw [hkind, hb] at hrow
      cases hrow with
      | sum hbase wide =>
        cases hbase
        exact Or.inl ⟨rfl, wide, rfl⟩
      | @total _ sum hbase hsum offset =>
        cases hbase
        exact Or.inr ⟨sum, offset, rfl, hsum, rfl⟩
  case slots =>
    intro id inst access slot hi ha hslot
    exact hd.reads_row hf hb hi ha hslot

/-- A body without an access is left alone, and loads nothing. -/
theorem idle (hd : f.Recorded symbols cx plan log d) (hf : f.Placed) (hplan : plan = []) :
    d.func = f ∧ ∀ id inst ptr, d.func.inst? id = some inst → inst.kind ≠ .load ptr := by
  have hsame := hd.nothing hplan
  refine ⟨hsame, fun id inst ptr hi hkind => ?_⟩
  rw [hsame] at hi
  have hquiet := access?_eq_none_of_plan (hplan ▸ hd.plan_eq) (hf.mem_order.mpr ⟨inst, hi⟩) hi
  rw [hkind] at hquiet
  cases hquiet

end Func.Recorded

/-! ## A run -/

/-- Every body of a module that was sandboxed and had an access loads the base exactly once, in front
of everything else, and each address in it starts from there, whatever loads of the base symbol the
body had itself. A function without an access has not changed and has no load. -/
theorem Pass.run_loads_once {pass : Pass} {m m' : Module} {report : Report} (hm : m.Built)
    (h : pass.run.run m = .ok report m') :
    ∃ symbol, m'.globalNamed? baseSymbol = some symbol ∧
      List.Forall₂ (fun f g => ∃ plan, f.plan m.symbols = .ok plan ∧
        (plan ≠ [] → ∃ b, f.LoadsOnce g pass.width symbol b) ∧
        (plan = [] → g = f ∧ ∀ id inst ptr, g.inst? id = some inst → inst.kind ≠ .load ptr))
        m.functions m'.functions := by
  obtain ⟨region, m₁, hregion, hm', -, hall⟩ := run_logged hm h
  obtain ⟨hwidth, -, -, hnamed, -⟩ := Region.install_eq_ok hregion
  refine ⟨region.memoryBase, ?_, hall.imp ?_⟩
  · rw [hm']
    exact hnamed
  · rintro f g ⟨hf, -, plan, log, d, rfl, hd⟩
    have hplaced := (hm f hf).placed
    rw [← hwidth]
    exact ⟨plan, hd.plan_eq, hd.loadsOnce hplaced, hd.idle hplaced⟩

theorem mixedModule_loads_once : ∃ report m' symbol,
    Pass.narrow.run.run mixedModule = .ok report m' ∧ report.baseLoads = 1 ∧
      m'.globalNamed? baseSymbol = some symbol ∧
      List.Forall₂ (fun f g => ∃ plan, f.plan mixedModule.symbols = .ok plan ∧
        (plan ≠ [] → ∃ b, f.LoadsOnce g Pass.narrow.width symbol b) ∧
        (plan = [] → g = f ∧ ∀ id inst ptr, g.inst? id = some inst → inst.kind ≠ .load ptr))
        mixedModule.functions m'.functions := by
  have hruns : Pass.narrow.succeeds mixedModule (fun report _ => report.baseLoads == 1) = true := by
    decide +kernel
  obtain ⟨report, m', hrun, hloads⟩ := Pass.run_of_succeeds hruns
  obtain ⟨symbol, hsymbol, hall⟩ := Pass.run_loads_once mixedModule_built hrun
  exact ⟨report, m', symbol, hrun, eq_of_beq hloads, hsymbol, hall⟩

end Confinement
