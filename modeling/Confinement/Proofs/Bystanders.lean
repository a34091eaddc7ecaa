import Confinement.Proofs.History
import Confinement.Proofs.Logs

/-!
# What confinement leaves alone

A run changes nothing that it does not have to change. `Func.Undisturbed` says so of one function: its
name, its signature and its labels stay; an instruction is what it was but for the slots of its access,
or it was a part of a fold and is gone; what stays keeps its order; and what is new is the load of the
base at the head of the entry block, or belongs to a row directly before the access that the row
serves, known to the last detail, source positions included. Every function of a module that was
sandboxed is undisturbed, and so is the rest of the module (`Pass.run_undisturbed`).
-/

set_option autoImplicit false

namespace Confinement

open Func

/-! ## Slots and rows of an access -/

/-- The operand slots through which an instruction touches memory. -/
def InstKind.accessSlots (kind : InstKind) : List Nat :=
  (kind.access?.map Access.slots).getD []

theorem InstKind.accessSlots_eq {kind : InstKind} {access : Access}
    (h : kind.access? = some access) : kind.accessSlots = access.slots := by
  rw [accessSlots, h]
  rfl

namespace Func

section Rows

variable (f : Func) (symbols : SymbolTable) (layout : DataLayout) (width : Width)
  (base : Option InstId) (g : Func)

/-- A row of `g` that computes the confined address for what a slot of an instruction of `f` held. -/
def AddressRow (inst : Inst) (slot : PointerSlot) (landing : Landing) (row : List InstId) : Prop :=
  ∃ b address pointee pointer, base = some b ∧ inst.kind.operand? slot.index = some address ∧
    f.HasType symbols address (.ptr pointee) ∧ landing.Takes f layout width slot address pointee ∧
    f.LandRow g width inst.block b (.ptr pointee) landing row pointer

/-- A row of `g` that masks the length that a slot of an instruction of `f` held. -/
def LengthRow (inst : Inst) (slot : Nat) (row : List InstId) : Prop :=
  ∃ length, inst.kind.operand? slot = some length ∧
    f.CapRow g symbols width inst.block length row

/-- A row of `g` that serves a slot of an access of `f`. -/
inductive Serves (inst : Inst) (access : Access) : Nat → List InstId → Prop
  | address {slot : PointerSlot} {landing : Landing} {row : List InstId}
      (hslot : slot ∈ access.pointers)
      (hrow : f.AddressRow symbols layout width base g inst slot landing row) :
      Serves inst access slot.index row
  | length {slot : Nat} {row : List InstId} (hslot : access.length = some slot)
      (hrow : f.LengthRow symbols width g inst slot row) : Serves inst access slot row

/-- An instruction is the conversion or the addition of an address that an access of `f` was given in
a folded form. -/
def FoldedPart (group : InstId → List InstId) (id : InstId) : Prop :=
  ∃ reader inst access slot fold row, f.inst? reader = some inst ∧
    inst.kind.access? = some access ∧ slot ∈ access.pointers ∧
    f.AddressRow symbols layout width base g inst slot (.folded fold) row ∧
    row <:+: group reader ∧ (id = fold.cast ∨ id = fold.add)

/-- What confinement makes of `f` is `g`: a load of the base at the head of the entry block, a group of
rows directly before each access, and for the rest `f` but for what is written into the slots of
accesses and for the parts of folds. -/
structure Undisturbed (group : InstId → List InstId) : Prop where
  name : g.name = f.name
  params : g.params = f.params
  ret : g.ret = f.ret
  labels : g.blocks.map (·.name) = f.blocks.map (·.name)
  /-- A function without an access stays. -/
  idle : (∀ id inst, f.inst? id = some inst → inst.kind.access? = none) → g = f
  /-- What stays is the same but for the slots of an access. -/
  kept : ∀ id inst later, f.inst? id = some inst → g.inst? id = some later →
    ∃ writes, (∀ write ∈ writes, write.1 ∈ inst.kind.accessSlots) ∧
      later = { inst with kind := inst.kind.setOperands writes }
  /-- What is gone was a part of a fold. -/
  erased : ∀ id inst, f.inst? id = some inst → g.inst? id = none →
    f.FoldedPart symbols layout width base g group id
  /-- What stays keeps its order. -/
  order : ∀ b block, f.block? b = some block → ∃ later, g.block? b = some later ∧
    later.insts.filter (fun id => (f.inst? id).isSome) =
      block.insts.filter fun id => (g.inst? id).isSome
  /-- Blocks list the base and the groups where they belong. -/
  lists : ∀ b block, f.block? b = some block → g.block? b = some { block with
    insts := (if b = 0 then base.toList else []) ++ block.insts.flatMap (g.standing group) }
  /-- The base is new, and loaded from a symbol. -/
  base_eq : ∀ b, base = some b → f.inst? b = none ∧
    ∃ symbol, g.inst? b = some ⟨.load (.global symbol), .int 64, 0, none⟩
  /-- The group of an access has a row for each of its slots, in order. -/
  rows : ∀ id inst access, f.inst? id = some inst → inst.kind.access? = some access →
    ∃ rows, group id = rows.flatten ∧
      List.Forall₂ (f.Serves symbols layout width base g inst access) access.slots rows
  /-- What is new is the base or in the group of an access. -/
  inserted : ∀ id, (g.inst? id).isSome → f.inst? id = none → base = some id ∨
    ∃ reader inst, f.inst? reader = some inst ∧ inst.kind.access? ≠ none ∧
      (g.inst? reader).isSome ∧ id ∈ group reader

end Rows

/-! ## A body -/

variable {f g : Func} {symbols : SymbolTable} {cx : Context} {log : List Emission}
  {emission : Emission} {d : Draft}

/-- What stands for an address in a log is a row for it. -/
theorem addressRow_of_stands {id : InstId} {inst : Inst} {slot : PointerSlot} {landing : Landing}
    {row : List InstId} {base : Option InstId} (hwithin : symbols.Within cx.symbols)
    (hi : f.inst? id = some inst) (howed : (Chore.address id slot).Owed f symbols)
    (hstands : (Emission.address id slot landing row).Stands f cx base g) :
    f.AddressRow symbols cx.layout cx.region.width base g inst slot landing row := by
  obtain ⟨b, found, address, pointee, pointer, hb, hfound, ho, hty, htakes, hrow⟩ := hstands
  cases hi.symm.trans hfound
  obtain ⟨same, -, v, target, hsame, -, -, hv, hvty⟩ := howed.address
  cases hi.symm.trans hsame
  cases ho.symm.trans hv
  -- the type is that of the body, which the symbols of the region do not change
  have htarget : f.HasType cx.symbols address (.ptr target) := HasType.within hvty hwithin
  cases Except.ok.inj (hty.symm.trans htarget)
  exact ⟨b, address, pointee, pointer, hb, ho, hvty, htakes, hrow⟩

/-- What stands for a length in a log is a row for it. -/
theorem lengthRow_of_stands {id : InstId} {inst : Inst} {slot : Nat} {row : List InstId}
    {base : Option InstId} (hwithin : symbols.Within cx.symbols) (hi : f.inst? id = some inst)
    (howed : (Chore.length id slot).Owed f symbols)
    (hstands : (Emission.length id slot row).Stands f cx base g) :
    f.LengthRow symbols cx.region.width g inst slot row := by
  obtain ⟨found, length, hfound, ho, hrow⟩ := hstands
  cases hi.symm.trans hfound
  obtain ⟨same, -, v, bits, hsame, -, -, hv, hvty⟩ := howed.length
  cases hi.symm.trans hsame
  cases ho.symm.trans hv
  refine ⟨length, ho, ?_⟩
  cases hrow with
  | whole hmask => exact .whole hmask
  | masked hmask hty hkept =>
    have hbits : f.HasType cx.symbols length (.int bits) := HasType.within hvty hwithin
    cases Except.ok.inj (hty.symm.trans hbits)
    exact .masked hmask hvty hkept

namespace Laid

variable {base : Option InstId} {group : InstId → List InstId}

/-- What stays keeps its order. -/
theorem filter_eq (hg : f.Laid base group g) (hf : f.Placed) {b : BlockId} {block : Block}
    (hblock : f.block? b = some block) :
    ((if b = 0 then base.toList else []) ++ block.insts.flatMap (g.standing group)).filter
      (fun id => (f.inst? id).isSome) = block.insts.filter fun id => (g.inst? id).isSome := by
  have hnew : ∀ l : List InstId, (∀ x ∈ l, f.cells.size ≤ x) →
      l.filter (fun id => (f.inst? id).isSome) = [] := by
    intro l hl
    rw [List.filter_eq_nil_iff]
    intro x hx hsome
    obtain ⟨inst, hi⟩ := Option.isSome_iff_exists.mp hsome
    exact Nat.not_lt.mpr (hl x hx) (lt_size_of_inst? hi)
  rw [List.filter_append, hnew _ (hg.head_new b), List.nil_append]
  have hlisted : ∀ x ∈ block.insts, (f.inst? x).isSome := by
    intro x hx
    obtain ⟨inst, hi, -⟩ := (hf.mem b block x hblock).mp hx
    rw [hi]
    rfl
  clear hblock
  generalize block.insts = listed at hlisted ⊢
  induction listed with
  | nil => rfl
  | cons x l ih =>
    obtain ⟨hx, hl⟩ := List.forall_mem_cons.mp hlisted
    rw [List.flatMap_cons, List.filter_append, ih hl, standing, List.filter_cons]
    split
    · rw [List.filter_append, hnew _ (hg.group_new x), List.filter_singleton, hx]
      rfl
    · rfl

end Laid

end Func

namespace Draft.Logged

variable {f : Func} {symbols : SymbolTable} {cx : Context} {log : List Emission} {d : Draft}

/-- What is written goes into slots of the access. -/
theorem written_slots (hd : d.Logged f symbols cx log) {id : InstId} {inst : Inst}
    (hi : f.inst? id = some inst) : ∀ write ∈ written log id, write.1 ∈ inst.kind.accessSlots := by
  rintro ⟨slot, v⟩ hwrite
  obtain ⟨emission, hlogged, hid, hslot, -⟩ := mem_written hwrite
  obtain ⟨found, access, hfound, ha, hchore, -⟩ := hd.owed emission hlogged
  rw [hid] at hfound hchore
  cases hi.symm.trans hfound
  rw [InstKind.accessSlots_eq ha, ← Planned.map_slot_chores { id, access }]
  exact hslot ▸ List.mem_map_of_mem hchore

/-- What is retired was a part of a fold. -/
theorem foldedPart (hd : d.Logged f symbols cx log) (hwithin : symbols.Within cx.symbols)
    {id : InstId} (h : Retired log id) :
    f.FoldedPart symbols cx.layout cx.region.width d.base.loaded d.func (emitted log) id := by
  obtain ⟨reader, slot, fold, row, hlogged, hpart⟩ := h
  have howed := hd.owed _ hlogged
  obtain ⟨inst, access, v, target, hi, ha, hslot, -⟩ := howed.address
  refine ⟨reader, inst, access, slot, fold, row, hi, ha, hslot,
    addressRow_of_stands hwithin hi howed (hd.stands _ hlogged), row_infix_emitted hlogged, hpart⟩

end Draft.Logged

namespace Func.Recorded

variable {f : Func} {symbols : SymbolTable} {cx : Context} {plan : Plan} {log : List Emission}
  {d : Draft} {id : InstId} {inst : Inst} {access : Access}

/-- The group of an access has a row for each of its slots. -/
theorem rows (hd : f.Recorded symbols cx plan log d) (hf : f.Placed)
    (hwithin : symbols.Within cx.symbols) (hi : f.inst? id = some inst)
    (ha : inst.kind.access? = some access) :
    List.Forall₂ (f.Serves symbols cx.layout cx.region.width d.base.loaded d.func inst access)
      access.slots ((about log id).map Emission.row) := by
  have hchores := hd.map_chore_about hf hi ha
  rw [← Planned.map_slot_chores { id, access }, ← hchores, List.map_map, List.forall₂_map_left_iff,
    List.forall₂_map_right_iff, List.forall₂_same]
  intro emission hmem
  have hchore : emission.chore ∈ ({ id, access } : Planned).chores :=
    hchores ▸ List.mem_map_of_mem hmem
  obtain ⟨hlogged, hid⟩ := mem_about.mp hmem
  have howed := hd.logged.owed emission hlogged
  have hstands := hd.logged.stands emission hlogged
  cases emission with
  | address reader slot landing row =>
    obtain rfl : reader = id := hid
    exact .address (Planned.pointer_of_mem_chores hchore)
      (addressRow_of_stands hwithin hi howed hstands)
  | length reader slot row =>
    obtain rfl : reader = id := hid
    exact .length (Planned.length_of_mem_chores hchore)
      (lengthRow_of_stands hwithin hi howed hstands)

/-- A body with a full log is undisturbed. -/
theorem undisturbed (hd : f.Recorded symbols cx plan log d) (hf : f.Placed)
    (hwithin : symbols.Within cx.symbols) :
    f.Undisturbed symbols cx.layout cx.region.width d.base.loaded d.func (emitted log) where
  name := congrArg (·.1) hd.logged.laid.interface
  params := hd.logged.params
  ret := congrArg (·.2.2) hd.logged.laid.interface
  labels := by
    refine List.ext_getElem? fun b => ?_
    have hb := hd.logged.laid.lists b
    rw [Func.block?, Func.block?] at hb
    rw [List.getElem?_map, List.getElem?_map, hb, Option.map_map]
    rfl
  idle := by
    intro hquiet
    apply hd.nothing
    rw [List.eq_nil_iff_forall_not_mem]
    intro planned hp
    obtain ⟨inst, hi, ha, -⟩ := accessOk_of_plan hd.plan_eq hp
    rw [hquiet _ inst hi] at ha
    cases ha
  kept := by
    intro id inst later hi hlater
    exact ⟨written log id, hd.logged.written_slots hi, hd.logged.kept_of_live hi hlater⟩
  erased := by
    intro id inst hi hgone
    rcases hd.logged.kept id inst hi with hlive | ⟨-, hretired⟩
    · rw [hgone] at hlive
      cases hlive
    · exact hd.logged.foldedPart hwithin hretired
  order := by
    intro b block hblock
    have hb := hd.logged.laid.lists b
    rw [hblock, Option.map_some] at hb
    exact ⟨_, hb, hd.logged.laid.filter_eq hf hblock⟩
  lists := by
    intro b block hblock
    rw [hd.logged.laid.lists, hblock, Option.map_some]
  base_eq := by
    intro b hb
    refine ⟨?_, _, hd.logged.base b hb⟩
    rw [← Option.not_isSome_iff_eq_none]
    intro hsome
    obtain ⟨inst, hi⟩ := Option.isSome_iff_exists.mp hsome
    exact Nat.not_lt.mpr (hd.logged.laid.base_new b hb) (lt_size_of_inst? hi)
  rows := fun id inst access hi ha =>
    ⟨(about log id).map Emission.row, List.flatMap_def .., hd.rows hf hwithin hi ha⟩
  inserted := by
    intro id hlive hnew
    rcases hd.logged.laid.inserted hf hlive hnew with hbase | ⟨reader, hreader, hmem⟩
    · exact Or.inl hbase
    · obtain ⟨emission, hlogged, hid, -⟩ := mem_emitted.mp hmem
      obtain ⟨inst, hi, ha⟩ := (hd.logged.owed emission hlogged).access
      exact Or.inr ⟨reader, inst, hid ▸ hi, ha, hreader, hmem⟩

end Func.Recorded

/-! ## A module -/

/-- The symbols of a region leave the rest of the module alone. -/
theorem Region.install_frame {m m' : Module} {width : Width} {region : Region}
    (h : (Region.install width).run m = .ok region m') : m'.name = m.name ∧ m'.flags = m.flags := by
  obtain ⟨m₁, hbase, hsize, -⟩ := install_steps h
  obtain ⟨-, -, rfl⟩ := Linking.addGlobal_eq_ok hsize
  rcases Linking.globalOfType_eq_ok hbase with ⟨-, -, -, rfl⟩ | ⟨-, -, rfl⟩ <;> exact ⟨rfl, rfl⟩

/-- A run that succeeds leaves alone what it does not have to change: the module keeps its name, its
layout, its globals in front of those of the region and its flags beside its own, and every function
is undisturbed. -/
theorem Pass.run_undisturbed {pass : Pass} {m m' : Module} {report : Report} (hm : m.Built)
    (h : pass.run.run m = .ok report m') :
    m'.name = m.name ∧ m'.layout = m.layout ∧ m.globals <+: m'.globals ∧
      m'.flags = m.flags.insert sandboxedFlag ∧
      List.Forall₂ (fun f g => (f.isDeclaration = true → g = f) ∧
        ∃ base group, f.Undisturbed m.symbols m.layout pass.width base g group)
        m.functions m'.functions := by
  obtain ⟨region, m₁, hregion, hm', -, hall⟩ := run_logged hm h
  obtain ⟨hwidth, -, hlayout, -⟩ := Region.install_eq_ok hregion
  obtain ⟨hname, hflags⟩ := Region.install_frame hregion
  refine ⟨?_, ?_, ?_, ?_, hall.imp ?_⟩
  · rw [hm', ← hname]
    rfl
  · rw [hm', ← hlayout]
    rfl
  · rw [hm']
    exact (Region.install_extends hregion).globals
  · rw [hm', ← hflags]
    rfl
  · rintro f g ⟨hf, hdecl, plan, log, d, rfl, hd⟩
    have hundisturbed := hd.undisturbed (hm f hf).placed (Region.install_within hregion)
    change f.Undisturbed m.symbols m₁.layout region.width d.base.loaded d.func (emitted log)
      at hundisturbed
    rw [hlayout, hwidth] at hundisturbed
    exact ⟨hdecl, _, _, hundisturbed⟩

/-! ## Two accesses through one conversion -/

/-- A function that loads and stores through the sum of a parameter and 4. The addition and the
conversion have source positions, and both accesses fold them. -/
def sharedCast : Func :=
  [.addBlock "entry",
    .append 0 (.binary .add (.arg 0) (.int 32 4)) (.int 32),
    .setLoc 0 (some ⟨3, 1⟩),
    .append 0 (.cast .inttoptr (.inst 0)) (.ptr (.int 32)),
    .setLoc 1 (some ⟨3, 5⟩),
    .append 0 (.load (.inst 1)) (.int 32),
    .append 0 (.store (.inst 2) (.inst 1)) .void,
    .append 0 (.ret none) .void].foldl Operation.apply
    (.declare "shared" [.int 32] .void)

/-- A module of this function and a declaration. -/
def sharedCastModule : Module where
  name := "shared"
  layout := {}
  functions := [sharedCast, .declare "other" [.ptr (.int 8)] .void]
  globals := []
  flags := ["noted"]

theorem sharedCastModule_built : sharedCastModule.Built := by
  intro f hf
  rcases List.mem_cons.mp hf with rfl | hf
  · exact (Func.Built.declare _ _ _).history _
  · rw [List.mem_singleton.mp hf]
    exact .declare _ _ _

theorem sharedCastModule_succeeds :
    Pass.narrow.succeeds sharedCastModule (fun report _ => report.tally.removed == 2) = true := by
  decide +kernel

theorem sharedCastModule_undisturbed : ∃ report m',
    Pass.narrow.run.run sharedCastModule = .ok report m' ∧ report.tally.removed = 2 ∧
      m'.flags = ["noted"].insert sandboxedFlag ∧
      List.Forall₂ (fun f g => (f.isDeclaration = true → g = f) ∧ ∃ base group,
        f.Undisturbed sharedCastModule.symbols sharedCastModule.layout Pass.narrow.width base g group)
        sharedCastModule.functions m'.functions := by
  obtain ⟨report, m', hrun, hremoved⟩ := Pass.run_of_succeeds sharedCastModule_succeeds
  obtain ⟨-, -, -, hflags, hall⟩ := Pass.run_undisturbed sharedCastModule_built hrun
  exact ⟨report, m', hrun, eq_of_beq hremoved, hflags, hall⟩

end Confinement
