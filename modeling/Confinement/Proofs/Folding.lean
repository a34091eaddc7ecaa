import Confinement.Proofs.Logs

/-!
# Folds are those of the body

Whether an address folds is looked up in the function as the work on earlier slots has left it:
slots read new addresses, and conversions and additions that nothing read any more are gone. The
answer is the one that the body itself gives. A slot that awaits its turn still reads its conversion,
and the conversion the addition; with exact counters what is read stays, and what stays and is no
access is what it was (`Func.fold?_of_read`). So neither the work on earlier slots nor the order in
which a plan is carried out decides which accesses fold, or how (`Edit.confineBody_folds`).
-/

set_option autoImplicit false

namespace Confinement

open Func

/-! ## Folds of what is read -/

namespace Func

variable {f g : Func} {ids : List InstId} {base b : Option InstId} {address : Value} {fold : Fold}

/-- What is read and was no access is still there, as it was. -/
theorem stays_of_read {id : InstId} {inst : Inst} (hfg : f.Advances f.cells.size ids base g)
    (hup : f.Upholds b g) (hi : f.inst? id = some inst) (hquiet : inst.kind.access? = none)
    (hread : 0 < g.reads id) :
    ∃ later, g.inst? id = some later ∧ later.kind = inst.kind ∧ later.ty = inst.ty := by
  obtain ⟨later, hlater⟩ := hup.live hi hread
  obtain ⟨old, hold, hty, -, hkind⟩ := hfg.back id later (lt_size_of_inst? hi) hlater
  cases hi.symm.trans hold
  exact ⟨later, hlater, hkind hquiet, hty⟩

/-- A fold of the body is found while the body is confined, as long as the address is read. -/
theorem fold?_of_read {size subspace : Nat} (hfg : f.Advances f.cells.size ids base g)
    (hup : f.Upholds b g) (hread : ∀ id, address = .inst id → 0 < g.reads id)
    (h : f.fold? address size subspace = some fold) :
    g.fold? address size subspace = some fold := by
  obtain ⟨haddress, castInst, addInst, c, offset, hcast, hcastKind, hadd, haddTy, haddKind, hoffset,
    hguard, hfold⟩ := fold?_eq_some_iff.mp h
  obtain ⟨castLater, hcast, hkind, -⟩ :=
    stays_of_read hfg hup hcast (by rw [hcastKind]; rfl) (hread fold.cast haddress)
  rw [hcastKind] at hkind
  -- the conversion is there, and reads the addition
  have hslot : castLater.kind.operand? 0 = some (.inst fold.add) := by
    rw [hkind]
    rfl
  obtain ⟨addLater, hadd, hkind', hty⟩ :=
    stays_of_read hfg hup hadd (by rw [haddKind]; rfl) (reads_pos_of_operand? hcast hslot)
  exact fold?_eq_some_iff.mpr ⟨haddress, castLater, addLater, c, offset, hcast, hkind, hadd,
    hty.trans haddTy, hkind'.trans haddKind, hoffset, hguard, hfold⟩

/-- The fold that applies to an address that is read is the one that applies in the body. -/
theorem foldFor?_eq {cx : Context} {slot : PointerSlot} {pointee : Ty}
    (hfg : f.Advances f.cells.size ids base g) (hup : f.Upholds b g) (hground : f.Grounded)
    (hgiven : ∀ id, address = .inst id → id < f.cells.size)
    (hread : ∀ id, address = .inst id → 0 < g.reads id) :
    g.foldFor? cx slot address pointee = f.foldFor? cx slot address pointee := by
  apply Option.ext
  intro fold
  rw [foldFor?_eq_some_iff, foldFor?_eq_some_iff]
  exact and_congr_right fun _ =>
    ⟨fold?_of_advances hfg hground hgiven, fold?_of_read hfg hup hread⟩

/-- How the body has an address confined: as a fold if one applies, else as it is. -/
def landing (f : Func) (cx : Context) (slot : PointerSlot) (address : Value) (pointee : Ty) :
    Landing :=
  match f.foldFor? cx slot address pointee with
  | some fold => .folded fold
  | none => .plain address

theorem landing_of_foldFor? {cx : Context} {slot : PointerSlot} {pointee : Ty}
    (h : f.foldFor? cx slot address pointee = some fold) :
    f.landing cx slot address pointee = .folded fold := by
  rw [landing, h]

/-- A landing that takes the place of an address is that of the body if it folds whenever one
applies. -/
theorem landing_of_takes {cx : Context} {slot : PointerSlot} {pointee : Ty} {landing : Landing}
    (htakes : landing.Takes f cx.layout cx.region.width slot address pointee)
    (hfolds : (∃ fold, f.foldFor? cx slot address pointee = some fold) →
      ∃ fold, landing = .folded fold) :
    landing = f.landing cx slot address pointee := by
  cases landing with
  | folded fold => exact (landing_of_foldFor? (foldFor?_eq_some_iff.mpr htakes)).symm
  | plain found =>
    obtain rfl : found = address := htakes
    rw [Func.landing]
    cases hfold : f.foldFor? cx slot found pointee with
    | none => rfl
    | some fold =>
      obtain ⟨taken, he⟩ := hfolds ⟨fold, hfold⟩
      cases he

end Func

/-! ## One slot at its turn -/

section Turn

variable {f : Func} {symbols : SymbolTable} {cx : Context} {log : List Emission} {d e : Draft}
  {id : InstId} {slot : PointerSlot}

/-- A slot that awaits its turn holds what it held, with the type and the fold that it had. -/
theorem Draft.Logged.awaits (hd : d.Logged f symbols cx log) (hf : f.Prepared cx)
    (hup : f.Upholds none d.func) (hwithin : symbols.Within cx.symbols)
    (howed : (Chore.address id slot).Owed f symbols)
    (hnew : (id, slot.index) ∉ log.map (·.chore.place)) :
    ∃ inst address pointee, f.inst? id = some inst ∧
      inst.kind.operand? slot.index = some address ∧ f.HasType symbols address (.ptr pointee) ∧
      d.func.operand? id slot.index = some address ∧
      d.func.HasType cx.symbols address (.ptr pointee) ∧
      d.func.foldFor? cx slot address pointee = f.foldFor? cx slot address pointee := by
  obtain ⟨inst, access, address, pointee, hi, ha, -, ho, hty⟩ := howed.address
  have hlater := hd.inst?_of_access hi (ha.trans_ne (Option.some_ne_none access))
  have hheld := (operand?_written inst.kind hnew).trans ho
  have hread : ∀ other, address = .inst other → 0 < d.func.reads other := fun other he =>
    reads_pos_of_operand? hlater (he ▸ hheld)
  exact ⟨inst, address, pointee, hi, ho, hty, (operand?_eq hlater _).trans hheld,
    HasType.later hty hwithin hd.advances hup hread,
    foldFor?_eq hd.advances hup hf.grounded (fun other => lt_size_of_valueType hty) hread⟩

/-- At its turn a slot is confined as the body says. -/
theorem Draft.Logged.address_lands {outcome : PointerOutcome} (hd : d.Logged f symbols cx log)
    (hf : f.Prepared cx) (hup : f.Upholds none d.func) (hwithin : symbols.Within cx.symbols)
    (howed : (Chore.address id slot).Owed f symbols)
    (hnew : (id, slot.index) ∉ log.map (·.chore.place))
    (hrun : (Drafting.confinePointer cx id slot).run d = .ok outcome e) :
    ∃ inst address pointee row, f.inst? id = some inst ∧
      inst.kind.operand? slot.index = some address ∧ f.HasType symbols address (.ptr pointee) ∧
      (outcome.folded = true ↔ ∃ fold, f.foldFor? cx slot address pointee = some fold) ∧
      Emission.Turns (.address id slot (f.landing cx slot address pointee) row) d.func e.func ∧
      e.Logged f symbols cx
        (log ++ [.address id slot (f.landing cx slot address pointee) row]) := by
  obtain ⟨landing, row, hlanding, hturns, he⟩ := hd.address hf.placed hf.grounded howed hnew hrun
  obtain ⟨b, u, address, pointee, g, hbase, -, haddress, hty, hcase⟩ :=
    Drafting.confinePointer_eq_ok hrun
  -- behind the load of the base the slot is asked for what it holds
  obtain ⟨hu, -⟩ := hd.loadBase hf.placed hbase
  obtain ⟨old, hold, hne⟩ := howed.access
  have hdu := Drafting.loadBase_upholds (hup.placed hf.placed) (hd.inst?_of_access hold hne) hbase
  obtain ⟨inst, held, target, hi, ho, htarget, hheld, hlater, hsame⟩ :=
    hu.awaits hf (hup.trans hdu.func) hwithin howed hnew
  cases haddress.symm.trans hheld
  cases Except.ok.inj (hty.symm.trans hlater)
  rw [hsame] at hcase
  have houtcome : outcome.folded = true ↔
      ∃ fold, f.foldFor? cx slot address pointee = some fold := by
    rcases hcase with ⟨hnone, -, -, -, rfl⟩ | ⟨fold, -, -, -, hsome, -, -, -, rfl⟩
    · simp [hnone]
    · simp [hsome]
  refine ⟨inst, address, pointee, row, hi, ho, htarget, houtcome, ?_⟩
  -- the row in the log is one for this fold, or for the address
  obtain ⟨-, same, held, target, -, -, hsame, hheld, htarget', htakes, -⟩ :=
    he.stands _ (List.mem_append_right log (List.mem_singleton.mpr rfl))
  cases hi.symm.trans hsame
  cases ho.symm.trans hheld
  cases Except.ok.inj ((HasType.within htarget hwithin).symm.trans htarget')
  rw [← landing_of_takes htakes fun hfold => hlanding.mp (houtcome.mpr hfold)]
  exact ⟨hturns, he⟩

theorem written_append (log more : List Emission) (id : InstId) :
    written (log ++ more) id = written log id ++ written more id := by
  rw [written, about, List.filter_append, List.flatMap_append]
  rfl

/-- In the end a slot reads the last member of its row. -/
theorem Draft.Logged.operand?_emission {before after : List Emission} {emission : Emission}
    {inst : Inst} {last : InstId} (hd : d.Logged f symbols cx (before ++ emission :: after))
    (hi : f.inst? emission.chore.id = some inst)
    (hslot : emission.chore.slot < inst.kind.operands.length)
    (hnew : emission.chore.place ∉ after.map (·.chore.place))
    (hlast : emission.row.getLast? = some last) :
    d.func.operand? emission.chore.id emission.chore.slot = some (.inst last) := by
  obtain ⟨same, hsame, hne⟩ := (hd.owed emission (by simp)).access
  cases hi.symm.trans hsame
  rw [operand?_eq (hd.inst?_of_access hi hne), List.append_cons, written_append,
    InstKind.setOperands_append, operand?_written _ hnew, written_concat, if_pos rfl,
    InstKind.setOperands_append, rowWrites_of_last hlast]
  apply InstKind.operand?_setOperand_self
  rwa [InstKind.length_operands_setOperands]

end Turn

/-! ## A row of chores -/

/-- A slot has its turn in a row of chores: some are done before it, it is confined with an outcome,
and the others are done behind it. -/
def Draft.Visits (cx : Context) (start : Draft) (chores : List Chore) (last : Draft) (id : InstId)
    (slot : PointerSlot) (outcome : PointerOutcome) : Prop :=
  ∃ done later before d e behind, chores = done ++ .address id slot :: later ∧
    (Drafting.performAll cx done).run start = .ok before d ∧
    (Drafting.confinePointer cx id slot).run d = .ok outcome e ∧
    (Drafting.performAll cx later).run e = .ok behind last

/-- The body decides how a slot is confined: it folds exactly when a single value is accessed there
and its address is a fold of the body, and in the end it reads the row for that fold, or for its
address. -/
def Func.ConfinesAs (f : Func) (symbols : SymbolTable) (cx : Context) (last : Draft) (id : InstId)
    (slot : PointerSlot) (outcome : PointerOutcome) : Prop :=
  ∃ inst address pointee, f.inst? id = some inst ∧
    inst.kind.operand? slot.index = some address ∧
    f.valueType symbols address = .ok (.ptr pointee) ∧
    (outcome.folded = true ↔ slot.firstClass = true ∧ ∃ fold,
      f.fold? address (cx.layout.storeSize pointee) cx.region.width.size = some fold) ∧
    ∃ base row pointer, last.base.loaded = some base ∧
      last.func.operand? id slot.index = some (.inst pointer) ∧
      f.LandRow last.func cx.region.width inst.block base (.ptr pointee)
        (f.landing cx slot address pointee) row pointer

section Row

variable {f : Func} {symbols : SymbolTable} {cx : Context} {chores : List Chore}
  {start last : Draft} {id : InstId} {slot : PointerSlot} {tally : Tally} {outcome : PointerOutcome}

/-- Every slot of a row of chores has its turn. -/
theorem Drafting.visits_of_mem (hrun : (performAll cx chores).run start = .ok tally last)
    (hmem : .address id slot ∈ chores) :
    ∃ outcome, Draft.Visits cx start chores last id slot outcome := by
  obtain ⟨done, later, rfl⟩ := List.append_of_mem hmem
  obtain ⟨before, d, rest, hdone, hrest, -⟩ := performAll_append_eq_ok.mp hrun
  obtain ⟨here, e, behind, hhere, hlater, -⟩ := performAll_cons_eq_ok.mp hrest
  obtain ⟨outcome, hpointer, -⟩ := perform_address_eq_ok.mp hhere
  exact ⟨outcome, done, later, before, d, e, behind, rfl, hdone, hpointer, hlater⟩

/-- At its turn a slot is confined as the body says, if no slot has two turns. -/
theorem Draft.Visits.confinesAs (hf : f.Prepared cx) (hwithin : symbols.Within cx.symbols)
    (howed : ∀ chore ∈ chores, chore.Owed f symbols) (honce : (chores.map Chore.place).Nodup)
    (h : Draft.Visits cx { func := f, base := .start cx.region.memoryBase } chores last id slot
      outcome) :
    f.ConfinesAs symbols cx last id slot outcome := by
  obtain ⟨done, later, before, d, e, behind, rfl, hdone, hrun, hlater⟩ := h
  rw [List.forall_mem_append, List.forall_mem_cons] at howed
  have hparts := honce
  rw [List.map_append, List.map_cons, List.nodup_append, List.nodup_cons] at hparts
  obtain ⟨honceDone, ⟨hafter, -⟩, happart⟩ := hparts
  -- what is done before the turn leaves a log, and the slot is not in it
  obtain ⟨log, rfl, hd, hup⟩ := (Draft.Logged.start hf.placed symbols cx).works hf.placed
    hf.grounded howed.1 honceDone (Drafting.performAll_works hdone)
  rw [List.nil_append] at hd
  have hnew : (id, slot.index) ∉ log.map (·.chore.place) := fun hmem =>
    happart _ (by rwa [List.map_map]) _ List.mem_cons_self rfl
  obtain ⟨inst, address, pointee, row, hi, ho, hty, houtcome, -, he⟩ :=
    hd.address_lands hf (hup hf (.refl none f)) hwithin howed.2.1 hnew hrun
  -- what is done behind it adds to the log
  rw [List.map_append, List.map_map, List.map_cons, List.append_cons] at honce
  obtain ⟨more, rfl, hlast, -⟩ := he.works hf.placed hf.grounded howed.2.2
    (by rwa [List.map_append]) (Drafting.performAll_works hlater)
  rw [List.append_assoc] at hlast
  obtain ⟨base, same, held, target, pointer, hbase, hsame, hheld, htarget, -, hrow⟩ :=
    hlast.stands (.address id slot (f.landing cx slot address pointee) row) (by simp)
  cases hi.symm.trans hsame
  cases ho.symm.trans hheld
  cases Except.ok.inj ((HasType.within hty hwithin).symm.trans htarget)
  have hpointer := hlast.operand?_emission hi (List.getElem?_eq_some_iff.mp ho).1
    (by rwa [List.map_map] at hafter) hrow.getLast?
  simp only [foldFor?_eq_some_iff, exists_and_left] at houtcome
  exact ⟨inst, address, pointee, hi, ho, hty, houtcome, base, row, pointer, hbase, hpointer, hrow⟩

end Row

/-! ## A plan in any order -/

section Order

variable {f : Func} {symbols : SymbolTable} {cx : Context} {plan entries : Plan}

/-- The entries of a plan can be confined in any order, and their chores are performed in that
order. -/
theorem Edit.confineBody_reordered (hf : f.Prepared cx) (hplan : f.plan symbols = .ok plan)
    (hwithin : symbols.Within cx.symbols) (horder : entries.Perm plan) :
    ∃ body last, (Edit.confineBody cx entries).run f = .ok body last.func ∧
      (Drafting.performAll cx (entries.flatMap Planned.chores)).run
        { func := f, base := .start cx.region.memoryBase } = .ok body.tally last := by
  have haccess : ∀ planned ∈ entries, ∃ inst, f.inst? planned.id = some inst ∧
      inst.kind.access? = some planned.access ∧ f.AccessOk symbols inst.kind planned.access :=
    fun planned hp => accessOk_of_plan hplan (horder.mem_iff.mp hp)
  have honce : (entries.map (·.id)).Nodup :=
    (horder.map (·.id)).nodup_iff.mpr (nodup_plan hplan hf.placed.nodup_order)
  obtain ⟨tally, last, hrun, -, -⟩ := Drafting.confinePlan_succeeds hf hwithin
    (Draft.Follows.start f cx.region.memoryBase) haccess honce fun _ _ => rfl
  refine ⟨_, last, confineBody_of_confinePlan hrun, ?_⟩
  refine Drafting.confinePlan_performs hrun fun planned hp => ?_
  obtain ⟨inst, hi, ha, -⟩ := haccess planned hp
  exact Option.bind_eq_some_iff.mpr ⟨inst, hi, ha⟩

/-- With exact counters every slot of a plan is confined as the body says, in whatever order the
entries come. -/
theorem Edit.confineBody_folds (hplaced : f.Placed) (hexact : f.Exact)
    (hplan : f.plan symbols = .ok plan) (hwithin : symbols.Within cx.symbols)
    (horder : entries.Perm plan) :
    ∃ body last, (Edit.confineBody cx entries).run f = .ok body last.func ∧
      ∀ planned ∈ plan, ∀ slot ∈ planned.access.pointers, ∃ outcome,
        Draft.Visits cx { func := f, base := .start cx.region.memoryBase }
          (entries.flatMap Planned.chores) last planned.id slot outcome ∧
        f.ConfinesAs symbols cx last planned.id slot outcome := by
  have hf : f.Prepared cx := hplaced.prepared (hexact.trusted _ _ _) hplan
  obtain ⟨body, last, hbody, hperform⟩ := confineBody_reordered hf hplan hwithin horder
  refine ⟨body, last, hbody, fun planned hplanned slot hslot => ?_⟩
  -- the chores are those of the plan in another order
  have hchores := horder.flatMap_right Planned.chores
  have howed : ∀ chore ∈ entries.flatMap Planned.chores, chore.Owed f symbols := fun chore hmem =>
    owed_of_plan hplan chore (hchores.mem_iff.mp hmem)
  have honce : ((entries.flatMap Planned.chores).map Chore.place).Nodup :=
    (hchores.map Chore.place).nodup_iff.mpr (nodup_places hplan hplaced.nodup_order)
  have hmem : Chore.address planned.id slot ∈ entries.flatMap Planned.chores := by
    refine List.mem_flatMap.mpr ⟨planned, horder.mem_iff.mpr hplanned, ?_⟩
    exact List.mem_append_left _ (List.mem_map_of_mem hslot)
  obtain ⟨outcome, hvisits⟩ := Drafting.visits_of_mem hperform hmem
  exact ⟨outcome, hvisits, hvisits.confinesAs hf hwithin howed honce⟩

end Order

/-- A function that loads twice through the sum of a parameter and 4, and stores through that sum
plus 8: two accesses share a conversion, and the addition of one fold is the index of another. -/
def chained : Func :=
  [.addBlock "entry",
    .append 0 (.binary .add (.arg 0) (.int 32 4)) (.int 32),
    .append 0 (.cast .inttoptr (.inst 0)) (.ptr (.int 32)),
    .append 0 (.load (.inst 1)) (.int 32),
    .append 0 (.load (.inst 1)) (.int 32),
    .append 0 (.binary .add (.inst 0) (.int 32 8)) (.int 32),
    .append 0 (.cast .inttoptr (.inst 4)) (.ptr (.int 32)),
    .append 0 (.store (.inst 2) (.inst 5)) .void,
    .append 0 (.ret none) .void].foldl Operation.apply
    (.declare "chained" [.int 32] .void)

/-- A region of 8 bits for this function. -/
def chainedContext : Context where
  region := { width := Pass.narrow.width, memoryBase := 0, pointerSize := 1 }
  symbols := { globals := [{ name := baseSymbol, ty := .ptr (.int 64) }], functions := [] }
  layout := {}

/-- The accesses of this function. -/
def chainedPlan : Plan :=
  [{ id := 2, access := .value 0 },
    { id := 3, access := .value 0 },
    { id := 6, access := .value 1 }]

/-- Carried out from the last access to the first, all three fold. -/
theorem chained_served : ∃ body g,
    (Edit.confineBody chainedContext chainedPlan.reverse).run chained = .ok body g ∧
      body.tally.folded = 3 := by
  have hruns : (Edit.confineBody chainedContext chainedPlan.reverse).succeeds chained
      (fun body _ => body.tally.folded == 3) = true := by decide +kernel
  obtain ⟨body, g, hrun, hfolded⟩ := Edit.run_of_succeeds hruns
  exact ⟨body, g, hrun, eq_of_beq hfolded⟩

theorem chained_folds : ∃ body last,
    (Edit.confineBody chainedContext chainedPlan.reverse).run chained = .ok body last.func ∧
      body.tally.folded = 3 ∧
      ∀ planned ∈ chainedPlan, ∀ slot ∈ planned.access.pointers, ∃ outcome,
        Draft.Visits chainedContext { func := chained, base := .start 0 }
          (chainedPlan.reverse.flatMap Planned.chores) last planned.id slot outcome ∧
        chained.ConfinesAs { globals := [], functions := [] } chainedContext last planned.id slot
          outcome := by
  have hplaced : chained.Placed := ((Func.Built.declare _ _ _).history _).placed
  have hplan : chained.plan { globals := [], functions := [] } = .ok chainedPlan := by
    decide +kernel
  have hwithin : ({ globals := [], functions := [] } : SymbolTable).Within chainedContext.symbols :=
    ⟨List.nil_prefix, rfl⟩
  obtain ⟨body, last, hrun, hall⟩ := Edit.confineBody_folds hplaced (by decide +kernel) hplan
    hwithin (List.reverse_perm chainedPlan)
  obtain ⟨served, g, hserved, hfolded⟩ := chained_served
  cases hrun.symm.trans hserved
  exact ⟨body, last, hrun, hfolded, hall⟩

end Confinement
