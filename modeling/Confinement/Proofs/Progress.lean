import Confinement.Proofs.AuditSound
import Confinement.Proofs.Bodies
import Confinement.Proofs.Upkeep

/-!
# Confining an address succeeds

The edits that confine an address ask for what they need each time: an anchor that is live and listed,
values that are there, a result that nothing is counted to read. What confining relies on is that the
body is placed, that the counters of what its accesses may remove are not too low, and that the data
of other instructions is there (`Func.Prepared`): what is removed is then read by nobody, and what a
later access reads keeps its type (`HasType.later`). The emitted instructions can be inserted
(`Edit.emitPlain_grows`, `Edit.emitFolded_grows`), and a fold can be retired (`Edit.retire_upholds`).
-/

set_option autoImplicit false

namespace Confinement

open Func

/-! ## What confining relies on -/

/-- A live access has an address in a slot. -/
def Func.Accesses (f : Func) (id : InstId) (slot : PointerSlot) (address : Value) : Prop :=
  ∃ inst access, f.inst? id = some inst ∧ inst.kind.access? = some access ∧
    slot ∈ access.pointers ∧ inst.kind.operand? slot.index = some address

/-- No slot that reads a part of a fold is missing from its counter. -/
def Func.Counts (f : Func) (fold : Fold) : Prop :=
  f.reads fold.cast ≤ f.useCount fold.cast ∧ f.reads fold.add ≤ f.useCount fold.add

/-- Where an access of a single value has an address that folds at a width, the reads of the parts
of the fold are counted. -/
def Func.Trusted (f : Func) (symbols : SymbolTable) (layout : DataLayout) (width : Width) : Prop :=
  ∀ id slot address pointee fold, f.Accesses id slot address → slot.firstClass = true →
    f.HasType symbols address (.ptr pointee) →
    f.fold? address (layout.storeSize pointee) width.size = some fold → f.Counts fold

theorem Func.Exact.counts {f : Func} (hf : f.Exact) (fold : Fold) : f.Counts fold :=
  ⟨Nat.le_of_eq (hf fold.cast).symm, Nat.le_of_eq (hf fold.add).symm⟩

theorem Func.Exact.trusted {f : Func} (hf : f.Exact) (symbols : SymbolTable) (layout : DataLayout)
    (width : Width) : f.Trusted symbols layout width := fun _ _ _ _ fold _ _ _ _ => hf.counts fold

/-- If an instruction converts a result to an address, are the reads of both counted? -/
def Func.countsConversion (f : Func) (id : InstId) (inst : Inst) : Bool :=
  match inst.kind with
  | .cast .inttoptr (.inst sum) => f.reads id ≤ f.useCount id ∧ f.reads sum ≤ f.useCount sum
  | _ => true

theorem Func.trusted_of_countsConversion {f : Func} {symbols : SymbolTable} {layout : DataLayout}
    {width : Width} (h : ∀ id inst, f.inst? id = some inst → f.countsConversion id inst = true) :
    f.Trusted symbols layout width := by
  intro id slot address pointee fold _ _ _ hfold
  obtain ⟨-, castInst, -, -, -, hcast, hkind, -⟩ := Func.fold?_eq_some_iff.mp hfold
  have hcounts := h fold.cast castInst hcast
  rw [countsConversion, hkind] at hcounts
  show f.reads fold.cast ≤ f.useCount fold.cast ∧ f.reads fold.add ≤ f.useCount fold.add
  exact of_decide_eq_true hcounts

/-- A body that was planned, with counters that removals can trust. -/
structure Func.Prepared (f : Func) (cx : Context) : Prop where
  placed : f.Placed
  trusted : f.Trusted cx.symbols cx.layout cx.region.width
  /-- The data operands of an instruction that must not carry addresses are there. -/
  known : ∀ id inst v, f.inst? id = some inst → inst.kind.route = .validate →
    v ∈ inst.kind.dataOperands → f.Resolves v

namespace Func

variable {f g : Func} {cx : Context} {symbols table : SymbolTable} {v : Value} {ty : Ty}
  {id : InstId} {inst : Inst} {base : Option InstId} {slot : PointerSlot}

theorem Accesses.lt_size (h : f.Accesses id slot v) : id < f.cells.size := by
  obtain ⟨inst, access, hi, -⟩ := h
  exact lt_size_of_inst? hi

theorem HasType.resolves (h : f.HasType symbols v ty) : f.Resolves v := by
  rintro id rfl
  cases hi : f.inst? id with
  | some inst => exact ⟨inst, rfl⟩
  | none =>
    rw [HasType] at h
    simp only [valueType, hi] at h
    cases h

theorem Resolves.lt_size (h : f.Resolves v) : ∀ id, v = .inst id → id < f.cells.size := by
  intro id he
  obtain ⟨inst, hi⟩ := h id he
  exact lt_size_of_inst? hi

theorem Placed.prepared {plan : Plan} (hf : f.Placed)
    (htrusted : f.Trusted cx.symbols cx.layout cx.region.width)
    (hplan : f.plan symbols = .ok plan) : f.Prepared cx where
  placed := hf
  trusted := htrusted
  known := by
    intro id inst v hi hroute hv
    have hid := hf.mem_order.mpr ⟨inst, hi⟩
    obtain ⟨ty, hty, -⟩ := carriesNoPointer_of_plan hplan hid hi hroute v hv
    exact HasType.resolves hty

theorem Prepared.grounded (hf : f.Prepared cx) : f.Grounded := fun id inst other hi hroute hmem =>
  (hf.known id inst _ hi hroute hmem).lt_size other rfl

/-- The index of a fold of the body is there. -/
theorem Prepared.index (hf : f.Prepared cx) {address : Value} {size subspace : Nat} {fold : Fold}
    (h : f.fold? address size subspace = some fold) : f.Resolves fold.index := by
  obtain ⟨-, castInst, addInst, c, offset, -, -, hadd, -, haddKind, -⟩ :=
    Func.fold?_eq_some_iff.mp h
  apply hf.known fold.add addInst fold.index hadd
  · rw [haddKind]
    rfl
  · rw [haddKind]
    exact List.mem_cons_self

/-- A live instruction of a placed function stands in its block. -/
theorem Placed.place?_eq (hf : f.Placed) (hi : f.inst? id = some inst) :
    ∃ place, f.place? id = some (inst.block, place) := by
  obtain ⟨block, hblock⟩ := Option.isSome_iff_exists.mp (hf.block id inst hi)
  have hmem : id ∈ block.insts := (hf.mem inst.block block id hblock).mpr ⟨inst, hi, rfl⟩
  cases hidx : block.insts.idxOf? id with
  | none => exact absurd hmem (List.idxOf?_eq_none_iff.mp hidx)
  | some place =>
    refine ⟨place, ?_⟩
    rw [place?]
    simp only [hi, hblock, hidx, Option.bind_eq_bind, Option.bind_some, Option.pure_def]

/-- A function with a live instruction has an entry block. -/
theorem Placed.isSome_entryBlock (hf : f.Placed) (hi : f.inst? id = some inst) :
    (f.block? 0).isSome := by
  obtain ⟨block, hblock⟩ := Option.isSome_iff_exists.mp (hf.block id inst hi)
  have hlt : inst.block < f.blocks.length := (List.getElem?_eq_some_iff.mp hblock).1
  rw [block?, List.getElem?_eq_getElem (Nat.zero_lt_of_lt hlt)]
  rfl

theorem Placed.entry?_eq (hf : f.Placed) (hi : f.inst? id = some inst) : f.entry? = some 0 := by
  have hsome := hf.isSome_entryBlock hi
  rw [ entry?, if_neg]
  intro hdecl
  rw [block?, isDeclaration_iff.mp hdecl] at hsome
  cases hsome

end Func

/-! ## Symbols that stay -/

/-- A later table has the symbols of an earlier one, and more globals behind them. -/
structure SymbolTable.Within (symbols table : SymbolTable) : Prop where
  globals : symbols.globals <+: table.globals
  functions : table.functions = symbols.functions

theorem SymbolTable.Within.refl (symbols : SymbolTable) : symbols.Within symbols :=
  ⟨List.prefix_refl _, rfl⟩

/-- A value has its type in another function of the same parameters and in a later table, if what it
names has that type there. -/
theorem Func.HasType.transport {f g : Func} {symbols table : SymbolTable} {v : Value} {ty : Ty}
    (h : f.HasType symbols v ty) (htable : symbols.Within table) (hparams : g.params = f.params)
    (hinst : ∀ id, v = .inst id → ∃ inst, g.inst? id = some inst ∧ inst.ty = ty) :
    g.HasType table v ty := by
  cases v with
  | inst id =>
    obtain ⟨inst, hi, hty⟩ := hinst id rfl
    exact (hasType_inst_iff hi).mpr hty
  | arg index =>
    simp only [HasType, valueType] at h ⊢
    rw [hparams]
    cases hp : f.params[index]? with
    | none =>
      rw [hp] at h
      cases h
    | some param =>
      rw [hp] at h
      exact h
  | const c => exact h
  | global id =>
    obtain ⟨more, hmore⟩ := htable.globals
    simp only [HasType, valueType, SymbolTable.globalType] at h ⊢
    cases hs : symbols.globals[id]? with
    | none =>
      rw [hs] at h
      cases h
    | some symbol =>
      rw [hs] at h
      rw [← hmore, List.getElem?_append_left (List.getElem?_eq_some_iff.mp hs).1, hs]
      exact h
  | func id =>
    simp only [HasType, valueType, SymbolTable.functionType] at h ⊢
    rw [htable.functions]
    exact h

/-- A value has its type in a later table. -/
theorem Func.HasType.within {f : Func} {symbols table : SymbolTable} {v : Value} {ty : Ty}
    (h : f.HasType symbols v ty) (htable : symbols.Within table) : f.HasType table v ty := by
  refine h.transport htable rfl fun id he => ?_
  obtain ⟨inst, hi⟩ := h.resolves id he
  exact ⟨inst, hi, (hasType_inst_iff hi).mp (he ▸ h)⟩

/-- The addresses of a body that has a plan have their types in a later table, so the folds are the
same there. -/
theorem Func.Trusted.within {f : Func} {symbols table : SymbolTable} {layout : DataLayout}
    {width : Width} {plan : Plan} (h : f.Trusted symbols layout width) (hf : f.Placed)
    (hplan : f.plan symbols = .ok plan) (htable : symbols.Within table) :
    f.Trusted table layout width := by
  intro id slot address pointee fold haccesses hfirst hty hfold
  obtain ⟨inst, access, hi, ha, hslot, ho⟩ := haccesses
  obtain ⟨same, hsame, -, hok⟩ :=
    accessOk_of_plan hplan (mem_plan hplan (hf.mem_order.mpr ⟨inst, hi⟩) hi ha)
  cases hi.symm.trans hsame
  obtain ⟨v, target, hv, htarget⟩ := hok.pointer slot hslot
  cases ho.symm.trans hv
  cases Except.ok.inj (hty.symm.trans (HasType.within htarget htable))
  exact h id slot address pointee fold ⟨inst, access, hi, ha, hslot, ho⟩ hfirst htarget hfold

/-- A value of the body that has a type now had it in the body. -/
theorem Func.HasType.earlier {f g : Func} {table : SymbolTable} {v : Value} {ty : Ty}
    {ids : List InstId} {base : Option InstId} (h : g.HasType table v ty)
    (hfg : f.Advances f.cells.size ids base g) (hparams : g.params = f.params)
    (hgiven : ∀ id, v = .inst id → id < f.cells.size) : f.HasType table v ty := by
  refine h.transport (.refl table) hparams.symm fun id he => ?_
  obtain ⟨later, hlater⟩ := h.resolves id he
  obtain ⟨inst, hold, hty, -⟩ := hfg.back id later (hgiven id he) hlater
  exact ⟨inst, hold, hty.symm.trans ((hasType_inst_iff hlater).mp (he ▸ h))⟩

/-- A value that is read keeps its type. -/
theorem Func.HasType.later {f g : Func} {symbols table : SymbolTable} {v : Value} {ty : Ty}
    {ids : List InstId} {base b : Option InstId} (h : f.HasType symbols v ty)
    (htable : symbols.Within table) (hfg : f.Advances f.cells.size ids base g)
    (hupholds : f.Upholds b g) (hread : ∀ id, v = .inst id → 0 < g.reads id) :
    g.HasType table v ty := by
  refine h.transport htable hupholds.params fun id he => ?_
  obtain ⟨inst, hi⟩ := h.resolves id he
  obtain ⟨later, hlater⟩ := hupholds.live hi (hread id he)
  obtain ⟨old, hold, hty, -⟩ := hfg.back id later (lt_size_of_inst? hi) hlater
  cases hi.symm.trans hold
  exact ⟨later, hlater, hty.trans ((hasType_inst_iff hi).mp (he ▸ h))⟩

/-! ## Emitted instructions -/

/-- An instruction in front of which others can be inserted: it is live in a placed function, and it
is not the base. -/
structure Func.Anchors (base : Option InstId) (anchor : InstId) (f : Func) : Prop where
  placed : f.Placed
  live : ∃ inst, f.inst? anchor = some inst
  apart : base ≠ some anchor

/-- Insertions that uphold what they should. -/
structure Func.Grows (base : Option InstId) (anchor : InstId) (f g : Func) : Prop where
  emits : f.Emits anchor g
  upholds : f.Upholds base g

namespace Func.Grows

variable {base : Option InstId} {anchor : InstId} {f g h : Func} {v : Value}

theorem refl (base : Option InstId) (anchor : InstId) (f : Func) : Grows base anchor f f :=
  ⟨.nothing f, .refl base f⟩

theorem trans (hfg : Grows base anchor f g) (hgh : Grows base anchor g h) :
    Grows base anchor f h :=
  ⟨hfg.emits.trans hgh.emits, hfg.upholds.trans hgh.upholds⟩

theorem resolves (hfg : Grows base anchor f g) (hv : f.Resolves v) : g.Resolves v := by
  intro id he
  obtain ⟨inst, hi⟩ := hv id he
  exact ⟨inst, hfg.emits.inst?_eq_some hi⟩

theorem anchors (hfg : Grows base anchor f g) (hf : f.Anchors base anchor) :
    g.Anchors base anchor := by
  obtain ⟨hplaced, ⟨inst, hi⟩, hne⟩ := hf
  exact ⟨hfg.upholds.placed hplaced, ⟨inst, hfg.emits.inst?_eq_some hi⟩, hne⟩

end Func.Grows

namespace Edit

variable {base : Option InstId} {anchor b id : InstId} {f : Func} {low address : Value} {ty : Ty}
  {width : Width}

/-- A computation of values that are there is inserted. -/
theorem insertBefore_grows {kind : InstKind} (hf : f.Anchors base anchor)
    (hread : ∀ v ∈ kind.operands, f.Resolves v) (hquiet : kind.access? = none) (ty : Ty) :
    ∃ id g, (insertBefore anchor kind ty).run f = .ok id g ∧ f.Grows base anchor g ∧
      g.Resolves (.inst id) := by
  obtain ⟨hplaced, ⟨inst, hi⟩, hne⟩ := hf
  obtain ⟨place, hplace⟩ := hplaced.place?_eq hi
  have hrun := insertBefore_eq kind ty hplace
  obtain ⟨-, -, at_, hinst⟩ := inst?_insertBefore hrun
  refine ⟨_, _, hrun, ⟨.one (.nothing f) hrun ?_ hquiet, upholds_insertBefore hrun hread hne⟩, ?_⟩
  · exact fun other hmem => (hread _ hmem).lt_size other rfl
  · rw [resolves_inst_iff, hinst, if_pos rfl]
    exact ⟨_, rfl⟩

theorem insertBefore_cast_grows {v : Value} (op : CastOp) (hf : f.Anchors base anchor)
    (hv : f.Resolves v) (hquiet : (InstKind.cast op v).access? = none) (ty : Ty) :
    ∃ id g, (insertBefore anchor (.cast op v) ty).run f = .ok id g ∧ f.Grows base anchor g ∧
      g.Resolves (.inst id) := by
  refine insertBefore_grows hf (fun read hmem => ?_) hquiet ty
  have he : read = v := List.mem_singleton.mp hmem
  exact he ▸ hv

theorem insertBefore_binary_grows {lhs rhs : Value} (hf : f.Anchors base anchor)
    (hl : f.Resolves lhs) (hr : f.Resolves rhs) (op : BinOp) (ty : Ty) :
    ∃ id g, (insertBefore anchor (.binary op lhs rhs) ty).run f = .ok id g ∧
      f.Grows base anchor g ∧ g.Resolves (.inst id) := by
  refine insertBefore_grows hf (fun read hmem => ?_) rfl ty
  rcases List.mem_cons.mp hmem with rfl | hmem
  · exact hl
  · exact List.mem_singleton.mp hmem ▸ hr

theorem resolves_int (f : Func) (bits : Nat) (value : Int) : f.Resolves (.int bits value) := by
  intro id he
  cases he

theorem emitSum_grows (hf : f.Anchors base anchor) (hb : f.Resolves (.inst b))
    (hlow : f.Resolves low) (width : Width) :
    ∃ id g, (emitSum width b anchor low).run f = .ok id g ∧ f.Grows base anchor g ∧
      g.Resolves (.inst id) := by
  -- what is widened is there, with a mask or without
  have htail : ∀ kept mid, f.Grows base anchor mid → mid.Resolves kept → ∃ id g,
      (do
        let wide ← insertBefore anchor (.cast .zext kept) (.int 64)
        insertBefore anchor (.binary .add (.inst b) (.inst wide)) (.int 64)).run mid = .ok id g ∧
      f.Grows base anchor g ∧ g.Resolves (.inst id) := by
    intro kept mid hmid hkept
    obtain ⟨wide, last, hrun, hlast, hwide⟩ :=
      insertBefore_cast_grows .zext (hmid.anchors hf) hkept rfl (.int 64)
    have hgrown := hmid.trans hlast
    obtain ⟨sum, g, hrun', hg, hsum⟩ :=
      insertBefore_binary_grows (hgrown.anchors hf) (hgrown.resolves hb) hwide .add (.int 64)
    exact ⟨sum, g, run_bind_eq_ok.mpr ⟨wide, last, hrun, hrun'⟩, hgrown.trans hg, hsum⟩
  rw [emitSum]
  cases hmask : width.mask? with
  | none =>
    simp only [pure_bind]
    exact htail low f (.refl base anchor f) hlow
  | some mask =>
    obtain ⟨masked, mid, hrun, hmid, hmasked⟩ :=
      insertBefore_binary_grows hf hlow (resolves_int f 32 mask) .and (.int 32)
    obtain ⟨id, g, hrun', hg⟩ := htail (.inst masked) mid hmid hmasked
    exact ⟨id, g, run_bind_eq_ok.mpr ⟨.inst masked, mid,
      run_map_eq_ok.mpr ⟨masked, hrun, rfl⟩, hrun'⟩, hg⟩

theorem emitPlain_grows (hf : f.Anchors base anchor) (hb : f.Resolves (.inst b))
    (haddress : f.Resolves address) (width : Width) (ty : Ty) :
    ∃ id g, (emitPlain width b anchor address ty).run f = .ok id g ∧ f.Grows base anchor g ∧
      g.Resolves (.inst id) := by
  obtain ⟨low, mid, hrun, hmid, hlow⟩ :=
    insertBefore_cast_grows .ptrtoint hf haddress rfl (.int 32)
  obtain ⟨sum, last, hrun', hlast, hsum⟩ :=
    emitSum_grows (hmid.anchors hf) (hmid.resolves hb) hlow width
  have hgrown := hmid.trans hlast
  obtain ⟨pointer, g, hrun'', hg, hpointer⟩ :=
    insertBefore_cast_grows .inttoptr (hgrown.anchors hf) hsum rfl ty
  refine ⟨pointer, g, ?_, hgrown.trans hg, hpointer⟩
  rw [emitPlain]
  exact run_bind_eq_ok.mpr ⟨low, mid, hrun, run_bind_eq_ok.mpr ⟨sum, last, hrun', hrun''⟩⟩

theorem emitFolded_grows {fold : Fold} (hf : f.Anchors base anchor) (hb : f.Resolves (.inst b))
    (hindex : f.Resolves fold.index) (width : Width) (ty : Ty) :
    ∃ successors g, (emitFolded width b anchor fold ty).run f = .ok successors g ∧
      f.Grows base anchor g ∧ g.Resolves (.inst successors.add) ∧
      g.Resolves (.inst successors.cast) := by
  obtain ⟨sum, mid, hrun, hmid, hsum⟩ := emitSum_grows hf hb hindex width
  obtain ⟨add, last, hrun', hlast, hadd⟩ := insertBefore_binary_grows (hmid.anchors hf) hsum
    (resolves_int mid 64 fold.offset) .add (.int 64)
  have hgrown := hmid.trans hlast
  obtain ⟨cast, g, hrun'', hg, hcast⟩ :=
    insertBefore_cast_grows .inttoptr (hgrown.anchors hf) hadd rfl ty
  refine ⟨{ add, cast }, g, ?_, hgrown.trans hg, hg.resolves hadd, hcast⟩
  rw [emitFolded]
  exact run_bind_eq_ok.mpr ⟨sum, mid, hrun, run_bind_eq_ok.mpr ⟨add, last, hrun',
    run_bind_eq_ok.mpr ⟨cast, g, hrun'', rfl⟩⟩⟩

/-! ## Retired instructions -/

/-- What is still counted as read, or is gone already, is left alone, and the rest can be removed. -/
theorem eraseUnread_upholds (hf : f.Placed) (hcovers : f.reads id ≤ f.useCount id)
    (hne : base ≠ some id) :
    ∃ count g, (eraseUnread id).run f = .ok count g ∧ f.Upholds base g := by
  rw [eraseUnread]
  simp only [run_get_bind]
  split
  · next hcase =>
    obtain ⟨hlive, hunread⟩ := hcase
    obtain ⟨inst, hi⟩ := Option.isSome_iff_exists.mp hlive
    obtain ⟨place, hplace⟩ := hf.place?_eq hi
    have hzero : f.useCount id = 0 := by
      rw [hasUses, decide_eq_true_eq] at hunread
      omega
    have hrun := erase_eq hzero hi hplace
    exact ⟨1, _, run_bind_eq_ok.mpr ⟨(), _, hrun, rfl⟩, upholds_erase hrun hcovers hne⟩
  · exact ⟨0, f, rfl, .refl base f⟩

/-- The parts of a fold are retired in favour of live instructions. -/
theorem retire_upholds {fold : Fold} {successors : Successors} (hf : f.Placed)
    (hadd : f.Resolves (.inst successors.add)) (hcast : f.Resolves (.inst successors.cast))
    (hcastCovers : f.reads fold.cast ≤ f.useCount fold.cast)
    (haddCovers : f.reads fold.add ≤ f.useCount fold.add)
    (hcastApart : base ≠ some fold.cast) (haddApart : base ≠ some fold.add) :
    ∃ count g, (retire fold successors).run f = .ok count g ∧ f.Upholds base g := by
  obtain ⟨addInst, haddInst⟩ := resolves_inst_iff.mp hadd
  have hrun₁ := setLoc_eq ((f.inst? fold.add).bind (·.loc)) haddInst
  have h₁ := upholds_setLoc hrun₁ base
  -- the conversion is still live once the addition has its position
  obtain ⟨castInst, hcastInst⟩ := resolves_inst_iff.mp hcast
  obtain ⟨found, -, -, hinst₁⟩ := inst?_setLoc hrun₁
  have hcast₁ : ∃ inst, (f.setCell successors.add
      (some { addInst with loc := (f.inst? fold.add).bind (·.loc) })).inst? successors.cast =
      some inst := by
    rw [hinst₁]
    split
    · exact ⟨_, rfl⟩
    · exact ⟨castInst, hcastInst⟩
  obtain ⟨castInst₁, hcastInst₁⟩ := hcast₁
  have hrun₂ := setLoc_eq ((f.inst? fold.cast).bind (·.loc)) hcastInst₁
  have h₂ := h₁.trans (upholds_setLoc hrun₂ base)
  obtain ⟨casts, f₃, hrun₃, hf₃⟩ :=
    eraseUnread_upholds (h₂.placed hf) (h₂.covers fold.cast hcastCovers) hcastApart
  have h₃ := h₂.trans hf₃
  obtain ⟨adds, f₄, hrun₄, hf₄⟩ :=
    eraseUnread_upholds (h₃.placed hf) (h₃.covers fold.add haddCovers) haddApart
  refine ⟨casts + adds, f₄, ?_, h₃.trans hf₄⟩
  rw [retire]
  simp only [run_get_bind]
  exact run_bind_eq_ok.mpr ⟨(), _, hrun₁, run_bind_eq_ok.mpr ⟨(), _, hrun₂,
    run_bind_eq_ok.mpr ⟨casts, f₃, hrun₃, run_bind_eq_ok.mpr ⟨adds, f₄, hrun₄, rfl⟩⟩⟩⟩

end Edit

end Confinement
