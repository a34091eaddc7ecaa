import Confinement.Proofs.Progress

/-!
# Confining a body succeeds

None of the steps that confine a body is refused when the body has a plan and the counters of what
its accesses may remove are not too low (`Func.Prepared`). The steps are served in turn, for one
address, for the addresses of an access, for its length and for the accesses of a plan, each on what
the step before it left; a body is then complete (`Func.Completes`): it is sandboxed, and placement,
counters and the types of what is read are upheld (`Edit.confineBody_completes`).
-/

set_option autoImplicit false

namespace Confinement

open Func

/-! ## Drafts that follow a body -/

/-- What a step of work on a draft upholds; the base is at the head of the entry block if it was. -/
structure Draft.Upholds (d e : Draft) : Prop where
  func : d.func.Upholds none e.func
  head : (∀ b, d.base.loaded = some b → d.func.Heads b) →
    ∀ b, e.base.loaded = some b → e.func.Heads b

/-- A draft that comes from the body `f` by work on the accesses `ids`. -/
structure Draft.Follows (f : Func) (symbol : GlobalId) (ids : List InstId) (d : Draft) : Prop where
  ready : d.Ready f.cells.size symbol
  advances : f.Advances f.cells.size ids d.base.loaded d.func
  upholds : f.Upholds none d.func

namespace Draft

variable {f : Func} {symbol : GlobalId} {ids more : List InstId} {d e k : Draft}

theorem Upholds.refl (d : Draft) : d.Upholds d :=
  ⟨.refl none d.func, fun hd => hd⟩

theorem Upholds.trans (hde : d.Upholds e) (hek : e.Upholds k) : d.Upholds k :=
  ⟨hde.func.trans hek.func, fun hd => hek.head (hde.head hd)⟩

/-- Work that leaves the base alone. -/
theorem Upholds.of_func (hbase : e.base = d.base)
    (hfunc : d.func.Upholds d.base.loaded e.func) : d.Upholds e := by
  refine ⟨hfunc.weaken, fun hd b hb => ?_⟩
  rw [hbase] at hb
  exact hfunc.head b hb (hd b hb)

theorem Follows.start (f : Func) (symbol : GlobalId) :
    Follows f symbol [] { func := f, base := .start symbol } where
  ready := ⟨Nat.le_refl _, rfl, fun _ h => nomatch h⟩
  advances := .refl f.cells.size [] none f
  upholds := .refl none f

theorem Follows.step (hd : d.Follows f symbol ids) (hde : d.Advances f.cells.size symbol more e)
    (hup : d.Upholds e) : e.Follows f symbol (ids ++ more) where
  ready := hde.ready
  advances := (hd.advances.mono (List.subset_append_left ids more)).trans
    (hde.func.mono (List.subset_append_right ids more)) hde.loaded
  upholds := hd.upholds.trans hup.func

end Draft

/-! ## One address -/

namespace Edit

variable {f g : Func} {b id : InstId} {slot : Nat} {inst : Inst} {address : Value} {width : Width}
  {fold : Fold}

/-- A written slot leaves live what is live. -/
theorem resolves_replaceOperand {new v : Value} {u : Unit}
    (hrun : (replaceOperand id slot new).run f = .ok u g) (hv : f.Resolves v) : g.Resolves v := by
  obtain ⟨inst, old, -, -, -, hinst⟩ := inst?_replaceOperand hrun
  intro other he
  obtain ⟨found, hfound⟩ := hv other he
  rw [hinst]
  split
  · exact ⟨_, rfl⟩
  · exact ⟨found, hfound⟩

/-- A plain address is computed, and read from then on. -/
theorem plain_succeeds (hg : g.Anchors (some b) id) (hb : g.Resolves (.inst b))
    (haddress : g.Resolves address) (hi : g.inst? id = some inst)
    (ho : inst.kind.operand? slot = some address) (width : Width) (ty : Ty) :
    ∃ pointer h k, (emitPlain width b id address ty).run g = .ok pointer h ∧
      (replaceOperand id slot (.inst pointer)).run h = .ok () k ∧ g.Upholds (some b) k := by
  obtain ⟨pointer, h, hemit, hgrows, hpointer⟩ := emitPlain_grows hg hb haddress width ty
  have hreplace := replaceOperand_eq (.inst pointer) (hgrows.emits.inst?_eq_some hi) ho
  exact ⟨pointer, h, _, hemit, hreplace,
    hgrows.upholds.trans (upholds_replaceOperand hreplace hpointer _)⟩

/-- A folded address is computed and read from then on, and the fold is retired. -/
theorem folded_succeeds {size subspace : Nat} (hf : f.Placed) (hfg : f.Upholds none g)
    (hfold : f.fold? address size subspace = some fold) (hcounts : f.Counts fold)
    (hbase : f.cells.size ≤ b) (hg : g.Anchors (some b) id) (hb : g.Resolves (.inst b))
    (hindex : g.Resolves fold.index) (hi : g.inst? id = some inst)
    (ho : inst.kind.operand? slot = some address) (width : Width) (ty : Ty) :
    ∃ successors h k removed l, (emitFolded width b id fold ty).run g = .ok successors h ∧
      (replaceOperand id slot (.inst successors.cast)).run h = .ok () k ∧
      (retire fold successors).run k = .ok removed l ∧ g.Upholds (some b) l := by
  obtain ⟨successors, h, hemit, hgrows, hadd, hcast⟩ := emitFolded_grows hg hb hindex width ty
  obtain ⟨k, hreplace⟩ : ∃ k, (replaceOperand id slot (.inst successors.cast)).run h = .ok () k :=
    ⟨_, replaceOperand_eq _ (hgrows.emits.inst?_eq_some hi) ho⟩
  have hup := hgrows.upholds.trans (upholds_replaceOperand hreplace hcast (some b))
  have hfk := hfg.trans hup.weaken
  -- the parts of the fold belong to the body, and the base does not
  obtain ⟨hcastCovers, haddCovers⟩ := hcounts
  obtain ⟨-, castInst, addInst, -, -, hcastInst, -, haddInst, -⟩ := Func.fold?_eq_some_iff.mp hfold
  have hapart : ∀ {part : InstId} {partInst : Inst}, f.inst? part = some partInst →
      some b ≠ some part := by
    rintro part partInst hpart he
    cases he
    exact Nat.not_lt.mpr hbase (lt_size_of_inst? hpart)
  obtain ⟨removed, l, hretire, hkl⟩ := retire_upholds (hfk.placed hf)
    (resolves_replaceOperand hreplace hadd) (resolves_replaceOperand hreplace hcast)
    (hfk.covers _ hcastCovers) (hfk.covers _ haddCovers) (hapart hcastInst) (hapart haddInst)
  exact ⟨successors, h, k, removed, l, hemit, hreplace, hretire, hup.trans hkl⟩

end Edit

namespace Drafting

variable {f : Func} {cx : Context} {symbols : SymbolTable} {d : Draft} {ids : List InstId}
  {id : InstId} {inst : Inst} {slot : PointerSlot}

/-- The base is there, or it can be put at the entry. -/
theorem loadBase_succeeds (hd : d.func.Placed) (hi : d.func.inst? id = some inst) :
    ∃ base u, loadBase.run d = .ok base u ∧ d.Upholds u := by
  rw [loadBase]
  rw [run_get_bind]
  cases hl : d.base.loaded with
  | some base => exact ⟨base, d, rfl, .refl d⟩
  | none =>
    have hblock := hd.isSome_entryBlock hi
    have hinsert := Edit.insertAtHead_eq (.load (.global d.base.symbol)) (.int 64) hblock
    obtain ⟨hup, hhead⟩ := Edit.upholds_insertAtHead hinsert fun v hv => by
      cases List.mem_singleton.mp hv
      intro other he
      cases he
    simp only [hd.entry?_eq hi]
    refine ⟨_, { func := _, base := { d.base with loaded := some _ } },
      run_bind_eq_ok.mpr ⟨_, { d with func := _ }, run_edit_eq_ok.mpr ⟨hinsert, rfl⟩, rfl⟩, hup, ?_⟩
    intro _ b hb
    cases hb
    exact hhead

/-- Loading the base leaves intact what it should. -/
theorem loadBase_upholds {base : InstId} {u : Draft} (hd : d.func.Placed)
    (hi : d.func.inst? id = some inst) (hrun : loadBase.run d = .ok base u) : d.Upholds u := by
  obtain ⟨base', u', hrun', hdu⟩ := loadBase_succeeds hd hi
  cases hrun.symm.trans hrun'
  exact hdu

section Pointer

variable {base pointer : InstId} {u : Draft} {g k l : Func} {address : Value} {pointee : Ty}

/-- The run on an address that is not folded, from the runs of its steps. -/
theorem confinePointer_plain (hbase : loadBase.run d = .ok base u)
    (hslot : u.func.operand? id slot.index = some address)
    (hty : u.func.HasType cx.symbols address (.ptr pointee))
    (hfold : u.func.foldFor? cx slot address pointee = none)
    (hemit : (Edit.emitPlain cx.region.width base id address (.ptr pointee)).run u.func =
      .ok pointer g)
    (hreplace : (Edit.replaceOperand id slot.index (.inst pointer)).run g = .ok () k) :
    (confinePointer cx id slot).run d =
      .ok { folded := false, removed := 0 } { u with func := k } := by
  rw [confinePointer]
  refine run_bind_eq_ok.mpr ⟨base, u, hbase, ?_⟩
  rw [run_get_bind]
  refine run_ofExcept_bind_eq_ok.mpr ⟨address, slotValue_eq_ok_iff.mpr hslot, ?_⟩
  refine run_ofExcept_bind_eq_ok.mpr ⟨pointee, slotPointee_eq_ok_iff.mpr ⟨address, hslot, hty⟩, ?_⟩
  rw [hfold]
  exact run_edit_eq_ok.mpr ⟨run_bind_eq_ok.mpr ⟨pointer, g, hemit,
    run_bind_eq_ok.mpr ⟨(), k, hreplace, rfl⟩⟩, rfl⟩

/-- The run on an address that is folded, from the runs of its steps. -/
theorem confinePointer_folded {fold : Fold} {successors : Edit.Successors} {removed : Nat}
    (hbase : loadBase.run d = .ok base u)
    (hslot : u.func.operand? id slot.index = some address)
    (hty : u.func.HasType cx.symbols address (.ptr pointee))
    (hfold : u.func.foldFor? cx slot address pointee = some fold)
    (hemit : (Edit.emitFolded cx.region.width base id fold (.ptr pointee)).run u.func =
      .ok successors g)
    (hreplace : (Edit.replaceOperand id slot.index (.inst successors.cast)).run g = .ok () k)
    (hretire : (Edit.retire fold successors).run k = .ok removed l) :
    (confinePointer cx id slot).run d = .ok { folded := true, removed } { u with func := l } := by
  rw [confinePointer]
  refine run_bind_eq_ok.mpr ⟨base, u, hbase, ?_⟩
  rw [run_get_bind]
  refine run_ofExcept_bind_eq_ok.mpr ⟨address, slotValue_eq_ok_iff.mpr hslot, ?_⟩
  refine run_ofExcept_bind_eq_ok.mpr ⟨pointee, slotPointee_eq_ok_iff.mpr ⟨address, hslot, hty⟩, ?_⟩
  rw [hfold]
  exact run_edit_eq_ok.mpr ⟨run_bind_eq_ok.mpr ⟨successors, g, hemit,
    run_bind_eq_ok.mpr ⟨(), k, hreplace, run_bind_eq_ok.mpr ⟨removed, l, hretire, rfl⟩⟩⟩, rfl⟩

end Pointer

/-- Behind the load of the base, an address that has its type can be confined. -/
theorem confinePointer_of_typed (hf : f.Prepared cx) (hd : d.Follows f cx.region.memoryBase ids)
    {address : Value} {pointee : Ty} (haccesses : f.Accesses id slot address)
    (hi : d.func.inst? id = some inst) (ha : inst.kind.access? ≠ none)
    (ho : inst.kind.operand? slot.index = some address)
    (hgiven : ∀ other, address = .inst other → other < f.cells.size) {base : InstId} {u : Draft}
    (hbase : loadBase.run d = .ok base u) (hdu : d.Upholds u)
    (htyped : u.func.HasType cx.symbols address (.ptr pointee)) :
    ∃ outcome e, (confinePointer cx id slot).run d = .ok outcome e ∧ d.Upholds e := by
  obtain ⟨hadvances, hloaded⟩ := loadBase_advances hbase hd.ready
  have hu := hd.step hadvances hdu
  have hid := haccesses.lt_size
  have hiu : u.func.inst? id = some inst := hadvances.func.other id inst hid List.not_mem_nil hi ha
  have hslot : u.func.operand? id slot.index = some address := (operand?_eq hiu _).trans ho
  obtain ⟨hnew, baseInst, hb, -⟩ := hu.ready.loaded base hloaded
  have hresolves : u.func.Resolves (.inst base) := resolves_inst_iff.mpr ⟨baseInst, hb⟩
  have hanchors : u.func.Anchors (some base) id := by
    refine ⟨hu.upholds.placed hf.placed, ⟨inst, hiu⟩, ?_⟩
    intro he
    cases he
    exact Nat.not_lt.mpr hnew hid
  -- what is left is an edit behind the load of the base
  have hkept {g : Func} (hug : u.func.Upholds (some base) g) : d.Upholds { u with func := g } :=
    hdu.trans (.of_func rfl (by rw [hloaded]; exact hug))
  cases hfold : u.func.foldFor? cx slot address pointee with
  | none =>
    obtain ⟨pointer, h, k, hemit, hreplace, huk⟩ :=
      Edit.plain_succeeds hanchors hresolves htyped.resolves hiu ho cx.region.width (.ptr pointee)
    exact ⟨_, _, confinePointer_plain hbase hslot htyped hfold hemit hreplace, hkept huk⟩
  | some fold =>
    obtain ⟨hfirst, hfold'⟩ := foldFor?_eq_some_iff.mp hfold
    have hbody := Func.fold?_of_advances hu.advances hf.grounded hgiven hfold'
    have hcounts : f.Counts fold := hf.trusted id slot address pointee fold haccesses hfirst
      (htyped.earlier hu.advances hu.upholds.params hgiven) hbody
    -- the addition is live, and it reads the index
    have hindex : u.func.Resolves fold.index := by
      obtain ⟨-, -, addInst, c, offset, -, -, hadd, -, hkind, -⟩ := Func.fold?_eq_some_iff.mp hfold'
      intro other he
      obtain ⟨read, hread⟩ := hf.index hbody other he
      have hslot : addInst.kind.operand? 0 = some (.inst other) := by
        rw [hkind, he]
        rfl
      exact hu.upholds.live hread (reads_pos_of_operand? hadd hslot)
    obtain ⟨successors, h, k, removed, l, hemit, hreplace, hretire, hul⟩ :=
      Edit.folded_succeeds hf.placed hu.upholds hbody hcounts hnew hanchors hresolves hindex hiu ho
        cx.region.width (.ptr pointee)
    exact ⟨_, _, confinePointer_folded hbase hslot htyped hfold hemit hreplace hretire, hkept hul⟩

/-- One address can be confined. -/
theorem confinePointer_succeeds (hf : f.Prepared cx) (hwithin : symbols.Within cx.symbols)
    (hd : d.Follows f cx.region.memoryBase ids) {address : Value} {pointee : Ty}
    (haccesses : f.Accesses id slot address) (hi : d.func.inst? id = some inst)
    (ha : inst.kind.access? ≠ none) (ho : inst.kind.operand? slot.index = some address)
    (hty : f.HasType symbols address (.ptr pointee)) :
    ∃ outcome e, (confinePointer cx id slot).run d = .ok outcome e ∧ d.Upholds e := by
  obtain ⟨base, u, hbase, hdu⟩ := loadBase_succeeds (hd.upholds.placed hf.placed) hi
  obtain ⟨hadvances, -⟩ := loadBase_advances hbase hd.ready
  have hu := hd.step hadvances hdu
  have hiu : u.func.inst? id = some inst :=
    hadvances.func.other id inst haccesses.lt_size List.not_mem_nil hi ha
  -- the address is read, so it is what it was
  have htyped : u.func.HasType cx.symbols address (.ptr pointee) :=
    hty.later hwithin hu.advances hu.upholds fun other he =>
      reads_pos_of_operand? hiu (he ▸ ho)
  exact confinePointer_of_typed hf hd haccesses hi ha ho hty.resolves.lt_size hbase hdu htyped

/-- An address that has been confined leaves intact what it should: there is only one way in which
the run can have gone. -/
theorem confinePointer_upholds {outcome : PointerOutcome} {e : Draft} (hf : f.Prepared cx)
    (hd : d.Follows f cx.region.memoryBase ids) {address : Value}
    (haccesses : f.Accesses id slot address) (hi : d.func.inst? id = some inst)
    (ha : inst.kind.access? ≠ none) (ho : inst.kind.operand? slot.index = some address)
    (hgiven : ∀ other, address = .inst other → other < f.cells.size)
    (hrun : (confinePointer cx id slot).run d = .ok outcome e) : d.Upholds e := by
  obtain ⟨base, u, found, pointee, -, hbase, -, hfound, hty, -⟩ := confinePointer_eq_ok hrun
  have hdu := loadBase_upholds (hd.upholds.placed hf.placed) hi hbase
  obtain ⟨hadvances, -⟩ := loadBase_advances hbase hd.ready
  have hiu : u.func.inst? id = some inst :=
    hadvances.func.other id inst haccesses.lt_size List.not_mem_nil hi ha
  rw [operand?_eq hiu, ho] at hfound
  cases hfound
  obtain ⟨outcome', e', hrun', hup⟩ :=
    confinePointer_of_typed hf hd haccesses hi ha ho hgiven hbase hdu hty
  cases hrun.symm.trans hrun'
  exact hup

/-- So does a length that has been masked, or left alone. -/
theorem confineLength_upholds {slot : Nat} {tally : Tally} {e : Draft}
    (hd : d.Follows f cx.region.memoryBase ids) (hid : id < f.cells.size)
    (hrun : (confineLength cx id (some slot)).run d = .ok tally e) : d.Upholds e := by
  obtain ⟨masked, hedit, hsame, -⟩ := confineLength_some_eq_ok hrun
  refine .of_func hsame ?_
  rcases Edit.confineLength_eq_ok hedit with ⟨-, -, he⟩ |
    ⟨mask, length, bits, kept, mid, -, -, hlength, hbits, hinsert, hreplace⟩
  · rw [he]
    exact .refl _ _
  · have hne : d.base.loaded ≠ some id := by
      intro hloaded
      exact Nat.not_lt.mpr (hd.ready.loaded id hloaded).1 hid
    have hread : ∀ v ∈ (InstKind.binary .and length (.int bits mask)).operands,
        d.func.Resolves v := by
      intro v hv
      rcases List.mem_cons.mp hv with rfl | hv
      · exact HasType.resolves hbits
      · rw [List.mem_singleton.mp hv]
        exact Edit.resolves_int d.func bits mask
    obtain ⟨-, -, at_, hinst⟩ := Edit.inst?_insertBefore hinsert
    have hkept : mid.Resolves (.inst kept) :=
      resolves_inst_iff.mpr ⟨_, (hinst kept).trans (if_pos rfl)⟩
    exact (Edit.upholds_insertBefore hinsert hread hne).trans
      (Edit.upholds_replaceOperand hreplace hkept _)

/-! ## One access -/

/-- The addresses of an access can be confined, each once. -/
theorem confinePointers_succeeds {slots : List PointerSlot} (hf : f.Prepared cx)
    (hwithin : symbols.Within cx.symbols) (hd : d.Follows f cx.region.memoryBase ids)
    (hi : d.func.inst? id = some inst) (hid : id < f.cells.size) (ha : inst.kind.access? ≠ none)
    (honce : (slots.map (·.index)).Nodup)
    (hread : ∀ slot ∈ slots, ∃ v pointee, f.Accesses id slot v ∧
      inst.kind.operand? slot.index = some v ∧ f.HasType symbols v (.ptr pointee)) :
    ∃ tally e, (confinePointers cx id slots).run d = .ok tally e ∧ d.Upholds e := by
  induction slots generalizing d ids inst with
  | nil => exact ⟨0, d, rfl, .refl d⟩
  | cons slot slots ih =>
    obtain ⟨v, pointee, haccesses, ho, hty⟩ := hread slot List.mem_cons_self
    obtain ⟨here, u, hhere, hdu⟩ := confinePointer_succeeds hf hwithin hd haccesses hi ha ho hty
    obtain ⟨hadvances, base, address, pointer, -, -, hiu, -⟩ :=
      confinePointer_confines hhere hd.ready hd.advances hf.grounded hi hid ha
        fun other he => hty.resolves.lt_size other (Option.some.inj (ho.symm.trans he))
    rw [List.map_cons, List.nodup_cons] at honce
    obtain ⟨hnew, honce⟩ := honce
    -- the other slots are not written, since no slot is named twice
    obtain ⟨rest, e, hrest, hue⟩ := ih (hd.step hadvances hdu) hiu
      (by rw [InstKind.access?_setOperand]; exact ha) honce
      (by
        intro other hother
        obtain ⟨v, pointee, haccesses, ho, hty⟩ := hread other (List.mem_cons_of_mem slot hother)
        refine ⟨v, pointee, haccesses, ?_, hty⟩
        rw [InstKind.operand?_setOperand_of_ne]
        · exact ho
        · exact fun he => hnew (he ▸ List.mem_map_of_mem hother))
    refine ⟨.pointer here + rest, e, ?_, hdu.trans hue⟩
    rw [confinePointers]
    exact run_bind_eq_ok.mpr ⟨here, u, hhere, run_bind_eq_ok.mpr ⟨rest, e, hrest, rfl⟩⟩

end Drafting

/-- With a mask, the length of an access is read through it, in the type that the length had. -/
def Func.Masks (f g : Func) (symbols : SymbolTable) (width : Width) (id : InstId)
    (length : Option Nat) : Prop :=
  ∀ slot mask, length = some slot → width.mask? = some mask → ∃ v bits kept,
    f.HasType symbols v (.int bits) ∧ f.operand? id slot = some v ∧
    g.operand? id slot = some (.inst kept) ∧
    g.Inserted f.cells.size kept (.binary .and v (.int bits mask)) (.int bits)

/-- Work on other accesses leaves a masked length masked. -/
theorem Func.Masks.advance {f g h : Func} {symbols : SymbolTable} {width : Width} {id : InstId}
    {length : Option Nat} {ids : List InstId} {base : Option InstId} {inst : Inst}
    (hmasks : f.Masks g symbols width id length) (hgh : g.Advances f.cells.size ids base h)
    (hnot : id ∉ ids) (hid : id < f.cells.size) (hi : g.inst? id = some inst)
    (ha : inst.kind.access? ≠ none) : f.Masks h symbols width id length := by
  intro slot mask hs hm
  obtain ⟨v, bits, kept, hty, hv, hslot, hkept⟩ := hmasks slot mask hs hm
  refine ⟨v, bits, kept, hty, hv, ?_, hkept.keep hgh.keeps⟩
  rw [operand?_eq (hgh.other id inst hid hnot hi ha), ← operand?_eq hi]
  exact hslot

namespace Drafting

variable {f : Func} {cx : Context} {symbols : SymbolTable} {d : Draft} {ids : List InstId}
  {id : InstId} {inst : Inst}

/-- The length of an access can be masked. -/
theorem confineLength_succeeds (length : Option Nat) {old : Inst} (hf : f.Prepared cx)
    (hwithin : symbols.Within cx.symbols) (hd : d.Follows f cx.region.memoryBase ids)
    (hold : f.inst? id = some old) (hi : d.func.inst? id = some inst)
    (ha : inst.kind.access? ≠ none)
    (hread : ∀ slot, length = some slot → ∃ v bits, old.kind.operand? slot = some v ∧
      inst.kind.operand? slot = some v ∧ f.HasType symbols v (.int bits)) :
    ∃ tally e, (confineLength cx id length).run d = .ok tally e ∧ d.Upholds e ∧
      f.Masks e.func symbols cx.region.width id length := by
  cases length with
  | none => exact ⟨0, d, rfl, .refl d, fun slot mask hs => nomatch hs⟩
  | some slot =>
    obtain ⟨v, bits, hov, ho, hty⟩ := hread slot rfl
    cases hmask : cx.region.width.mask? with
    | none =>
      refine ⟨.length false, d, ?_, .refl d, fun slot mask _ hsome => ?_⟩
      · have hrun : (Edit.confineLength cx id slot).run d.func = .ok false d.func := by
          rw [Edit.confineLength]
          rw [hmask]
          rfl
        rw [confineLength]
        exact run_bind_eq_ok.mpr ⟨false, d, run_edit_eq_ok.mpr ⟨hrun, rfl⟩, rfl⟩
      · rw [hmask] at hsome
        cases hsome
    | some mask =>
      have htyped : d.func.HasType cx.symbols v (.int bits) :=
        hty.later hwithin hd.advances hd.upholds fun other he => reads_pos_of_operand? hi (he ▸ ho)
      have hslot : d.func.operand? id slot = some v := (operand?_eq hi _).trans ho
      have hanchors : d.func.Anchors d.base.loaded id := by
        refine ⟨hd.upholds.placed hf.placed, ⟨inst, hi⟩, fun he => ?_⟩
        obtain ⟨hnew, -⟩ := hd.ready.loaded id he
        exact Nat.not_lt.mpr hnew (lt_size_of_inst? hold)
      obtain ⟨kept, mid, hinsert, hgrows, hkept⟩ := Edit.insertBefore_binary_grows hanchors
        htyped.resolves (Edit.resolves_int d.func bits mask) .and (.int bits)
      have himid := hgrows.emits.inst?_eq_some hi
      obtain ⟨k, hreplace⟩ : ∃ k, (Edit.replaceOperand id slot (.inst kept)).run mid = .ok () k :=
        ⟨_, Edit.replaceOperand_eq _ himid ho⟩
      have hup := hgrows.upholds.trans (Edit.upholds_replaceOperand hreplace hkept _)
      refine ⟨.length true, { d with func := k }, ?_, .of_func rfl hup, ?_⟩
      · rw [confineLength]
        refine run_bind_eq_ok.mpr ⟨true, { d with func := k }, run_edit_eq_ok.mpr ⟨?_, rfl⟩, rfl⟩
        rw [Edit.confineLength]
        rw [hmask]
        exact run_ofExcept_bind_eq_ok.mpr ⟨v, slotValue_eq_ok_iff.mpr hslot,
          run_ofExcept_bind_eq_ok.mpr ⟨bits, slotBits_eq_ok_iff.mpr ⟨v, hslot, htyped⟩,
            run_bind_eq_ok.mpr ⟨kept, mid, hinsert, run_bind_eq_ok.mpr ⟨(), k, hreplace, rfl⟩⟩⟩⟩
      · intro found mask' hs hm
        cases hs
        cases hmask.symm.trans hm
        obtain ⟨-, hinserted, -⟩ := emits_insertBefore hinsert hd.ready.size
          (InstKind.older_binary htyped.resolves.lt_size Value.int_older) rfl
        obtain ⟨hadvances, hlater⟩ := Func.Advances.replaceOperand hreplace
          (lt_size_of_inst? hold) himid ha none
        refine ⟨v, bits, kept, hty, (operand?_eq hold _).trans hov, ?_,
          hinserted.keep hadvances.keeps⟩
        rw [operand?_eq hlater]
        exact InstKind.operand?_setOperand_self _ (List.getElem?_eq_some_iff.mp ho).1

/-- An entry of a plan that is as it was can be confined. -/
theorem confineAccess_succeeds {planned : Planned} (hf : f.Prepared cx)
    (hwithin : symbols.Within cx.symbols) (hd : d.Follows f cx.region.memoryBase ids)
    (hold : f.inst? planned.id = some inst) (ha : inst.kind.access? = some planned.access)
    (hok : f.AccessOk symbols inst.kind planned.access)
    (hi : d.func.inst? planned.id = some inst) :
    ∃ tally e, (confineAccess cx planned).run d = .ok tally e ∧ d.Upholds e ∧
      f.Masks e.func symbols cx.region.width planned.id planned.access.length := by
  have hid := lt_size_of_inst? hold
  have hne : inst.kind.access? ≠ none := by rw [ha]; exact Option.some_ne_none _
  obtain ⟨honce, hapart⟩ := Access.nodup_slots ha
  obtain ⟨pointers, u, hpointers, hdu⟩ := confinePointers_succeeds hf hwithin hd hi hid hne honce
    (by
      intro slot hslot
      obtain ⟨v, pointee, hv, hty⟩ := hok.pointer slot hslot
      exact ⟨v, pointee, ⟨inst, planned.access, hold, ha, hslot, hv⟩, hv, hty⟩)
  obtain ⟨hadvances, mid, hmid, hmidAccess, hmidOther, -⟩ :=
    confinePointers_confines hpointers hd.ready hd.advances hf.grounded hi hid hne honce
      fun slot hslot other hv => hok.lt_size hslot hv
  obtain ⟨length, e, hlength, hue, hmasks⟩ := confineLength_succeeds
    planned.access.length hf hwithin (hd.step hadvances hdu) hold hmid
    (by rw [hmidAccess]; exact hne)
    (by
      intro slot hslot
      obtain ⟨v, bits, hv, hty⟩ := hok.length slot hslot
      exact ⟨v, bits, hv, (hmidOther slot (hapart slot hslot)).trans hv, hty⟩)
  refine ⟨pointers + length, e, ?_, hdu.trans hue, hmasks⟩
  rw [confineAccess]
  rw [run_get_bind, hi]
  exact run_bind_eq_ok.mpr ⟨pointers, u, hpointers, run_bind_eq_ok.mpr ⟨length, e, hlength, rfl⟩⟩

/-! ## A plan -/

/-- A plan can be carried out, and every length of it is masked in the end. -/
theorem confinePlan_succeeds {plan : Plan} (hf : f.Prepared cx) (hwithin : symbols.Within cx.symbols)
    (hd : d.Follows f cx.region.memoryBase ids)
    (hplan : ∀ planned ∈ plan, ∃ inst, f.inst? planned.id = some inst ∧
      inst.kind.access? = some planned.access ∧ f.AccessOk symbols inst.kind planned.access)
    (honce : (plan.map (·.id)).Nodup)
    (hpending : ∀ planned ∈ plan, d.func.inst? planned.id = f.inst? planned.id) :
    ∃ tally e, (confinePlan cx plan).run d = .ok tally e ∧ d.Upholds e ∧
      ∀ planned ∈ plan,
        f.Masks e.func symbols cx.region.width planned.id planned.access.length := by
  induction plan generalizing d ids with
  | nil => exact ⟨0, d, rfl, .refl d, fun planned hp => absurd hp List.not_mem_nil⟩
  | cons planned plan ih =>
    rw [List.map_cons, List.nodup_cons] at honce
    obtain ⟨hnew, honce⟩ := honce
    obtain ⟨inst, hold, ha, hok⟩ := hplan planned List.mem_cons_self
    have hi := (hpending planned List.mem_cons_self).trans hold
    obtain ⟨here, u, hhere, hdu, hmasks⟩ := confineAccess_succeeds hf hwithin hd hold ha hok hi
    obtain ⟨hadvances, htreated⟩ :=
      confineAccess_treats hhere hd.ready hd.advances hf.grounded hold ha hok hi
    have hrest := (List.forall_mem_cons.mp hplan).2
    have hpending' := pending_of_advances hadvances hnew hrest (List.forall_mem_cons.mp hpending).2
    have hu := hd.step hadvances hdu
    obtain ⟨rest, e, hrun, hue, hall⟩ := ih hu hrest honce hpending'
    refine ⟨here + rest, e, ?_, hdu.trans hue, ?_⟩
    · rw [confinePlan]
      exact run_bind_eq_ok.mpr ⟨here, u, hhere, run_bind_eq_ok.mpr ⟨rest, e, hrun, rfl⟩⟩
    · intro other hother
      rcases List.mem_cons.mp hother with rfl | hother
      · obtain ⟨hadvances', -⟩ := confinePlan_treats hrun hu.ready hu.advances hf.grounded hrest
          honce hpending'
        obtain ⟨-, later, -, hlater, -, ha'⟩ := htreated.live
        exact hmasks.advance hadvances'.func hnew (lt_size_of_inst? hold) hlater
          (by rw [ha']; exact Option.some_ne_none _)
      · exact hall other hother

end Drafting

/-! ## A body -/

/-- What a body has become, with all that is known of it: it is sandboxed from the load of the base
at its head, its lengths are masked in their own types, and what it reads keeps its type. -/
structure Func.Completes (f g : Func) (cx : Context) (symbols : SymbolTable)
    (base : Option InstId) : Prop where
  sandboxed : f.Sandboxed g cx base
  upholds : f.Upholds none g
  head : ∀ b, base = some b → g.Heads b
  masks : ∀ id inst access, g.inst? id = some inst → inst.kind.access? = some access →
    base = some id ∨ f.Masks g symbols cx.region.width id access.length
  types : ∀ v ty, f.HasType symbols v ty → (∀ id, v = .inst id → 0 < g.reads id) →
    g.HasType cx.symbols v ty

/-- A body that has a plan can be confined. -/
theorem Edit.confineBody_completes {f : Func} {cx : Context} {symbols : SymbolTable} {plan : Plan}
    (hplaced : f.Placed) (htrusted : f.Trusted cx.symbols cx.layout cx.region.width)
    (hplan : f.plan symbols = .ok plan) (hwithin : symbols.Within cx.symbols) :
    ∃ body g base, (Edit.confineBody cx plan).run f = .ok body g ∧
      f.Completes g cx symbols base := by
  have hf := hplaced.prepared htrusted hplan
  have hstart := Draft.Follows.start f cx.region.memoryBase
  have haccess : ∀ planned ∈ plan, ∃ inst, f.inst? planned.id = some inst ∧
      inst.kind.access? = some planned.access ∧ f.AccessOk symbols inst.kind planned.access :=
    fun planned hp => accessOk_of_plan hplan hp
  have honce := nodup_plan hplan hplaced.nodup_order
  obtain ⟨tally, e, hrun, hup, hmasks⟩ := Drafting.confinePlan_succeeds hf hwithin hstart
    haccess honce fun _ _ => rfl
  obtain ⟨hadvances, -⟩ := Drafting.confinePlan_treats hrun hstart.ready hstart.advances
    hf.grounded haccess honce fun _ _ => rfl
  have hbody := Edit.confineBody_of_confinePlan hrun
  obtain ⟨base, hs⟩ := Edit.confineBody_sandboxed hplaced hplan hbody
  refine ⟨_, e.func, base, hbody, hs, hup.func, ?_, ?_, ?_⟩
  · intro b hb
    -- the base is an inserted access, and there is one such only
    obtain ⟨hnew, inst, hi, hkind, -⟩ := hs.load b hb
    have hload : e.base.loaded = some b :=
      hadvances.func.base_of_new hnew hi (by rw [hkind]; exact Option.some_ne_none _)
    exact hup.head (fun _ h => nomatch h) b hload
  · intro id inst access hi ha
    refine (hs.access id inst access hi ha).imp_right fun ht => ?_
    obtain ⟨old, -, hold, -, hacc, -⟩ := ht.live
    exact hmasks _ (mem_plan hplan (hplaced.mem_order.mpr ⟨old, hold⟩) hold hacc)
  · intro v ty hty hread
    exact hty.later hwithin hadvances.func hup.func hread

end Confinement
