import Confinement.Proofs.Placement
import Confinement.Proofs.Rewriting

/-!
# Confined bodies

What confining leaves of the accesses of a body, step by step: one address, the addresses of an
access, its length, all accesses of a plan. An access that has been treated reads confined addresses
and a masked length (`Func.Treated`), and stays so while the accesses behind it are treated
(`Treated.advance`). In the end every access of the body is either treated or the load of the base
that the body was given (`Edit.confineBody_sandboxed`).
-/

set_option autoImplicit false

namespace Confinement

open Func

/-! ## Slots of accesses -/

theorem InstKind.access?_cases {kind : InstKind} {access : Access}
    (h : kind.access? = some access) :
    access = .value 0 ∨ access = .value 1 ∨ access = .copy ∨ access = .fill := by
  cases kind with
  | load ptr =>
    cases h
    exact Or.inl rfl
  | store value ptr =>
    cases h
    exact Or.inr (Or.inl rfl)
  | intrinsic op args => cases op <;> cases h <;> simp
  | cast op value => cases op <;> cases h
  | _ => cases h

/-- An access names no slot twice. -/
theorem Access.nodup_slots {kind : InstKind} {access : Access} (h : kind.access? = some access) :
    (access.pointers.map (·.index)).Nodup ∧
      ∀ slot, access.length = some slot → slot ∉ access.pointers.map (·.index) := by
  rcases InstKind.access?_cases h with rfl | rfl | rfl | rfl
  · exact ⟨by decide, fun slot hs => nomatch hs⟩
  · exact ⟨by decide, fun slot hs => nomatch hs⟩
  · exact ⟨by decide, fun slot hs => Option.some.inj hs ▸ by decide⟩
  · exact ⟨by decide, fun slot hs => Option.some.inj hs ▸ by decide⟩

/-- The addresses of a bulk operation are no single values. -/
theorem Access.bulk {kind : InstKind} {access : Access} (h : kind.access? = some access) {slot : Nat}
    (hs : access.length = some slot) : ∀ pointer ∈ access.pointers, pointer.firstClass = false := by
  rcases InstKind.access?_cases h with rfl | rfl | rfl | rfl
  · cases hs
  · cases hs
  · decide
  · decide

/-! ## What the plan promises -/

/-- The data operands of an instruction that must not carry addresses name numbers given out. -/
def Func.Grounded (f : Func) : Prop :=
  ∀ id inst other, f.inst? id = some inst → inst.kind.route = .validate →
    .inst other ∈ inst.kind.dataOperands → other < f.cells.size

theorem Func.Placed.grounded {f : Func} {symbols : SymbolTable} {plan : Plan} (hf : f.Placed)
    (hplan : f.plan symbols = .ok plan) : f.Grounded := by
  intro id inst other hi hroute hmem
  have hid := hf.mem_order.mpr ⟨inst, hi⟩
  obtain ⟨ty, hty, -⟩ := carriesNoPointer_of_plan hplan hid hi hroute _ hmem
  exact lt_size_of_valueType hty rfl

/-- The index of a fold names a number that was given out. -/
theorem Func.index_of_fold? {f : Func} {address : Value} {size subspace : Nat} {fold : Fold}
    (hground : f.Grounded) (h : f.fold? address size subspace = some fold) :
    ∀ other, fold.index = .inst other → other < f.cells.size := by
  obtain ⟨-, -, addInst, c, offset, -, -, hadd, -, hkind, -⟩ := Func.fold?_eq_some_iff.mp h
  intro other he
  apply hground fold.add addInst other hadd
  · rw [hkind]
    rfl
  · rw [hkind, he]
    exact List.mem_cons_self

/-- The parts of a fold are a conversion and the addition that it converts. -/
theorem Func.parts_of_fold? {f : Func} {address : Value} {size subspace : Nat} {fold : Fold}
    (h : f.fold? address size subspace = some fold) :
    (∃ inst, f.inst? fold.cast = some inst ∧ inst.kind = .cast .inttoptr (.inst fold.add)) ∧
      ∃ inst c, f.inst? fold.add = some inst ∧ inst.kind = .binary .add fold.index (.const c) := by
  obtain ⟨-, castInst, addInst, c, -, hcast, hcastKind, hadd, -, haddKind, -⟩ :=
    Func.fold?_eq_some_iff.mp h
  exact ⟨⟨castInst, hcast, hcastKind⟩, addInst, c, hadd, haddKind⟩

/-- No part of a fold touches memory. -/
theorem Func.part_of_fold? {f : Func} {address : Value} {size subspace : Nat} {fold : Fold}
    (h : f.fold? address size subspace = some fold) {part : InstId}
    (hpart : part = fold.cast ∨ part = fold.add) :
    ∃ inst, f.inst? part = some inst ∧ inst.kind.access? = none := by
  obtain ⟨⟨castInst, hcast, hcastKind⟩, addInst, c, hadd, haddKind⟩ := Func.parts_of_fold? h
  rcases hpart with rfl | rfl
  · exact ⟨castInst, hcast, by rw [hcastKind]; rfl⟩
  · exact ⟨addInst, hadd, by rw [haddKind]; rfl⟩

/-- The folds found while a body is confined are folds of the body. -/
theorem Func.fold?_of_advances {f g : Func} {ids : List InstId} {base : Option InstId}
    {address : Value} {size subspace : Nat} {fold : Fold}
    (hf : f.Advances f.cells.size ids base g) (hground : f.Grounded)
    (haddress : ∀ other, address = .inst other → other < f.cells.size)
    (h : g.fold? address size subspace = some fold) :
    f.fold? address size subspace = some fold := by
  obtain ⟨haddr, castInst, addInst, c, offset, hcast, hcastKind, hadd, haddTy, haddKind, hoffset,
    hguard, hfold⟩ := Func.fold?_eq_some_iff.mp h
  obtain ⟨oldCast, holdCast, -, haccess, hkind⟩ :=
    hf.back fold.cast castInst (haddress fold.cast haddr) hcast
  rw [hcastKind] at haccess hkind
  have hkind := hkind haccess.symm
  -- the conversion reads the addition, so the plan has seen the number of the addition
  have hlt : fold.add < f.cells.size := by
    apply hground fold.cast oldCast fold.add holdCast
    · rw [← hkind]
      rfl
    · rw [← hkind]
      exact List.mem_singleton.mpr rfl
  obtain ⟨oldAdd, holdAdd, hty, haccess', hkind'⟩ := hf.back fold.add addInst hlt hadd
  rw [haddKind] at haccess' hkind'
  exact Func.fold?_eq_some_iff.mpr ⟨haddr, oldCast, oldAdd, c, offset, holdCast, hkind.symm, holdAdd,
    hty ▸ haddTy, (hkind' haccess'.symm).symm, hoffset, hguard, hfold⟩

/-! ## Drafts -/

/-- A draft whose load of the base, if there is one, is an inserted instruction. -/
structure Draft.Ready (n : Nat) (symbol : GlobalId) (d : Draft) : Prop where
  size : n ≤ d.func.cells.size
  symbol_eq : d.base.symbol = symbol
  loaded : ∀ base, d.base.loaded = some base →
    d.func.Inserted n base (.load (.global symbol)) (.int 64)

/-- A draft and what a step of work makes of it. -/
structure Draft.Advances (n : Nat) (symbol : GlobalId) (ids : List InstId) (d e : Draft) :
    Prop where
  func : d.func.Advances n ids e.base.loaded e.func
  ready : e.Ready n symbol
  loaded : ∀ base, d.base.loaded = some base → e.base.loaded = some base

namespace Draft

variable {n : Nat} {symbol : GlobalId} {ids ids' : List InstId} {d e k : Draft}

theorem Advances.refl (hd : d.Ready n symbol) (ids : List InstId) : d.Advances n symbol ids d where
  func := Func.Advances.refl n ids _ _
  ready := hd
  loaded := fun _ h => h

theorem Advances.mono (hde : d.Advances n symbol ids e) (hids : ids ⊆ ids') :
    d.Advances n symbol ids' e :=
  ⟨hde.func.mono hids, hde.ready, hde.loaded⟩

theorem Advances.trans (hde : d.Advances n symbol ids e) (hek : e.Advances n symbol ids k) :
    d.Advances n symbol ids k where
  func := hde.func.trans hek.func hek.loaded
  ready := hek.ready
  loaded := fun base h => hek.loaded base (hde.loaded base h)

/-- Work that leaves the base alone. -/
theorem Advances.of_func (hd : d.Ready n symbol) (hbase : e.base = d.base)
    (hfunc : d.func.Advances n ids d.base.loaded e.func) : d.Advances n symbol ids e := by
  refine ⟨?_, ⟨Nat.le_trans hd.size hfunc.size, ?_, ?_⟩, ?_⟩
  · rw [hbase]
    exact hfunc
  · rw [hbase]
    exact hd.symbol_eq
  · intro base h
    rw [hbase] at h
    exact (hd.loaded base h).keep hfunc.keeps
  · intro base h
    rw [hbase]
    exact h

/-- The load of the base has a number that was given out. -/
theorem Ready.lt_size (hd : d.Ready n symbol) {base : InstId} (h : d.base.loaded = some base) :
    base < d.func.cells.size := by
  obtain ⟨-, inst, hi, -⟩ := hd.loaded base h
  exact lt_size_of_inst? hi

end Draft

namespace Drafting

variable {f : Func} {cx : Context} {d e : Draft} {id : InstId} {slot : PointerSlot}
  {symbol : GlobalId}

/-- The base is loaded by an inserted instruction, and no access is touched. -/
theorem loadBase_advances {n : Nat} {base : InstId} (hrun : loadBase.run d = .ok base e)
    (hd : d.Ready n symbol) : d.Advances n symbol [] e ∧ e.base.loaded = some base := by
  rcases loadBase_eq_ok hrun with ⟨hloaded, rfl⟩ | ⟨entry, hnone, -, hinsert, hbase⟩
  · exact ⟨Draft.Advances.refl hd [], hloaded⟩
  · have hloaded : e.base.loaded = some base := by rw [hbase]
    obtain ⟨hid, hsize, hinst⟩ := Edit.inst?_insertAtHead hinsert
    have hself := hinst base
    rw [if_pos rfl] at hself
    have hfunc : d.func.Advances n [] (some base) e.func := by
      refine Func.Advances.insertAtHead hinsert hd.size (fun other hother => ?_) []
      simp [InstKind.operands] at hother
    refine ⟨⟨hloaded ▸ hfunc, ⟨Nat.le_trans hd.size hfunc.size, ?_, ?_⟩, ?_⟩, hloaded⟩
    · rw [hbase]
      exact hd.symbol_eq
    · intro b hb
      cases hloaded.symm.trans hb
      exact ⟨hid ▸ hd.size, _, hself, by rw [hd.symbol_eq], rfl⟩
    · intro b hb
      rw [hnone] at hb
      cases hb

end Drafting

/-! ## One address -/

/-- Only single values are folded. -/
theorem Func.foldFor?_eq_some_iff {f : Func} {cx : Context} {slot : PointerSlot} {address : Value}
    {pointee : Ty} {fold : Fold} : f.foldFor? cx slot address pointee = some fold ↔
      slot.firstClass = true ∧
        f.fold? address (cx.layout.storeSize pointee) cx.region.width.size = some fold := by
  rw [foldFor?]
  split
  · next hfirst => simp [hfirst]
  · next hfirst => simp [hfirst]

/-- A landing takes the place of an address in a slot: as the address that it is, or as a fold that
the body has there. -/
def Landing.Takes (f : Func) (layout : DataLayout) (width : Width) (slot : PointerSlot)
    (address : Value) (pointee : Ty) : Landing → Prop
  | .plain found => found = address
  | .folded fold => slot.firstClass = true ∧
      f.fold? address (layout.storeSize pointee) width.size = some fold

/-- What a slot reads is a confined address that stands for what it read before. -/
def Func.Confines (f g : Func) (cx : Context) (base : InstId) (slot : PointerSlot)
    (address : Value) (pointer : InstId) : Prop :=
  ∃ pointee landing, g.Lands f.cells.size cx.region.width base (.ptr pointee) landing pointer ∧
    landing.Takes f cx.layout cx.region.width slot address pointee

theorem Func.Confines.keep {f g h : Func} {cx : Context} {base : InstId} {slot : PointerSlot}
    {address : Value} {pointer : InstId} (hc : f.Confines g cx base slot address pointer)
    (hk : g.Keeps f.cells.size h) : f.Confines h cx base slot address pointer := by
  obtain ⟨pointee, landing, hlands, htakes⟩ := hc
  exact ⟨pointee, landing, hlands.keep hk, htakes⟩

namespace Edit

variable {f g h : Func} {ids : List InstId} {base : Option InstId}

/-- Removing an unread instruction of the body that is no access. -/
theorem eraseUnread_advances {n : Nat} {id : InstId} {count : Nat}
    (hrun : (eraseUnread id).run g = .ok count h) (hid : id < n)
    (hquiet : ∀ inst, g.inst? id = some inst → inst.kind.access? = none) (ids : List InstId)
    (base : Option InstId) : g.Advances n ids base h := by
  rcases eraseUnread_eq_ok hrun with ⟨-, rfl⟩ | ⟨-, herase⟩
  · exact Func.Advances.refl n ids base _
  · obtain ⟨inst, b, place, -, hi, -, -⟩ := (erase_serves g id).of_ok herase
    exact Func.Advances.erase herase hid hi (hquiet inst hi) ids base

/-- A fold of the body is retired in favour of inserted instructions. -/
theorem retire_advances {address : Value} {size subspace : Nat} {fold : Fold}
    {successors : Successors} {count : Nat} (hrun : (retire fold successors).run g = .ok count h)
    (hf : f.Advances f.cells.size ids base g)
    (hfold : f.fold? address size subspace = some fold) (hadd : f.cells.size ≤ successors.add)
    (hcast : f.cells.size ≤ successors.cast) :
    g.Advances f.cells.size [] base h := by
  obtain ⟨f₁, f₂, f₃, casts, adds, hrun₁, hrun₂, hrun₃, hrun₄, -⟩ := retire_eq_ok hrun
  obtain ⟨-, castInst, addInst, c, offset, holdCast, hcastKind, holdAdd, -, haddKind, -⟩ :=
    Func.fold?_eq_some_iff.mp hfold
  -- whatever is left of the conversion and of the addition is no access
  have hquiet : ∀ k, g.Advances f.cells.size [] base k → ∀ id old, f.inst? id = some old →
      old.kind.access? = none → ∀ inst, k.inst? id = some inst → inst.kind.access? = none := by
    intro k hgk id old hold hnone inst hi
    obtain ⟨mid, hmid, -, haccess, -⟩ := hgk.back id inst (lt_size_of_inst? hold) hi
    obtain ⟨first, hfirst, -, haccess', -⟩ := hf.back id mid (lt_size_of_inst? hold) hmid
    cases hold.symm.trans hfirst
    rw [haccess, haccess', hnone]
  -- two positions are handed on, then the conversion goes before the addition that it reads
  have hg₁ : g.Advances f.cells.size [] base f₁ := .setLoc hrun₁ hadd [] base
  have hg₂ := hg₁.trans (.setLoc hrun₂ hcast [] base) fun _ hb => hb
  have hg₃ := hg₂.trans (eraseUnread_advances hrun₃ (lt_size_of_inst? holdCast)
    (hquiet f₂ hg₂ fold.cast castInst holdCast (by rw [hcastKind]; rfl)) [] base) fun _ hb => hb
  exact hg₃.trans (eraseUnread_advances hrun₄ (lt_size_of_inst? holdAdd)
    (hquiet f₃ hg₃ fold.add addInst holdAdd (by rw [haddKind]; rfl)) [] base) fun _ hb => hb

section Rewritten

variable {cx : Context} {id b : InstId} {slot : PointerSlot} {inst : Inst} {address : Value}
  {pointee : Ty} {k : Func}

/-- A slot of an access has been given a plain address. -/
theorem plain_confines {pointer : InstId}
    (hemit : (emitPlain cx.region.width b id address (.ptr pointee)).run g = .ok pointer h)
    (hreplace : (replaceOperand id slot.index (.inst pointer)).run h = .ok () k)
    (hn : f.cells.size ≤ g.cells.size) (hb : b < g.cells.size)
    (hgiven : ∀ other, address = .inst other → other < f.cells.size)
    (hi : g.inst? id = some inst) (hid : id < f.cells.size) (ha : inst.kind.access? ≠ none) :
    g.Advances f.cells.size [id] base k ∧
      k.inst? id = some { inst with kind := inst.kind.setOperand slot.index (.inst pointer) } ∧
      f.Confines k cx b slot address pointer := by
  obtain ⟨hemits, hlands⟩ := emits_emitPlain hemit hn hb
    fun other he => Nat.lt_of_lt_of_le (hgiven other he) hn
  obtain ⟨hhk, hik⟩ := Func.Advances.replaceOperand hreplace hid (hemits.inst?_eq_some hi) ha base
  have hgh : g.Advances f.cells.size [id] base h := .emits hemits hn [id] base
  refine ⟨hgh.trans hhk fun _ hb => hb, hik, ?_⟩
  exact ⟨pointee, .plain address, hlands.keep hhk.keeps, rfl⟩

/-- A slot of an access has been given a folded address, and the fold has been retired. -/
theorem folded_confines {fold : Fold} {successors : Successors} {l : Func} {removed : Nat}
    (hemit : (emitFolded cx.region.width b id fold (.ptr pointee)).run g = .ok successors h)
    (hreplace : (replaceOperand id slot.index (.inst successors.cast)).run h = .ok () k)
    (hretire : (retire fold successors).run k = .ok removed l)
    (hf : f.Advances f.cells.size ids base g) (hground : f.Grounded)
    (hn : f.cells.size ≤ g.cells.size) (hb : b < g.cells.size)
    (hfirst : slot.firstClass = true)
    (hfold : f.fold? address (cx.layout.storeSize pointee) cx.region.width.size = some fold)
    (hi : g.inst? id = some inst) (hid : id < f.cells.size) (ha : inst.kind.access? ≠ none) :
    g.Advances f.cells.size [id] base l ∧
      l.inst? id =
        some { inst with kind := inst.kind.setOperand slot.index (.inst successors.cast) } ∧
      f.Confines l cx b slot address successors.cast := by
  have hindex : ∀ other, fold.index = .inst other → other < g.cells.size := fun other he =>
    Nat.lt_of_lt_of_le (Func.index_of_fold? hground hfold other he) hn
  obtain ⟨hemits, hlands, hadd, hcast⟩ := emits_emitFolded hemit hn hb hindex
  obtain ⟨hhk, hik⟩ := Func.Advances.replaceOperand hreplace hid (hemits.inst?_eq_some hi) ha base
  have hgh : g.Advances f.cells.size [id] base h := .emits hemits hn [id] base
  have hgk := hgh.trans hhk fun _ hb => hb
  have hfk : f.Advances f.cells.size (ids ++ [id]) base k :=
    (hf.mono (List.subset_append_left ids [id])).trans
      (hgk.mono (List.subset_append_right ids [id])) fun _ hb => hb
  -- what is retired is no access, so the slot stays as it is now
  have hkl := retire_advances hretire hfk hfold hadd hcast
  refine ⟨hgk.trans (hkl.mono (List.nil_subset [id])) fun _ hb => hb, ?_, ?_⟩
  · exact hkl.other id _ hid List.not_mem_nil hik
      (by rw [InstKind.access?_setOperand]; exact ha)
  · exact ⟨pointee, .folded fold, hlands.keep (hhk.keeps.trans hkl.keeps), hfirst, hfold⟩

end Rewritten

end Edit

namespace Drafting

variable {f : Func} {cx : Context} {d e : Draft} {id : InstId} {slot : PointerSlot} {inst : Inst}
  {ids : List InstId}

/-- One address of an access is confined: the slot reads what stands for its old value, the access
is the same otherwise, and so is every other access. -/
theorem confinePointer_confines {outcome : PointerOutcome}
    (hrun : (confinePointer cx id slot).run d = .ok outcome e)
    (hd : d.Ready f.cells.size cx.region.memoryBase)
    (hf : f.Advances f.cells.size ids d.base.loaded d.func) (hground : f.Grounded)
    (hi : d.func.inst? id = some inst) (hid : id < f.cells.size)
    (ha : inst.kind.access? ≠ none)
    (hread : ∀ other, inst.kind.operand? slot.index = some (.inst other) →
      other < f.cells.size) :
    d.Advances f.cells.size cx.region.memoryBase [id] e ∧
      ∃ base address pointer, e.base.loaded = some base ∧
        inst.kind.operand? slot.index = some address ∧
        e.func.inst? id =
          some { inst with kind := inst.kind.setOperand slot.index (.inst pointer) } ∧
        f.Confines e.func cx base slot address pointer := by
  obtain ⟨base, u, address, pointee, g, hbase, hsame, haddress, -, hcase⟩ :=
    confinePointer_eq_ok hrun
  obtain ⟨hdu, hloaded⟩ := loadBase_advances hbase hd
  have hu := hdu.ready
  have hiu : u.func.inst? id = some inst := hdu.func.other id inst hid List.not_mem_nil hi ha
  rw [operand?_eq hiu] at haddress
  have hgiven : ∀ other, address = .inst other → other < f.cells.size := fun other he =>
    hread other (he ▸ haddress)
  have hfu : f.Advances f.cells.size ids u.base.loaded u.func :=
    hf.trans (hdu.func.mono (List.nil_subset ids)) hdu.loaded
  -- either way the edits behind the load of the base amount to the same
  suffices hafter : ∃ pointer, u.func.Advances f.cells.size [id] u.base.loaded e.func ∧
      e.func.inst? id =
        some { inst with kind := inst.kind.setOperand slot.index (.inst pointer) } ∧
      f.Confines e.func cx base slot address pointer by
    obtain ⟨pointer, hue, hie, hconfines⟩ := hafter
    exact ⟨(hdu.mono (List.nil_subset [id])).trans (.of_func hu hsame hue),
      base, address, pointer, hsame ▸ hloaded, haddress, hie, hconfines⟩
  rcases hcase with ⟨-, pointer, hemit, hreplace, -⟩ |
    ⟨fold, successors, k, removed, hfold, hemit, hreplace, hretire, -⟩
  · exact ⟨pointer, Edit.plain_confines hemit hreplace hu.size (hu.lt_size hloaded) hgiven hiu hid
      ha⟩
  · obtain ⟨hfirst, hfold⟩ := foldFor?_eq_some_iff.mp hfold
    have hfold := Func.fold?_of_advances hfu hground hgiven hfold
    exact ⟨successors.cast, Edit.folded_confines hemit hreplace hretire hfu hground hu.size
      (hu.lt_size hloaded) hfirst hfold hiu hid ha⟩

/-! ## One access -/

/-- The addresses of an access are confined one after the other, each once. -/
theorem confinePointers_confines {slots : List PointerSlot} {tally : Tally}
    (hrun : (confinePointers cx id slots).run d = .ok tally e)
    (hd : d.Ready f.cells.size cx.region.memoryBase)
    (hf : f.Advances f.cells.size ids d.base.loaded d.func) (hground : f.Grounded)
    (hi : d.func.inst? id = some inst) (hid : id < f.cells.size)
    (ha : inst.kind.access? ≠ none) (honce : (slots.map (·.index)).Nodup)
    (hread : ∀ slot ∈ slots, ∀ other, inst.kind.operand? slot.index = some (.inst other) →
      other < f.cells.size) :
    d.Advances f.cells.size cx.region.memoryBase [id] e ∧
      ∃ later, e.func.inst? id = some later ∧ later.kind.access? = inst.kind.access? ∧
        (∀ index, index ∉ slots.map (·.index) →
          later.kind.operand? index = inst.kind.operand? index) ∧
        ∀ slot ∈ slots, ∃ base address pointer, e.base.loaded = some base ∧
          inst.kind.operand? slot.index = some address ∧
          later.kind.operand? slot.index = some (.inst pointer) ∧
          f.Confines e.func cx base slot address pointer := by
  induction slots generalizing d inst ids tally with
  | nil =>
    obtain ⟨-, rfl⟩ := run_pure_eq_ok.mp hrun
    exact ⟨Draft.Advances.refl hd [id], inst, hi, rfl, fun _ _ => rfl,
      fun slot hslot => absurd hslot List.not_mem_nil⟩
  | cons slot slots ih =>
    obtain ⟨here, u, rest, hhere, hrest, -⟩ := confinePointers_cons_eq_ok hrun
    obtain ⟨hdu, base, address, pointer, hbase, haddress, hiu, hconfines⟩ :=
      confinePointer_confines hhere hd hf hground hi hid ha
        (hread slot List.mem_cons_self)
    rw [List.map_cons, List.nodup_cons] at honce
    obtain ⟨hnew, honce⟩ := honce
    have hfu : f.Advances f.cells.size (ids ++ [id]) u.base.loaded u.func :=
      (hf.mono (List.subset_append_left ids [id])).trans
        (hdu.func.mono (List.subset_append_right ids [id])) hdu.loaded
    -- the other slots still read what they read before, since no slot is named twice
    have hkept : ∀ index, index ≠ slot.index →
        (inst.kind.setOperand slot.index (.inst pointer)).operand? index =
          inst.kind.operand? index := fun index hne =>
      InstKind.operand?_setOperand_of_ne _ hne
    have hne : ∀ other ∈ slots, other.index ≠ slot.index := fun other hother he =>
      hnew (he ▸ List.mem_map_of_mem hother)
    obtain ⟨hue, later, hlater, haccess, hothers, hall⟩ := ih hrest hdu.ready hfu hiu
      (by rw [InstKind.access?_setOperand]; exact ha) honce
      (by
        intro other hother v hv
        rw [hkept other.index (hne other hother)] at hv
        exact hread other (List.mem_cons_of_mem slot hother) v hv)
    rw [InstKind.access?_setOperand] at haccess
    refine ⟨hdu.trans hue, later, hlater, haccess, ?_, ?_⟩
    · intro index hindex
      rw [List.map_cons, List.mem_cons, not_or] at hindex
      rw [hothers index hindex.2, hkept index hindex.1]
    · intro found hfound
      rcases List.mem_cons.mp hfound with rfl | hfound
      · -- the first slot: later work leaves its new address alone
        refine ⟨base, address, pointer, hue.loaded base hbase, haddress, ?_,
          hconfines.keep hue.func.keeps⟩
        rw [hothers found.index hnew]
        exact InstKind.operand?_setOperand_self _ (List.getElem?_eq_some_iff.mp haddress).1
      · obtain ⟨base', address', pointer', hbase', haddress', hpointer', hconfines'⟩ :=
          hall found hfound
        rw [hkept found.index (hne found hfound)] at haddress'
        exact ⟨base', address', pointer', hbase', haddress', hpointer', hconfines'⟩

/-- The length of an access is masked as far as the width asks for it. -/
theorem confineLength_caps {length : Option Nat} {tally : Tally}
    (hrun : (confineLength cx id length).run d = .ok tally e)
    (hd : d.Ready f.cells.size cx.region.memoryBase)
    (hi : d.func.inst? id = some inst) (hid : id < f.cells.size)
    (ha : inst.kind.access? ≠ none)
    (hread : ∀ slot, length = some slot → ∃ v, inst.kind.operand? slot = some v ∧
      ∀ other, v = .inst other → other < f.cells.size) :
    d.Advances f.cells.size cx.region.memoryBase [id] e ∧
      ∃ later, e.func.inst? id = some later ∧ later.kind.access? = inst.kind.access? ∧
        (∀ index, length ≠ some index →
          later.kind.operand? index = inst.kind.operand? index) ∧
        ∀ slot, length = some slot → ∃ old new, inst.kind.operand? slot = some old ∧
          later.kind.operand? slot = some new ∧
          e.func.Caps f.cells.size cx.region.width old new := by
  cases length with
  | none =>
    obtain ⟨-, rfl⟩ := run_pure_eq_ok.mp hrun
    exact ⟨Draft.Advances.refl hd [id], inst, hi, rfl, fun _ _ => rfl, fun slot hs => nomatch hs⟩
  | some slot =>
    obtain ⟨old, hold, hgiven⟩ := hread slot rfl
    obtain ⟨masked, hedit, hsame, -⟩ := confineLength_some_eq_ok hrun
    rcases Edit.confineLength_eq_ok hedit with ⟨hmask, -, hfunc⟩ |
      ⟨mask, found, bits, kept, mid, hmask, -, hfound, -, hinsert, hreplace⟩
    · -- without a mask nothing happens
      refine ⟨.of_func hd hsame (hfunc ▸ Func.Advances.refl _ _ _ _), inst, hfunc ▸ hi, rfl,
        fun _ _ => rfl, fun found hs => ?_⟩
      cases hs
      exact ⟨old, old, hold, hold, .whole hmask⟩
    · rw [operand?_eq hi] at hfound
      cases hold.symm.trans hfound
      obtain ⟨hemits, hkept, -⟩ := emits_insertBefore hinsert hd.size
        (InstKind.older_binary (fun other he => Nat.lt_of_lt_of_le (hgiven other he) hd.size)
          Value.int_older) rfl
      obtain ⟨hadvances, hlater⟩ := Func.Advances.replaceOperand hreplace hid
        (hemits.inst?_eq_some hi) ha d.base.loaded
      refine ⟨.of_func hd hsame ((Func.Advances.emits hemits hd.size [id] d.base.loaded).trans
        hadvances fun _ hb => hb), _, hlater, InstKind.access?_setOperand _ _ _, ?_, ?_⟩
      · intro index hne
        exact InstKind.operand?_setOperand_of_ne _ fun he => hne (congrArg some he.symm)
      · intro other hs
        cases hs
        exact ⟨old, .inst kept, hold,
          InstKind.operand?_setOperand_self _ (List.getElem?_eq_some_iff.mp hold).1,
          .masked hmask (hkept.keep hadvances.keeps)⟩

end Drafting

/-- An access of the body reads confined addresses and a masked length. -/
structure Func.Treated (f g : Func) (cx : Context) (base : Option InstId) (planned : Planned) :
    Prop where
  /-- It is the same access, but for its slots. -/
  live : ∃ old later, f.inst? planned.id = some old ∧ g.inst? planned.id = some later ∧
    old.kind.access? = some planned.access ∧ later.kind.access? = some planned.access
  pointers : ∀ slot ∈ planned.access.pointers, ∃ b address pointer, base = some b ∧
    f.operand? planned.id slot.index = some address ∧
    g.operand? planned.id slot.index = some (.inst pointer) ∧
    f.Confines g cx b slot address pointer
  length : ∀ slot, planned.access.length = some slot → ∃ old new,
    f.operand? planned.id slot = some old ∧ g.operand? planned.id slot = some new ∧
    g.Caps f.cells.size cx.region.width old new

/-- Work on other accesses leaves a treated one treated. -/
theorem Func.Treated.advance {f : Func} {cx : Context} {planned : Planned} {d e : Draft}
    {symbol : GlobalId} {ids : List InstId} (ht : f.Treated d.func cx d.base.loaded planned)
    (hde : d.Advances f.cells.size symbol ids e) (hnot : planned.id ∉ ids) :
    f.Treated e.func cx e.base.loaded planned := by
  obtain ⟨old, later, hold, hlater, hacc, hacc'⟩ := ht.live
  have hkeep : e.func.inst? planned.id = some later :=
    hde.func.other planned.id later (lt_size_of_inst? hold) hnot hlater
      (by rw [hacc']; exact Option.some_ne_none _)
  have hoperand : ∀ slot, e.func.operand? planned.id slot = d.func.operand? planned.id slot := by
    intro slot
    rw [operand?_eq hkeep, operand?_eq hlater]
  refine ⟨⟨old, later, hold, hkeep, hacc, hacc'⟩, ?_, ?_⟩
  · intro slot hslot
    obtain ⟨b, address, pointer, hb, haddress, hpointer, hconfines⟩ := ht.pointers slot hslot
    exact ⟨b, address, pointer, hde.loaded b hb, haddress, (hoperand _).trans hpointer,
      hconfines.keep hde.func.keeps⟩
  · intro slot hslot
    obtain ⟨o, v, ho, hv, hcaps⟩ := ht.length slot hslot
    exact ⟨o, v, ho, (hoperand _).trans hv, hcaps.keep hde.func.keeps⟩

namespace Drafting

variable {f : Func} {cx : Context} {symbols : SymbolTable} {d e : Draft} {ids : List InstId}
  {tally : Tally}

/-- An entry of a plan that is as it was gets treated. -/
theorem confineAccess_treats {planned : Planned} {inst : Inst}
    (hrun : (confineAccess cx planned).run d = .ok tally e)
    (hd : d.Ready f.cells.size cx.region.memoryBase)
    (hf : f.Advances f.cells.size ids d.base.loaded d.func) (hground : f.Grounded)
    (hold : f.inst? planned.id = some inst) (ha : inst.kind.access? = some planned.access)
    (hok : f.AccessOk symbols inst.kind planned.access)
    (hi : d.func.inst? planned.id = some inst) :
    d.Advances f.cells.size cx.region.memoryBase [planned.id] e ∧
      f.Treated e.func cx e.base.loaded planned := by
  rcases confineAccess_eq_ok hrun with ⟨hgone, -, -⟩ |
    ⟨-, u, pointers, length, hpointers, hlength, -⟩
  · -- the access is live, so it is not passed over
    rw [hi] at hgone
    cases hgone
  have hid := lt_size_of_inst? hold
  have hne : inst.kind.access? ≠ none := by rw [ha]; exact Option.some_ne_none _
  obtain ⟨honce, hapart⟩ := Access.nodup_slots ha
  obtain ⟨hdu, mid, hmid, hmidAccess, hmidOther, hmidAll⟩ :=
    confinePointers_confines hpointers hd hf hground hi hid hne honce
      fun slot hslot other hv => hok.lt_size hslot hv
  obtain ⟨hue, later, hlater, hlaterAccess, hlaterOther, hlaterAll⟩ :=
    confineLength_caps hlength hdu.ready hmid hid (by rw [hmidAccess]; exact hne)
      (by
        intro slot hslot
        obtain ⟨v, bits, hv, hty⟩ := hok.length slot hslot
        rw [hmidOther slot (hapart slot hslot)]
        exact ⟨v, hv, fun other he => lt_size_of_valueType hty he⟩)
  refine ⟨hdu.trans hue, ⟨inst, later, hold, hlater, ha, ?_⟩, ?_, ?_⟩
  · rw [hlaterAccess, hmidAccess, ha]
  · intro slot hslot
    obtain ⟨base, address, pointer, hbase, haddress, hpointer, hconfines⟩ := hmidAll slot hslot
    have hkept := hlaterOther slot.index fun hs =>
      hapart slot.index hs (List.mem_map_of_mem hslot)
    exact ⟨base, address, pointer, hue.loaded base hbase, (operand?_eq hold _).trans haddress,
      (operand?_eq hlater _).trans (hkept.trans hpointer), hconfines.keep hue.func.keeps⟩
  · intro slot hslot
    obtain ⟨o, v, ho, hv, hcaps⟩ := hlaterAll slot hslot
    rw [hmidOther slot (hapart slot hslot)] at ho
    exact ⟨o, v, (operand?_eq hold _).trans ho, (operand?_eq hlater _).trans hv, hcaps⟩

/-- What is pending is as it was, since an access is written at its own turn only. -/
theorem pending_of_advances {planned : Planned} {plan : Plan} {symbol : GlobalId}
    (hde : d.Advances f.cells.size symbol [planned.id] e) (hnew : planned.id ∉ plan.map (·.id))
    (hplan : ∀ other ∈ plan, ∃ inst, f.inst? other.id = some inst ∧
      inst.kind.access? = some other.access ∧ f.AccessOk symbols inst.kind other.access)
    (hpending : ∀ other ∈ plan, d.func.inst? other.id = f.inst? other.id) :
    ∀ other ∈ plan, e.func.inst? other.id = f.inst? other.id := by
  intro other hother
  obtain ⟨inst, hold, ha, -⟩ := hplan other hother
  have hne : other.id ∉ [planned.id] := by
    intro hmem
    rw [List.mem_singleton] at hmem
    exact hnew (hmem ▸ List.mem_map_of_mem hother)
  rw [hold]
  exact hde.func.other other.id inst (lt_size_of_inst? hold) hne
    ((hpending other hother).trans hold) (by rw [ha]; exact Option.some_ne_none _)

/-- All entries of a plan get treated, whatever is done for one of them. -/
theorem confinePlan_treats {plan : Plan}
    (hrun : (confinePlan cx plan).run d = .ok tally e)
    (hd : d.Ready f.cells.size cx.region.memoryBase)
    (hf : f.Advances f.cells.size ids d.base.loaded d.func) (hground : f.Grounded)
    (hplan : ∀ planned ∈ plan, ∃ inst, f.inst? planned.id = some inst ∧
      inst.kind.access? = some planned.access ∧ f.AccessOk symbols inst.kind planned.access)
    (honce : (plan.map (·.id)).Nodup)
    (hpending : ∀ planned ∈ plan, d.func.inst? planned.id = f.inst? planned.id) :
    d.Advances f.cells.size cx.region.memoryBase (plan.map (·.id)) e ∧
      ∀ planned ∈ plan, f.Treated e.func cx e.base.loaded planned := by
  induction plan generalizing d ids tally with
  | nil =>
    obtain ⟨-, rfl⟩ := run_pure_eq_ok.mp hrun
    exact ⟨Draft.Advances.refl hd _, fun planned hp => absurd hp List.not_mem_nil⟩
  | cons planned plan ih =>
    obtain ⟨here, u, rest, hhere, hrest, -⟩ := confinePlan_cons_eq_ok hrun
    rw [List.map_cons, List.nodup_cons] at honce
    obtain ⟨hnew, honce⟩ := honce
    obtain ⟨inst, hold, ha, hok⟩ := hplan planned List.mem_cons_self
    obtain ⟨hdu, htreated⟩ := confineAccess_treats hhere hd hf hground hold ha hok
      ((hpending planned List.mem_cons_self).trans hold)
    have hfu : f.Advances f.cells.size (ids ++ [planned.id]) u.base.loaded u.func :=
      (hf.mono (List.subset_append_left ids [planned.id])).trans
        (hdu.func.mono (List.subset_append_right ids [planned.id])) hdu.loaded
    have hplan' := (List.forall_mem_cons.mp hplan).2
    have hpending' := pending_of_advances hdu hnew hplan' (List.forall_mem_cons.mp hpending).2
    obtain ⟨hue, hall⟩ := ih hrest hdu.ready hfu hplan' honce hpending'
    refine ⟨(hdu.mono ?_).trans (hue.mono ?_), ?_⟩
    · intro id hid
      rw [List.mem_singleton] at hid
      exact hid ▸ List.mem_cons_self
    · exact List.subset_cons_self _ _
    · intro other hother
      rcases List.mem_cons.mp hother with rfl | hother
      · exact htreated.advance hue hnew
      · exact hall other hother

end Drafting

/-! ## A body -/

/-- What a body has become: its accesses are treated, and what else touches memory is the load of
the base that it was given. -/
structure Func.Sandboxed (f g : Func) (cx : Context) (base : Option InstId) : Prop where
  older : g.ReadsOlder f.cells.size
  load : ∀ b, base = some b →
    g.Inserted f.cells.size b (.load (.global cx.region.memoryBase)) (.int 64)
  access : ∀ id inst access, g.inst? id = some inst → inst.kind.access? = some access →
    base = some id ∨ f.Treated g cx base { id, access }

/-- A body that was planned and confined is sandboxed. -/
theorem Edit.confineBody_sandboxed {f g : Func} {cx : Context} {symbols : SymbolTable} {plan : Plan}
    {body : BodyTally} (hf : f.Placed) (hplan : f.plan symbols = .ok plan)
    (hrun : (Edit.confineBody cx plan).run f = .ok body g) :
    ∃ base, f.Sandboxed g cx base := by
  obtain ⟨e, hplanned, rfl, -⟩ := Edit.confineBody_eq_ok hrun
  have hstart : (Draft.mk f (.start cx.region.memoryBase)).Ready f.cells.size
      cx.region.memoryBase := ⟨Nat.le_refl _, rfl, fun base h => nomatch h⟩
  obtain ⟨hadvances, hall⟩ := Drafting.confinePlan_treats hplanned hstart
    (Func.Advances.refl f.cells.size [] none f) (hf.grounded hplan)
    (fun planned hp => accessOk_of_plan hplan hp) (nodup_plan hplan hf.nodup_order)
    (fun _ _ => rfl)
  refine ⟨e.base.loaded, ?_, hadvances.ready.loaded, ?_⟩
  · exact hadvances.func.older fun id inst hle hi =>
      absurd (lt_size_of_inst? hi) (Nat.not_lt.mpr hle)
  · intro id later access hlater haccess
    have hne : later.kind.access? ≠ none := by rw [haccess]; exact Option.some_ne_none _
    rcases Nat.lt_or_ge id f.cells.size with hold | hnew
    · -- an access of the body was one before, so the plan has it
      obtain ⟨inst, hi, -, hsame, -⟩ := hadvances.func.back id later hold hlater
      rw [haccess] at hsame
      exact Or.inr (hall _ (mem_plan hplan (hf.mem_order.mpr ⟨inst, hi⟩) hi hsame.symm))
    · exact Or.inl (hadvances.func.base_of_new hnew hlater hne)

end Confinement
