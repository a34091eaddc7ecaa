import Confinement.Proofs.Chores
import Mathlib.Algebra.Group.Basic

/-!
# Carrying out a plan step by step

A plan is carried out in steps that each confine one slot (`Chore.perform`). The check for accesses
that are gone never strikes, whatever the function: what a step removes was a conversion or an
addition, so an access that was there stays (`Drafting.perform_spares`). Carrying out a plan is then
no more than performing its chores in order, with the same draft and the same tally
(`Drafting.confinePlan_performs`), and a row of chores can be cut anywhere
(`Drafting.performAll_append_eq_ok`).
-/

set_option autoImplicit false

namespace Confinement

open Func

/-! ## Tallies -/

/-- What several parts of the work did together does not depend on their order. -/
instance : AddCommMonoid Tally where
  add_assoc a b c := by
    show (a.add b).add c = a.add (b.add c)
    simp [Tally.add, Nat.add_assoc]
  zero_add a := by
    show Tally.zero.add a = a
    simp [Tally.add, Tally.zero]
  add_zero a := by
    show a.add Tally.zero = a
    simp [Tally.add, Tally.zero]
  add_comm a b := by
    show a.add b = b.add a
    simp [Tally.add, Nat.add_comm]
  nsmul := nsmulRec

/-! ## Steps -/

/-- Does a chore, and says what was done. -/
def Chore.perform (cx : Context) : Chore → Drafting Tally
  | address id slot => return .pointer (← Drafting.confinePointer cx id slot)
  | length id slot => Drafting.confineLength cx id (some slot)

/-- Does chores one after the other. -/
def Drafting.performAll (cx : Context) : List Chore → Drafting Tally
  | [] => return 0
  | chore :: chores => do
    let here ← chore.perform cx
    let rest ← performAll cx chores
    return here + rest

namespace Drafting

variable {cx : Context} {d u e : Draft} {id : InstId} {chore : Chore} {chores more : List Chore}
  {tally : Tally}

theorem perform_address_eq_ok {slot : PointerSlot} :
    ((Chore.address id slot).perform cx).run d = .ok tally e ↔
      ∃ outcome, (confinePointer cx id slot).run d = .ok outcome e ∧ tally = .pointer outcome := by
  rw [Chore.perform, run_bind_eq_ok]
  constructor
  · rintro ⟨outcome, u, hrun, h⟩
    obtain ⟨rfl, rfl⟩ := run_pure_eq_ok.mp h
    exact ⟨outcome, hrun, rfl⟩
  · rintro ⟨outcome, hrun, rfl⟩
    exact ⟨outcome, e, hrun, rfl⟩

/-- To have been done is to have been performed with some result. -/
theorem does_iff : chore.Does cx d e ↔ ∃ tally, (chore.perform cx).run d = .ok tally e := by
  cases chore with
  | address id slot =>
    simp only [perform_address_eq_ok, Chore.Does]
    exact ⟨fun ⟨outcome, hrun⟩ => ⟨_, outcome, hrun, rfl⟩, fun ⟨_, outcome, hrun, _⟩ =>
      ⟨outcome, hrun⟩⟩
  | length id slot => rfl

theorem performAll_cons_eq_ok :
    (performAll cx (chore :: chores)).run d = .ok tally e ↔
      ∃ here u rest, (chore.perform cx).run d = .ok here u ∧
        (performAll cx chores).run u = .ok rest e ∧ tally = here + rest := by
  rw [performAll, run_bind_eq_ok]
  constructor
  · rintro ⟨here, u, hhere, h⟩
    obtain ⟨rest, v, hrest, h⟩ := run_bind_eq_ok.mp h
    obtain ⟨rfl, rfl⟩ := run_pure_eq_ok.mp h
    exact ⟨here, u, rest, hhere, hrest, rfl⟩
  · rintro ⟨here, u, rest, hhere, hrest, rfl⟩
    exact ⟨here, u, hhere, run_bind_eq_ok.mpr ⟨rest, e, hrest, rfl⟩⟩

/-- Chores can be cut into those that come first and those that follow. -/
theorem performAll_append_eq_ok :
    (performAll cx (chores ++ more)).run d = .ok tally e ↔
      ∃ first u rest, (performAll cx chores).run d = .ok first u ∧
        (performAll cx more).run u = .ok rest e ∧ tally = first + rest := by
  induction chores generalizing d tally with
  | nil =>
    constructor
    · intro h
      exact ⟨0, d, tally, rfl, h, (zero_add tally).symm⟩
    · rintro ⟨first, u, rest, h, hrest, rfl⟩
      obtain ⟨rfl, rfl⟩ := run_pure_eq_ok.mp h
      rw [zero_add]
      exact hrest
  | cons chore chores ih =>
    rw [List.cons_append, performAll_cons_eq_ok]
    constructor
    · rintro ⟨here, u, rest, hhere, hrest, rfl⟩
      obtain ⟨first, v, last, hfirst, hlast, rfl⟩ := ih.mp hrest
      exact ⟨here + first, v, last, performAll_cons_eq_ok.mpr ⟨here, u, first, hhere, hfirst, rfl⟩,
        hlast, (add_assoc here first last).symm⟩
    · rintro ⟨first, v, last, hfirst, hlast, rfl⟩
      obtain ⟨here, u, mid, hhere, hmid, rfl⟩ := performAll_cons_eq_ok.mp hfirst
      exact ⟨here, u, mid + last, hhere, ih.mpr ⟨mid, v, last, hmid, hlast, rfl⟩,
        add_assoc here mid last⟩

/-- Chores that were performed have been done. -/
theorem performAll_works (hrun : (performAll cx chores).run d = .ok tally e) :
    Draft.Works cx d chores e := by
  induction chores generalizing d tally with
  | nil =>
    obtain ⟨-, rfl⟩ := run_pure_eq_ok.mp hrun
    exact .done _
  | cons chore chores ih =>
    obtain ⟨here, u, rest, hhere, hrest, -⟩ := performAll_cons_eq_ok.mp hrun
    exact .step (does_iff.mpr ⟨here, hhere⟩) (ih hrest)

end Drafting

/-! ## Accesses stay -/

/-- The slots through which a live instruction touches memory, if it does. -/
def Func.access? (f : Func) (id : InstId) : Option Access :=
  (f.inst? id).bind (·.kind.access?)

/-- The accesses among the instructions of `f` are the same ones in `g`. -/
structure Func.Spares (f g : Func) : Prop where
  size : f.cells.size ≤ g.cells.size
  same : ∀ id, id < f.cells.size → g.access? id = f.access? id

namespace Func.Spares

variable {f g h : Func} {id anchor : InstId} {kind : InstKind} {ty : Ty} {u : Unit}

theorem refl (f : Func) : Spares f f :=
  ⟨Nat.le_refl _, fun _ _ => rfl⟩

theorem trans (hfg : Spares f g) (hgh : Spares g h) : Spares f h where
  size := Nat.le_trans hfg.size hgh.size
  same := fun id hid =>
    (hgh.same id (Nat.lt_of_lt_of_le hid hfg.size)).trans (hfg.same id hid)

/-- An access that was there is there. -/
theorem access? (hfg : Spares f g) {access : Access} (h : f.access? id = some access) :
    g.access? id = some access := by
  obtain ⟨inst, hi, -⟩ := Option.bind_eq_some_iff.mp h
  rw [hfg.same id (lt_size_of_inst? hi), h]

/-- A number that was not given out before comes to mean something. -/
theorem added {inst : Inst} (hsize : g.cells.size = f.cells.size + 1)
    (hinst : ∀ other, g.inst? other = if other = f.cells.size then some inst else f.inst? other) :
    Spares f g := by
  refine ⟨by omega, fun other hlt => ?_⟩
  rw [Func.access?, hinst, if_neg (Nat.ne_of_lt hlt)]
  rfl

theorem insertBefore (hrun : (Edit.insertBefore anchor kind ty).run f = .ok id g) :
    Spares f g := by
  obtain ⟨rfl, hsize, b, hinst⟩ := Edit.inst?_insertBefore hrun
  exact added hsize hinst

theorem insertAtHead {b : BlockId} (hrun : (Edit.insertAtHead b kind ty).run f = .ok id g) :
    Spares f g := by
  obtain ⟨rfl, hsize, hinst⟩ := Edit.inst?_insertAtHead hrun
  exact added hsize hinst

/-- One instruction is written over by another with the same slots for memory. -/
theorem written {inst later : Inst} (hi : f.inst? id = some inst)
    (hsize : g.cells.size = f.cells.size)
    (hinst : ∀ other, g.inst? other = if other = id then some later else f.inst? other)
    (haccess : later.kind.access? = inst.kind.access?) : Spares f g := by
  refine ⟨Nat.le_of_eq hsize.symm, fun other _ => ?_⟩
  rw [Func.access?, hinst, Func.access?]
  split
  · next he =>
    rw [he, hi]
    exact haccess
  · rfl

theorem replaceOperand {slot : Nat} {v : Value}
    (hrun : (Edit.replaceOperand id slot v).run f = .ok u g) : Spares f g := by
  obtain ⟨inst, old, hi, -, hsize, hinst⟩ := Edit.inst?_replaceOperand hrun
  exact written hi hsize hinst (InstKind.access?_setOperand inst.kind slot v)

theorem setLoc {loc : Option Loc} (hrun : (Edit.setLoc id loc).run f = .ok u g) : Spares f g := by
  obtain ⟨inst, hi, hsize, hinst⟩ := Edit.inst?_setLoc hrun
  exact written hi hsize hinst rfl

/-- What is removed is no access. -/
theorem eraseUnread {count : Nat} (hrun : (Edit.eraseUnread id).run f = .ok count g)
    (hquiet : f.access? id = none) : Spares f g := by
  rcases Edit.eraseUnread_eq_ok hrun with ⟨-, rfl⟩ | ⟨-, herase⟩
  · exact refl _
  · obtain ⟨hsize, hinst⟩ := Edit.inst?_erase herase
    refine ⟨Nat.le_of_eq hsize.symm, fun other _ => ?_⟩
    rw [Func.access?, hinst]
    split
    · next he =>
      rw [he, hquiet]
      rfl
    · rfl

theorem emitSum {width : Width} {base : InstId} {low : Value}
    (hrun : (Edit.emitSum width base anchor low).run f = .ok id g) : Spares f g := by
  obtain ⟨kept, mid, wide, last, hkept, hwide, hsum⟩ := Edit.emitSum_eq_ok hrun
  have hmid : Spares f mid := by
    rcases hkept with ⟨-, -, rfl⟩ | ⟨mask, masked, -, -, hand⟩
    · exact refl _
    · exact insertBefore hand
  exact (hmid.trans (insertBefore hwide)).trans (insertBefore hsum)

theorem emitPlain {width : Width} {base : InstId} {address : Value}
    (hrun : (Edit.emitPlain width base anchor address ty).run f = .ok id g) : Spares f g := by
  obtain ⟨low, mid, sum, last, hlow, hsum, hcast⟩ := Edit.emitPlain_eq_ok hrun
  exact ((insertBefore hlow).trans (emitSum hsum)).trans (insertBefore hcast)

theorem emitFolded {width : Width} {base : InstId} {fold : Fold} {successors : Edit.Successors}
    (hrun : (Edit.emitFolded width base anchor fold ty).run f = .ok successors g) :
    Spares f g := by
  obtain ⟨sum, mid, last, hsum, hadd, hcast⟩ := Edit.emitFolded_eq_ok hrun
  exact ((emitSum hsum).trans (insertBefore hadd)).trans (insertBefore hcast)

theorem retire {fold : Fold} {successors : Edit.Successors} {count : Nat}
    (hrun : (Edit.retire fold successors).run f = .ok count g) (hcast : f.access? fold.cast = none)
    (hadd : f.access? fold.add = none) (hcastLt : fold.cast < f.cells.size)
    (haddLt : fold.add < f.cells.size) : Spares f g := by
  obtain ⟨f₁, f₂, f₃, casts, adds, hrun₁, hrun₂, hrun₃, hrun₄, -⟩ := Edit.retire_eq_ok hrun
  have h₂ := (setLoc hrun₁).trans (setLoc hrun₂)
  have h₃ := h₂.trans (eraseUnread hrun₃ ((h₂.same _ hcastLt).trans hcast))
  exact h₃.trans (eraseUnread hrun₄ ((h₃.same _ haddLt).trans hadd))

end Func.Spares

namespace Drafting

variable {cx : Context} {d u e : Draft} {id : InstId} {slot : PointerSlot} {chore : Chore}
  {chores : List Chore} {tally : Tally}

theorem loadBase_spares {base : InstId} (hrun : loadBase.run d = .ok base e) :
    d.func.Spares e.func := by
  rcases loadBase_eq_ok hrun with ⟨-, rfl⟩ | ⟨entry, -, -, hinsert, -⟩
  · exact .refl _
  · exact .insertAtHead hinsert

theorem confinePointer_spares {outcome : PointerOutcome}
    (hrun : (confinePointer cx id slot).run d = .ok outcome e) : d.func.Spares e.func := by
  obtain ⟨base, u, address, pointee, g, hbase, -, -, -, hcase⟩ := confinePointer_eq_ok hrun
  refine (loadBase_spares hbase).trans ?_
  rcases hcase with ⟨-, pointer, hemit, hreplace, -⟩ |
    ⟨fold, successors, k, removed, hfold, hemit, hreplace, hretire, -⟩
  · exact (Spares.emitPlain hemit).trans (.replaceOperand hreplace)
  · have hk := (Spares.emitFolded hemit).trans (.replaceOperand hreplace)
    -- the parts of the fold were found in the draft, and are no accesses there
    have hpart : ∀ part, part = fold.cast ∨ part = fold.add →
        part < u.func.cells.size ∧ k.access? part = none := by
      intro part hpart
      obtain ⟨inst, hi, hquiet⟩ := part_of_fold? (foldFor?_eq_some_iff.mp hfold).2 hpart
      refine ⟨lt_size_of_inst? hi, ?_⟩
      rw [hk.same part (lt_size_of_inst? hi), Func.access?, hi]
      exact hquiet
    obtain ⟨hcastLt, hcast⟩ := hpart fold.cast (Or.inl rfl)
    obtain ⟨haddLt, hadd⟩ := hpart fold.add (Or.inr rfl)
    exact hk.trans (.retire hretire hcast hadd (Nat.lt_of_lt_of_le hcastLt hk.size)
      (Nat.lt_of_lt_of_le haddLt hk.size))

/-- A chore leaves every access there. -/
theorem perform_spares (hrun : (chore.perform cx).run d = .ok tally e) :
    d.func.Spares e.func := by
  cases chore with
  | address id slot =>
    obtain ⟨outcome, hrun, -⟩ := perform_address_eq_ok.mp hrun
    exact confinePointer_spares hrun
  | length id slot =>
    obtain ⟨masked, hedit, -, -⟩ := confineLength_some_eq_ok hrun
    rcases Edit.confineLength_eq_ok hedit with ⟨-, -, he⟩ |
      ⟨mask, length, bits, kept, mid, -, -, -, -, hinsert, hreplace⟩
    · rw [he]
      exact .refl _
    · exact (Spares.insertBefore hinsert).trans (.replaceOperand hreplace)

theorem performAll_spares (hrun : (performAll cx chores).run d = .ok tally e) :
    d.func.Spares e.func := by
  induction chores generalizing d tally with
  | nil =>
    obtain ⟨-, rfl⟩ := run_pure_eq_ok.mp hrun
    exact .refl _
  | cons chore chores ih =>
    obtain ⟨here, u, rest, hhere, hrest, -⟩ := performAll_cons_eq_ok.mp hrun
    exact (perform_spares hhere).trans (ih hrest)

/-! ## A plan is carried out chore by chore -/

theorem confinePointers_performs {slots : List PointerSlot}
    (hrun : (confinePointers cx id slots).run d = .ok tally e) :
    (performAll cx (slots.map (.address id))).run d = .ok tally e := by
  induction slots generalizing d tally with
  | nil => exact hrun
  | cons slot slots ih =>
    obtain ⟨here, u, rest, hhere, hrest, rfl⟩ := confinePointers_cons_eq_ok hrun
    exact performAll_cons_eq_ok.mpr ⟨.pointer here, u, rest,
      perform_address_eq_ok.mpr ⟨here, hhere, rfl⟩, ih hrest, rfl⟩

theorem confineLength_performs {length : Option Nat}
    (hrun : (confineLength cx id length).run d = .ok tally e) :
    (performAll cx (length.toList.map (.length id))).run d = .ok tally e := by
  cases length with
  | none => exact hrun
  | some slot =>
    exact performAll_cons_eq_ok.mpr ⟨tally, e, 0, hrun, rfl, (add_zero tally).symm⟩

/-- An access that is there has its chores done. -/
theorem confineAccess_performs {planned : Planned}
    (hrun : (confineAccess cx planned).run d = .ok tally e)
    (hlive : (d.func.inst? planned.id).isSome) :
    (performAll cx planned.chores).run d = .ok tally e := by
  rcases confineAccess_eq_ok hrun with ⟨hgone, -, -⟩ |
    ⟨-, u, pointers, length, hpointers, hlength, rfl⟩
  · rw [hgone] at hlive
    cases hlive
  · exact performAll_append_eq_ok.mpr ⟨pointers, u, length, confinePointers_performs hpointers,
      confineLength_performs hlength, rfl⟩

/-- Carrying out a plan whose accesses are there is performing its chores in order. -/
theorem confinePlan_performs {plan : Plan} (hrun : (confinePlan cx plan).run d = .ok tally e)
    (hlive : ∀ planned ∈ plan, d.func.access? planned.id = some planned.access) :
    (performAll cx (plan.flatMap Planned.chores)).run d = .ok tally e := by
  induction plan generalizing d tally with
  | nil => exact hrun
  | cons planned plan ih =>
    obtain ⟨here, u, rest, hhere, hrest, rfl⟩ := confinePlan_cons_eq_ok hrun
    rw [List.forall_mem_cons] at hlive
    obtain ⟨inst, hi, -⟩ := Option.bind_eq_some_iff.mp hlive.1
    have hperform := confineAccess_performs hhere (by rw [hi]; rfl)
    -- the accesses that are left are still there
    have hlater : ∀ other ∈ plan, u.func.access? other.id = some other.access := fun other hother =>
      (performAll_spares hperform).access? (hlive.2 other hother)
    exact performAll_append_eq_ok.mpr ⟨here, u, rest, hperform, ih hrest hlater, rfl⟩

end Drafting

/-- A body is confined by performing the chores of its plan. -/
theorem Edit.confineBody_performs {f g : Func} {cx : Context} {symbols : SymbolTable} {plan : Plan}
    {body : BodyTally} (hplan : f.plan symbols = .ok plan)
    (hrun : (Edit.confineBody cx plan).run f = .ok body g) :
    ∃ e : Draft, (Drafting.performAll cx (plan.flatMap Planned.chores)).run
        { func := f, base := .start cx.region.memoryBase } = .ok body.tally e ∧
      g = e.func ∧ body.loadedBase = e.base.loaded.isSome := by
  obtain ⟨e, hplanned, hg, hloaded⟩ := Edit.confineBody_eq_ok hrun
  refine ⟨e, Drafting.confinePlan_performs hplanned fun planned hp => ?_, hg, hloaded⟩
  obtain ⟨inst, hi, ha, -⟩ := accessOk_of_plan hplan hp
  exact Option.bind_eq_some_iff.mpr ⟨inst, hi, ha⟩

end Confinement
