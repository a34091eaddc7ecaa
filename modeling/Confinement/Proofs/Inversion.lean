import Confinement.Body
import Confinement.Proofs.PlanRules

/-!
# The steps of a successful rewriting

Confining a body is composed of steps that may be refused. When the whole succeeded, so did each
step, on the function that the step before it left; the lemmas below name the steps and the functions
in between, from the insertions for one address up to the accesses of a plan.
-/

set_option autoImplicit false

namespace Confinement

open Func

/-! ## Emitted instructions -/

namespace Edit

variable {f g : Func} {width : Width} {base anchor id : InstId} {low address : Value} {ty : Ty}

theorem emitSum_eq_ok (h : (emitSum width base anchor low).run f = .ok id g) :
    ∃ kept mid wide last,
      ((width.mask? = none ∧ kept = low ∧ mid = f) ∨
        ∃ mask masked, width.mask? = some mask ∧ kept = .inst masked ∧
          (insertBefore anchor (.binary .and low (.int 32 mask)) (.int 32)).run f =
            .ok masked mid) ∧
      (insertBefore anchor (.cast .zext kept) (.int 64)).run mid = .ok wide last ∧
      (insertBefore anchor (.binary .add (.inst base) (.inst wide)) (.int 64)).run last =
        .ok id g := by
  rw [emitSum] at h
  -- with a mask there is one instruction more
  cases hmask : width.mask? with
  | none =>
    simp only [hmask, pure_bind] at h
    obtain ⟨wide, last, hwide, hsum⟩ := run_bind_eq_ok.mp h
    exact ⟨low, f, wide, last, Or.inl ⟨rfl, rfl, rfl⟩, hwide, hsum⟩
  | some mask =>
    simp only [hmask] at h
    obtain ⟨kept, mid, hkept, h⟩ := run_bind_eq_ok.mp h
    obtain ⟨masked, hrun, hmasked⟩ := run_map_eq_ok.mp hkept
    obtain ⟨wide, last, hwide, hsum⟩ := run_bind_eq_ok.mp h
    exact ⟨kept, mid, wide, last, Or.inr ⟨mask, masked, rfl, hmasked, hrun⟩, hwide, hsum⟩

theorem emitPlain_eq_ok (h : (emitPlain width base anchor address ty).run f = .ok id g) :
    ∃ low mid sum last,
      (insertBefore anchor (.cast .ptrtoint address) (.int 32)).run f = .ok low mid ∧
      (emitSum width base anchor (.inst low)).run mid = .ok sum last ∧
      (insertBefore anchor (.cast .inttoptr (.inst sum)) ty).run last = .ok id g := by
  rw [emitPlain] at h
  obtain ⟨low, mid, hlow, h⟩ := run_bind_eq_ok.mp h
  obtain ⟨sum, last, hsum, hcast⟩ := run_bind_eq_ok.mp h
  exact ⟨low, mid, sum, last, hlow, hsum, hcast⟩

theorem emitFolded_eq_ok {fold : Fold} {successors : Successors}
    (h : (emitFolded width base anchor fold ty).run f = .ok successors g) :
    ∃ sum mid last,
      (emitSum width base anchor fold.index).run f = .ok sum mid ∧
      (insertBefore anchor (.binary .add (.inst sum) (.int 64 fold.offset)) (.int 64)).run mid =
        .ok successors.add last ∧
      (insertBefore anchor (.cast .inttoptr (.inst successors.add)) ty).run last =
        .ok successors.cast g := by
  rw [emitFolded] at h
  obtain ⟨sum, mid, hsum, h⟩ := run_bind_eq_ok.mp h
  obtain ⟨add, last, hadd, h⟩ := run_bind_eq_ok.mp h
  obtain ⟨cast, final, hcast, h⟩ := run_bind_eq_ok.mp h
  obtain ⟨rfl, rfl⟩ := run_pure_eq_ok.mp h
  exact ⟨sum, mid, last, hsum, hadd, hcast⟩

/-- What is read, or already gone, is left alone. -/
theorem eraseUnread_eq_ok {count : Nat} (h : (eraseUnread id).run f = .ok count g) :
    (count = 0 ∧ g = f) ∨ (count = 1 ∧ (erase id).run f = .ok () g) := by
  rw [eraseUnread] at h
  rw [run_get_bind] at h
  split at h
  · obtain ⟨done, u, herase, h⟩ := run_bind_eq_ok.mp h
    obtain ⟨rfl, rfl⟩ := run_pure_eq_ok.mp h
    exact Or.inr ⟨rfl, herase⟩
  · obtain ⟨rfl, rfl⟩ := run_pure_eq_ok.mp h
    exact Or.inl ⟨rfl, rfl⟩

theorem retire_eq_ok {fold : Fold} {successors : Successors} {count : Nat}
    (h : (retire fold successors).run f = .ok count g) :
    ∃ f₁ f₂ f₃ casts adds,
      (setLoc successors.add ((f.inst? fold.add).bind (·.loc))).run f = .ok () f₁ ∧
      (setLoc successors.cast ((f.inst? fold.cast).bind (·.loc))).run f₁ = .ok () f₂ ∧
      (eraseUnread fold.cast).run f₂ = .ok casts f₃ ∧
      (eraseUnread fold.add).run f₃ = .ok adds g ∧ count = casts + adds := by
  rw [retire] at h
  rw [run_get_bind] at h
  obtain ⟨done, f₁, hadd, h⟩ := run_bind_eq_ok.mp h
  obtain ⟨done', f₂, hcast, h⟩ := run_bind_eq_ok.mp h
  obtain ⟨casts, f₃, hcasts, h⟩ := run_bind_eq_ok.mp h
  obtain ⟨adds, last, hadds, h⟩ := run_bind_eq_ok.mp h
  obtain ⟨rfl, rfl⟩ := run_pure_eq_ok.mp h
  exact ⟨f₁, f₂, f₃, casts, adds, hadd, hcast, hcasts, hadds, rfl⟩

end Edit

/-! ## Steps on a draft -/

namespace Drafting

variable {cx : Context} {d e : Draft} {id base : InstId} {slot : PointerSlot}

/-- The base is loaded already, or its load is put at the entry. -/
theorem loadBase_eq_ok (h : loadBase.run d = .ok base e) :
    (d.base.loaded = some base ∧ e = d) ∨
      ∃ entry, d.base.loaded = none ∧ d.func.entry? = some entry ∧
        (Edit.insertAtHead entry (.load (.global d.base.symbol)) (.int 64)).run d.func =
          .ok base e.func ∧
        e.base = { d.base with loaded := some base } := by
  rw [loadBase] at h
  rw [run_get_bind] at h
  cases hl : d.base.loaded with
  | some id =>
    simp only [hl] at h
    obtain ⟨rfl, rfl⟩ := run_pure_eq_ok.mp h
    exact Or.inl ⟨rfl, rfl⟩
  | none =>
    simp only [hl] at h
    cases he : d.func.entry? with
    | none =>
      -- a declaration is refused
      simp only [he] at h
      cases h
    | some entry =>
      simp only [he] at h
      obtain ⟨id, mid, hinsert, h⟩ := run_bind_eq_ok.mp h
      obtain ⟨done, last, hmodify, h⟩ := run_bind_eq_ok.mp h
      obtain ⟨rfl, rfl⟩ := run_pure_eq_ok.mp h
      obtain ⟨hrun, hbase⟩ := run_edit_eq_ok.mp hinsert
      cases hmodify
      refine Or.inr ⟨entry, rfl, rfl, hrun, ?_⟩
      show { mid.base with loaded := some base } = { d.base with loaded := some base }
      rw [hbase]

/-- An address is confined in one of two ways, in front of the access that reads it. -/
theorem confinePointer_eq_ok {outcome : PointerOutcome}
    (h : (confinePointer cx id slot).run d = .ok outcome e) :
    ∃ base u address pointee g,
      loadBase.run d = .ok base u ∧ e.base = u.base ∧
      u.func.operand? id slot.index = some address ∧
      u.func.valueType cx.symbols address = .ok (.ptr pointee) ∧
      ((u.func.foldFor? cx slot address pointee = none ∧ ∃ pointer,
          (Edit.emitPlain cx.region.width base id address (.ptr pointee)).run u.func =
            .ok pointer g ∧
          (Edit.replaceOperand id slot.index (.inst pointer)).run g = .ok () e.func ∧
          outcome = { folded := false, removed := 0 }) ∨
        ∃ fold successors k removed,
          u.func.foldFor? cx slot address pointee = some fold ∧
          (Edit.emitFolded cx.region.width base id fold (.ptr pointee)).run u.func =
            .ok successors g ∧
          (Edit.replaceOperand id slot.index (.inst successors.cast)).run g = .ok () k ∧
          (Edit.retire fold successors).run k = .ok removed e.func ∧
          outcome = { folded := true, removed }) := by
  rw [confinePointer] at h
  obtain ⟨base, u, hbase, h⟩ := run_bind_eq_ok.mp h
  rw [run_get_bind] at h
  obtain ⟨address, haddress, h⟩ := run_ofExcept_bind_eq_ok.mp h
  obtain ⟨pointee, hpointee, h⟩ := run_ofExcept_bind_eq_ok.mp h
  rw [slotValue_eq_ok_iff] at haddress
  obtain ⟨found, hfound, hty⟩ := slotPointee_eq_ok_iff.mp hpointee
  -- the slot is read twice, for the address and for its type
  cases haddress.symm.trans hfound
  obtain ⟨h, hsame⟩ := run_edit_eq_ok.mp h
  cases hfold : u.func.foldFor? cx slot address pointee with
  | none =>
    simp only [hfold] at h
    obtain ⟨pointer, g, hemit, h⟩ := run_bind_eq_ok.mp h
    obtain ⟨done, k, hreplace, h⟩ := run_bind_eq_ok.mp h
    obtain ⟨rfl, hk⟩ := run_pure_eq_ok.mp h
    exact ⟨base, u, address, pointee, g, hbase, hsame, haddress, hty,
      Or.inl ⟨hfold, pointer, hemit, hk ▸ hreplace, rfl⟩⟩
  | some fold =>
    simp only [hfold] at h
    obtain ⟨successors, g, hemit, h⟩ := run_bind_eq_ok.mp h
    obtain ⟨done, k, hreplace, h⟩ := run_bind_eq_ok.mp h
    obtain ⟨removed, l, hretire, h⟩ := run_bind_eq_ok.mp h
    obtain ⟨rfl, hl⟩ := run_pure_eq_ok.mp h
    exact ⟨base, u, address, pointee, g, hbase, hsame, haddress, hty,
      Or.inr ⟨fold, successors, k, removed, hfold, hemit, hreplace, hl ▸ hretire, rfl⟩⟩

theorem confinePointers_cons_eq_ok {slots : List PointerSlot} {tally : Tally}
    (h : (confinePointers cx id (slot :: slots)).run d = .ok tally e) :
    ∃ here u rest, (confinePointer cx id slot).run d = .ok here u ∧
      (confinePointers cx id slots).run u = .ok rest e ∧ tally = .pointer here + rest := by
  rw [confinePointers] at h
  obtain ⟨here, u, hhere, h⟩ := run_bind_eq_ok.mp h
  obtain ⟨rest, v, hrest, h⟩ := run_bind_eq_ok.mp h
  obtain ⟨rfl, rfl⟩ := run_pure_eq_ok.mp h
  exact ⟨here, u, rest, hhere, hrest, rfl⟩

end Drafting

/-- A length is left alone without a mask, and is read through one otherwise. -/
theorem Edit.confineLength_eq_ok {cx : Context} {f g : Func} {id : InstId} {slot : Nat}
    {masked : Bool} (h : (Edit.confineLength cx id slot).run f = .ok masked g) :
    (cx.region.width.mask? = none ∧ masked = false ∧ g = f) ∨
      ∃ mask length bits kept mid, cx.region.width.mask? = some mask ∧ masked = true ∧
        f.operand? id slot = some length ∧ f.valueType cx.symbols length = .ok (.int bits) ∧
        (insertBefore id (.binary .and length (.int bits mask)) (.int bits)).run f =
          .ok kept mid ∧
        (replaceOperand id slot (.inst kept)).run mid = .ok () g := by
  rw [confineLength] at h
  cases hmask : cx.region.width.mask? with
  | none =>
    rw [hmask] at h
    obtain ⟨rfl, rfl⟩ := run_pure_eq_ok.mp h
    exact Or.inl ⟨rfl, rfl, rfl⟩
  | some mask =>
    rw [hmask] at h
    rw [run_get_bind] at h
    obtain ⟨length, hlength, h⟩ := run_ofExcept_bind_eq_ok.mp h
    obtain ⟨bits, hbits, h⟩ := run_ofExcept_bind_eq_ok.mp h
    obtain ⟨kept, mid, hkept, h⟩ := run_bind_eq_ok.mp h
    obtain ⟨done, last, hreplace, h⟩ := run_bind_eq_ok.mp h
    obtain ⟨rfl, rfl⟩ := run_pure_eq_ok.mp h
    rw [slotValue_eq_ok_iff] at hlength
    obtain ⟨found, hfound, hty⟩ := slotBits_eq_ok_iff.mp hbits
    cases hlength.symm.trans hfound
    exact Or.inr ⟨mask, length, bits, kept, mid, rfl, rfl, hlength, hty, hkept, hreplace⟩

namespace Drafting

variable {cx : Context} {d e : Draft} {planned : Planned} {tally : Tally}

/-- An access is passed over when it is gone, and else confined slot after slot. -/
theorem confineAccess_eq_ok (h : (confineAccess cx planned).run d = .ok tally e) :
    (d.func.inst? planned.id = none ∧ tally = 0 ∧ e = d) ∨
      ((d.func.inst? planned.id).isSome ∧ ∃ u pointers length,
        (confinePointers cx planned.id planned.access.pointers).run d = .ok pointers u ∧
        (confineLength cx planned.id planned.access.length).run u = .ok length e ∧
        tally = pointers + length) := by
  rw [confineAccess] at h
  rw [run_get_bind] at h
  cases hi : d.func.inst? planned.id with
  | none =>
    simp only [hi, Option.isNone_none, if_true] at h
    obtain ⟨rfl, rfl⟩ := run_pure_eq_ok.mp h
    exact Or.inl ⟨rfl, rfl, rfl⟩
  | some inst =>
    simp only [hi, Option.isNone_some, Bool.false_eq_true, if_false] at h
    obtain ⟨pointers, u, hpointers, h⟩ := run_bind_eq_ok.mp h
    obtain ⟨length, v, hlength, h⟩ := run_bind_eq_ok.mp h
    obtain ⟨rfl, rfl⟩ := run_pure_eq_ok.mp h
    exact Or.inr ⟨rfl, u, pointers, length, hpointers, hlength, rfl⟩

theorem confineLength_some_eq_ok {id : InstId} {slot : Nat}
    (h : (confineLength cx id (some slot)).run d = .ok tally e) :
    ∃ masked, (Edit.confineLength cx id slot).run d.func = .ok masked e.func ∧
      e.base = d.base ∧ tally = .length masked := by
  rw [confineLength] at h
  obtain ⟨masked, u, hedit, h⟩ := run_bind_eq_ok.mp h
  obtain ⟨rfl, rfl⟩ := run_pure_eq_ok.mp h
  obtain ⟨hrun, hbase⟩ := run_edit_eq_ok.mp hedit
  exact ⟨masked, hrun, hbase, rfl⟩

theorem confinePlan_cons_eq_ok {plan : Plan}
    (h : (confinePlan cx (planned :: plan)).run d = .ok tally e) :
    ∃ here u rest, (confineAccess cx planned).run d = .ok here u ∧
      (confinePlan cx plan).run u = .ok rest e ∧ tally = here + rest := by
  rw [confinePlan] at h
  obtain ⟨here, u, hhere, h⟩ := run_bind_eq_ok.mp h
  obtain ⟨rest, v, hrest, h⟩ := run_bind_eq_ok.mp h
  obtain ⟨rfl, rfl⟩ := run_pure_eq_ok.mp h
  exact ⟨here, u, rest, hhere, hrest, rfl⟩

end Drafting

/-- A body is confined by its plan, from a draft that has not loaded the base. -/
theorem Edit.confineBody_eq_ok {cx : Context} {plan : Plan} {f g : Func} {body : BodyTally}
    (h : (Edit.confineBody cx plan).run f = .ok body g) :
    ∃ e : Draft, (Drafting.confinePlan cx plan).run
        { func := f, base := .start cx.region.memoryBase } = .ok body.tally e ∧
      g = e.func ∧ body.loadedBase = e.base.loaded.isSome := by
  unfold Edit.confineBody at h
  simp only [EStateM.run] at h
  cases hrun : Drafting.confinePlan cx plan { func := f, base := .start cx.region.memoryBase } with
  | ok tally draft =>
    rw [hrun] at h
    cases h
    exact ⟨draft, hrun, rfl, rfl⟩
  | error fault draft =>
    rw [hrun] at h
    cases h

/-- A plan that is carried out confines a body. -/
theorem Edit.confineBody_of_confinePlan {cx : Context} {plan : Plan} {f : Func} {tally : Tally}
    {e : Draft} (h : (Drafting.confinePlan cx plan).run
      { func := f, base := .start cx.region.memoryBase } = .ok tally e) :
    (Edit.confineBody cx plan).run f =
      .ok { tally, loadedBase := e.base.loaded.isSome } e.func := by
  change Drafting.confinePlan cx plan _ = _ at h
  show Edit.confineBody cx plan f = _
  rw [Edit.confineBody, h]

end Confinement
