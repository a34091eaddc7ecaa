import Confinement.Proofs.Rejection
import Confinement.Proofs.Slots

/-!
# When a single rewriting is refused

Confining one address is a row of edits, and a refusal halfway would leave a body that is neither the
old one nor a confined one. In a function whose live instructions and lists agree this does not
happen. Once a slot is known to hold an address, each insertion has its anchor, each slot and each
position its live instruction, and each removal a place to remove from, whatever the fold is made of
and whatever the counters say (`Drafting.confinePointer_of_loaded`). So a refusal leaves at most the
load of the base behind, and the only question is what the slot holds.

It is answered behind the load of the base. A call that inserts this load and is about its number
finds the load itself: an instruction that did not exist when the call was made, and whose address is
then computed from what it loads (`Draft.OwnLoad`). Every other call is refused for what was wrong
with the slot before (`Drafting.confinePointer_refusals`).
-/

set_option autoImplicit false

namespace Confinement

open Func

theorem run_bind_of_error {ε σ α β : Type} {x : EStateM ε σ α} {g : α → EStateM ε σ β} {s t : σ}
    {e : ε} (h : x.run s = .error e t) : (x >>= g).run s = .error e t := by
  rw [EStateM.run_bind, h]

/-! ## Insertions and removals that cannot be refused -/

namespace Edit

variable {f g : Func} {anchor base id : InstId} {inst : Inst} {width : Width} {low address : Value}
  {ty : Ty}

/-- In front of what is live, an instruction can be inserted. -/
theorem insertBefore_runs (hf : f.Placed) (hi : f.inst? anchor = some inst) (kind : InstKind)
    (ty : Ty) : ∃ id g, (insertBefore anchor kind ty).run f = .ok id g ∧ f.Puts anchor [id] g := by
  obtain ⟨place, hplace⟩ := hf.place?_eq hi
  have hrun := insertBefore_eq kind ty hplace
  exact ⟨_, _, hrun, (Puts.one hrun hf hi).1⟩

theorem emitSum_runs (hf : f.Placed) (hi : f.inst? anchor = some inst) (width : Width)
    (base : InstId) (low : Value) :
    ∃ id g, (emitSum width base anchor low).run f = .ok id g := by
  -- the value that is widened is the one given, or it is masked first
  have htail : ∀ kept (mid : Func), mid.Placed → mid.inst? anchor = some inst → ∃ id g,
      (do
        let wide ← insertBefore anchor (.cast .zext kept) (.int 64)
        insertBefore anchor (.binary .add (.inst base) (.inst wide)) (.int 64)).run mid =
          .ok id g := by
    intro kept mid hmid hlive
    obtain ⟨wide, last, hrun, hput⟩ := insertBefore_runs hmid hlive (.cast .zext kept) (.int 64)
    obtain ⟨sum, g, hrun', -⟩ := insertBefore_runs hput.placed (hput.inst?_eq_some hlive)
      (.binary .add (.inst base) (.inst wide)) (.int 64)
    exact ⟨sum, g, run_bind_eq_ok.mpr ⟨wide, last, hrun, hrun'⟩⟩
  rw [emitSum]
  cases hmask : width.mask? with
  | none =>
    simp only [pure_bind]
    exact htail low f hf hi
  | some mask =>
    obtain ⟨masked, mid, hrun, hput⟩ := insertBefore_runs hf hi (.binary .and low (.int 32 mask))
      (.int 32)
    obtain ⟨id, g, hrun'⟩ := htail (.inst masked) mid hput.placed (hput.inst?_eq_some hi)
    exact ⟨id, g, run_bind_eq_ok.mpr ⟨.inst masked, mid,
      run_map_eq_ok.mpr ⟨masked, hrun, rfl⟩, hrun'⟩⟩

theorem emitPlain_runs (hf : f.Placed) (hi : f.inst? anchor = some inst) (width : Width)
    (base : InstId) (address : Value) (ty : Ty) :
    ∃ id g, (emitPlain width base anchor address ty).run f = .ok id g := by
  obtain ⟨low, mid, hrun, hput⟩ := insertBefore_runs hf hi (.cast .ptrtoint address) (.int 32)
  have hmid := hput.inst?_eq_some hi
  obtain ⟨sum, last, hrun'⟩ := emitSum_runs hput.placed hmid width base (.inst low)
  obtain ⟨row, hput', -⟩ := puts_emitSum hrun' hput.placed hmid (Nat.zero_le _)
  obtain ⟨pointer, g, hrun'', -⟩ := insertBefore_runs hput'.placed (hput'.inst?_eq_some hmid)
    (.cast .inttoptr (.inst sum)) ty
  refine ⟨pointer, g, ?_⟩
  rw [emitPlain]
  exact run_bind_eq_ok.mpr ⟨low, mid, hrun, run_bind_eq_ok.mpr ⟨sum, last, hrun', hrun''⟩⟩

theorem emitFolded_runs (hf : f.Placed) (hi : f.inst? anchor = some inst) (width : Width)
    (base : InstId) (fold : Fold) (ty : Ty) :
    ∃ successors g, (emitFolded width base anchor fold ty).run f = .ok successors g := by
  obtain ⟨sum, mid, hrun⟩ := emitSum_runs hf hi width base fold.index
  obtain ⟨row, hput, -⟩ := puts_emitSum hrun hf hi (Nat.zero_le _)
  have hmid := hput.inst?_eq_some hi
  obtain ⟨add, last, hrun', hput'⟩ := insertBefore_runs hput.placed hmid
    (.binary .add (.inst sum) (.int 64 fold.offset)) (.int 64)
  obtain ⟨cast, g, hrun'', -⟩ := insertBefore_runs hput'.placed (hput'.inst?_eq_some hmid)
    (.cast .inttoptr (.inst add)) ty
  refine ⟨{ add, cast }, g, ?_⟩
  rw [emitFolded]
  exact run_bind_eq_ok.mpr ⟨sum, mid, hrun, run_bind_eq_ok.mpr ⟨add, last, hrun',
    run_bind_eq_ok.mpr ⟨cast, g, hrun'', rfl⟩⟩⟩

/-- What is counted as read, or is gone, is left alone, and the rest has a place. -/
theorem eraseUnread_runs (hf : f.Placed) (id : InstId) :
    ∃ count g, (eraseUnread id).run f = .ok count g ∧ g.Placed := by
  rw [eraseUnread]
  simp only [run_get_bind]
  split
  · next hcase =>
    obtain ⟨hlive, hunread⟩ := hcase
    obtain ⟨inst, hi⟩ := Option.isSome_iff_exists.mp hlive
    obtain ⟨place, hplace⟩ := hf.place?_eq hi
    have hzero : f.useCount id = 0 := by
      rw [hasUses, decide_eq_true_eq] at hunread
      omega
    have hrun := erase_eq hzero hi hplace
    exact ⟨1, _, run_bind_eq_ok.mpr ⟨(), _, hrun, rfl⟩, left_of_ok hrun ▸ hf.apply (.erase id)⟩
  · exact ⟨0, f, rfl, hf⟩

theorem setLoc_runs (hf : f.Placed) (hid : f.Resolves (.inst id)) (loc : Option Loc) :
    ∃ g, (setLoc id loc).run f = .ok () g ∧ g.Placed ∧ ∀ v, f.Resolves v → g.Resolves v := by
  obtain ⟨inst, hi⟩ := resolves_inst_iff.mp hid
  have hrun := setLoc_eq loc hi
  obtain ⟨old, -, -, hinst⟩ := inst?_setLoc hrun
  refine ⟨_, hrun, hf.setCell hi rfl, fun v hv other he => ?_⟩
  obtain ⟨found, hfound⟩ := hv other he
  rw [hinst]
  split
  · exact ⟨_, rfl⟩
  · exact ⟨found, hfound⟩

/-- A fold can be retired in favour of live instructions. -/
theorem retire_runs {successors : Successors} (hf : f.Placed)
    (hadd : f.Resolves (.inst successors.add)) (hcast : f.Resolves (.inst successors.cast))
    (fold : Fold) : ∃ count g, (retire fold successors).run f = .ok count g := by
  obtain ⟨f₁, hrun₁, hplaced₁, hlive⟩ := setLoc_runs hf hadd ((f.inst? fold.add).bind (·.loc))
  obtain ⟨f₂, hrun₂, hplaced₂, -⟩ :=
    setLoc_runs hplaced₁ (hlive _ hcast) ((f.inst? fold.cast).bind (·.loc))
  obtain ⟨casts, f₃, hrun₃, hplaced₃⟩ := eraseUnread_runs hplaced₂ fold.cast
  obtain ⟨adds, f₄, hrun₄, -⟩ := eraseUnread_runs hplaced₃ fold.add
  refine ⟨casts + adds, f₄, ?_⟩
  rw [retire]
  simp only [run_get_bind]
  exact run_bind_eq_ok.mpr ⟨(), f₁, hrun₁, run_bind_eq_ok.mpr ⟨(), f₂, hrun₂,
    run_bind_eq_ok.mpr ⟨casts, f₃, hrun₃, run_bind_eq_ok.mpr ⟨adds, f₄, hrun₄, rfl⟩⟩⟩⟩

end Edit

/-! ## Slots that hold no address -/

/-- A slot holds an address. -/
def Func.HasAddress (f : Func) (symbols : SymbolTable) (id : InstId) (slot : Nat) : Prop :=
  ∃ v target, f.operand? id slot = some v ∧ f.valueType symbols v = .ok (.ptr target)

/-- What can be the matter with a slot that holds no address. -/
inductive Func.NoAddress (f : Func) (symbols : SymbolTable) (id : InstId) (slot : Nat) : Prop
  /-- The instruction does not exist, or it has no such slot. -/
  | missing (hslot : f.operand? id slot = none)
  /-- The value in the slot has no type. -/
  | untyped {v : Value} {fault : Fault} (hslot : f.operand? id slot = some v)
      (htype : f.valueType symbols v = .error fault)
  /-- The value in the slot has a type that is no pointer. -/
  | other {v : Value} {ty : Ty} (hslot : f.operand? id slot = some v)
      (htype : f.valueType symbols v = .ok ty) (hty : ty.isPointer = false)

namespace Func

variable {f : Func} {symbols : SymbolTable} {id : InstId} {slot : Nat}

theorem noAddress_iff : f.NoAddress symbols id slot ↔ ¬ f.HasAddress symbols id slot := by
  constructor
  · rintro h ⟨w, target, hw, htarget⟩
    cases h with
    | missing hslot => cases hslot.symm.trans hw
    | untyped hslot htype =>
      cases hslot.symm.trans hw
      cases htype.symm.trans htarget
    | other hslot htype hty =>
      cases hslot.symm.trans hw
      cases htype.symm.trans htarget
      cases hty
  · intro h
    cases hslot : f.operand? id slot with
    | none => exact .missing hslot
    | some v =>
      cases htype : f.valueType symbols v with
      | error fault => exact .untyped hslot htype
      | ok ty =>
        cases hty : ty.isPointer with
        | false => exact .other hslot htype hty
        | true =>
          cases ty with
          | ptr target => exact absurd ⟨v, target, hslot, htype⟩ h
          | _ => cases hty

end Func

/-! ## Confining one address -/

namespace Drafting

variable {d u : Draft} {base : InstId}

/-- The base is loaded, or there is no body to load it in. -/
theorem loadBase_cases (d : Draft) :
    (d.base.loaded = none ∧ d.func.isDeclaration = true ∧
        loadBase.run d = .error (.noBody d.func.name) d) ∨
      (¬ (d.base.loaded = none ∧ d.func.isDeclaration = true) ∧
        ∃ base u, loadBase.run d = .ok base u) := by
  rw [loadBase]
  rw [run_get_bind]
  cases hl : d.base.loaded with
  | some base => exact Or.inr ⟨fun h => Option.some_ne_none base h.1, base, d, rfl⟩
  | none =>
    cases hdecl : d.func.isDeclaration with
    | true =>
      refine Or.inl ⟨rfl, rfl, ?_⟩
      have hentry : d.func.entry? = none := if_pos hdecl
      simp only [hentry]
      rfl
    | false =>
      have hentry : d.func.entry? = some 0 := if_neg (by rw [hdecl]; exact Bool.false_ne_true)
      have hblock : (d.func.block? 0).isSome := by
        have hblocks : d.func.blocks ≠ [] := fun h => by
          rw [isDeclaration_iff.mpr h] at hdecl
          cases hdecl
        rw [block?, List.getElem?_eq_getElem (List.length_pos_iff.mpr hblocks)]
        rfl
      have hinsert := Edit.insertAtHead_eq (.load (.global d.base.symbol)) (.int 64) hblock
      simp only [hentry]
      exact Or.inr ⟨fun h => Bool.false_ne_true h.2, _,
        { func := _, base := { d.base with loaded := some _ } },
        run_bind_eq_ok.mpr ⟨_, { d with func := _ }, run_edit_eq_ok.mpr ⟨hinsert, rfl⟩, rfl⟩⟩

theorem placed_of_loadBase (hd : d.func.Placed) (hbase : loadBase.run d = .ok base u) :
    u.func.Placed := by
  rcases loadBase_eq_ok hbase with ⟨-, rfl⟩ | ⟨entry, -, -, hinsert, -⟩
  · exact hd
  · exact Edit.left_of_ok hinsert ▸ hd.apply (.insertAtHead entry _ _)

/-- Behind the load of the base, an address is confined, and everything else is refused at once. -/
theorem confinePointer_of_loaded (hbase : loadBase.run d = .ok base u) (hu : u.func.Placed)
    (cx : Context) (id : InstId) (slot : PointerSlot) :
    (u.func.HasAddress cx.symbols id slot.index ∧
        ∃ outcome e, (confinePointer cx id slot).run d = .ok outcome e) ∨
      (u.func.NoAddress cx.symbols id slot.index ∧
        ∃ fault, (confinePointer cx id slot).run d = .error fault u) := by
  -- the type of the slot is the one thing that is asked for; the rest follows from it
  cases hpointee : u.func.slotPointee cx.symbols id slot.index with
  | ok target =>
    obtain ⟨address, hslot, hty⟩ := slotPointee_eq_ok_iff.mp hpointee
    obtain ⟨inst, hi, ho⟩ := Option.bind_eq_some_iff.mp hslot
    refine Or.inl ⟨⟨address, target, hslot, hty⟩, ?_⟩
    cases hfold : u.func.foldFor? cx slot address target with
    | none =>
      obtain ⟨pointer, g, hemit⟩ :=
        Edit.emitPlain_runs hu hi cx.region.width base address (.ptr target)
      obtain ⟨row, hput, -⟩ := puts_emitPlain hemit hu hi (Nat.le_refl _)
      have hreplace := Edit.replaceOperand_eq (.inst pointer) (hput.inst?_eq_some hi) ho
      exact ⟨_, _, confinePointer_plain hbase hslot hty hfold hemit hreplace⟩
    | some fold =>
      obtain ⟨successors, g, hemit⟩ :=
        Edit.emitFolded_runs hu hi cx.region.width base fold (.ptr target)
      obtain ⟨row, sum, hput, -, -, -, hadd, hcast⟩ := puts_emitFolded hemit hu hi (Nat.zero_le _)
      obtain ⟨k, hreplace⟩ : ∃ k,
          (Edit.replaceOperand id slot.index (.inst successors.cast)).run g = .ok () k :=
        ⟨_, Edit.replaceOperand_eq _ (hput.inst?_eq_some hi) ho⟩
      -- the row is in place, so the parts of the fold may go whatever else reads them
      have hk : k.Placed :=
        Edit.left_of_ok hreplace ▸ hput.placed.apply (.replaceOperand id slot.index _)
      obtain ⟨removed, l, hretire⟩ := Edit.retire_runs hk
        (Edit.resolves_replaceOperand hreplace (resolves_inst_iff.mpr ⟨_, hadd.2⟩))
        (Edit.resolves_replaceOperand hreplace (resolves_inst_iff.mpr ⟨_, hcast.2⟩)) fold
      exact ⟨_, _, confinePointer_folded hbase hslot hty hfold hemit hreplace hretire⟩
  | error fault =>
    refine Or.inr ⟨noAddress_iff.mpr ?_, ?_⟩
    · rintro ⟨v, target, hslot, hty⟩
      cases hpointee.symm.trans (slotPointee_eq_ok_iff.mpr ⟨v, hslot, hty⟩)
    · -- the slot is read twice, and the first reading may fail already
      rw [confinePointer]
      rw [EStateM.run_bind, hbase]
      simp only [run_get_bind]
      cases hvalue : u.func.slotValue id slot.index with
      | error missing => exact ⟨missing, run_bind_of_error rfl⟩
      | ok address =>
        rw [hpointee]
        exact ⟨fault, rfl⟩

end Drafting

/-! ## What the load of the base changes -/

/-- A call about this slot finds the load that it inserts itself: the number is the next one, and the
load reads the address of the base in its only slot. -/
def Draft.OwnLoad (d : Draft) (symbols : SymbolTable) (id : InstId) (slot : Nat) : Prop :=
  d.base.loaded = none ∧ id = d.func.cells.size ∧ slot = 0 ∧
    ∃ target, symbols.globalType d.base.symbol = .ok (.ptr target)

namespace Drafting

variable {d u : Draft} {base : InstId}

/-- Values have the types that they had, and the new load is a number. -/
theorem valueType_of_insertAtHead {f g : Func} {b : BlockId} {kind : InstKind} {ty : Ty}
    {symbols : SymbolTable} {id : InstId} {v : Value} {target : Ty}
    (hrun : (Edit.insertAtHead b kind ty).run f = .ok id g) (hty : ty.isPointer = false) :
    g.valueType symbols v = .ok (.ptr target) ↔ f.valueType symbols v = .ok (.ptr target) := by
  obtain ⟨hid, -, hinst⟩ := Edit.inst?_insertAtHead hrun
  obtain ⟨-, -, hg⟩ := (Edit.insertAtHead_serves f b kind ty).of_ok hrun
  have hparams : g.params = f.params := by
    rw [hg]
    exact params_countUses f kind.operands
  cases v with
  | inst read =>
    simp only [valueType, hinst]
    by_cases hread : read = id
    · have hnone : f.inst? read = none := by
        cases hi : f.inst? read with
        | none => rfl
        | some inst => exact absurd (hread.trans hid) (Nat.ne_of_lt (lt_size_of_inst? hi))
      rw [if_pos hread, hnone]
      constructor
      · intro h
        cases h
        cases hty
      · intro h
        cases h
    · rw [if_neg hread]
      cases f.inst? read <;> simp
  | arg index =>
    simp only [valueType, hparams]
    cases f.params[index]? <;> simp
  | const c => rfl
  | global symbol => rfl
  | func symbol => rfl

/-- Behind the load of the base the slots hold addresses that held one, and that of the load does. -/
theorem hasAddress_of_loadBase (hbase : loadBase.run d = .ok base u) (symbols : SymbolTable)
    (id : InstId) (slot : Nat) : u.func.HasAddress symbols id slot ↔
      d.func.HasAddress symbols id slot ∨ d.OwnLoad symbols id slot := by
  rcases loadBase_eq_ok hbase with ⟨hloaded, rfl⟩ | ⟨entry, hnone, -, hinsert, -⟩
  · refine ⟨Or.inl, ?_⟩
    rintro (h | ⟨hnone, -⟩)
    · exact h
    · cases hloaded.symm.trans hnone
  · obtain ⟨hb, -, hinst⟩ := Edit.inst?_insertAtHead hinsert
    have htypes : ∀ v target, u.func.valueType symbols v = .ok (.ptr target) ↔
        d.func.valueType symbols v = .ok (.ptr target) :=
      fun v target => valueType_of_insertAtHead hinsert rfl
    by_cases hid : id = base
    · -- nothing had this number, and now the load has it
      have hnew : d.func.operand? id slot = none := by
        cases ho : d.func.operand? id slot with
        | none => rfl
        | some v =>
          obtain ⟨inst, hi, -⟩ := Option.bind_eq_some_iff.mp ho
          exact absurd (hid.trans hb) (Nat.ne_of_lt (lt_size_of_inst? hi))
      have hload : u.func.operand? id slot = [Value.global d.base.symbol][slot]? := by
        rw [operand?, hinst, if_pos hid]
        rfl
      constructor
      · rintro ⟨v, target, hv, hty⟩
        rw [hload] at hv
        cases slot with
        | zero =>
          cases hv
          exact Or.inr ⟨hnone, hid.trans hb, rfl, target, hty⟩
        | succ n => cases hv
      · rintro (⟨v, target, hv, -⟩ | ⟨-, -, rfl, target, hty⟩)
        · cases hnew.symm.trans hv
        · exact ⟨_, target, hload, hty⟩
    · have hsame : u.func.operand? id slot = d.func.operand? id slot := by
        rw [operand?, hinst, if_neg hid, operand?]
      constructor
      · rintro ⟨v, target, hv, hty⟩
        exact Or.inl ⟨v, target, hsame.symm.trans hv, (htypes v target).mp hty⟩
      · rintro (⟨v, target, hv, hty⟩ | ⟨-, hnext, -⟩)
        · exact ⟨v, target, hsame.trans hv, (htypes v target).mpr hty⟩
        · exact absurd (hnext.trans hb.symm) hid

end Drafting

/-! ## Confining one length -/

namespace Edit

variable {f g mid : Func} {cx : Context} {id masked : InstId} {slot bits mask : Nat}
  {length : Value}

/-- The run on a length, from the runs of its steps. -/
theorem confineLength_masked (hmask : cx.region.width.mask? = some mask)
    (hslot : f.operand? id slot = some length) (hbits : f.slotBits cx.symbols id slot = .ok bits)
    (hand : (insertBefore id (.binary .and length (.int bits mask)) (.int bits)).run f =
      .ok masked mid)
    (hreplace : (replaceOperand id slot (.inst masked)).run mid = .ok () g) :
    (Edit.confineLength cx id slot).run f = .ok true g := by
  rw [confineLength]
  simp only [hmask, run_get_bind]
  refine run_ofExcept_bind_eq_ok.mpr ⟨length, slotValue_eq_ok_iff.mpr hslot, ?_⟩
  refine run_ofExcept_bind_eq_ok.mpr ⟨bits, hbits, ?_⟩
  exact run_bind_eq_ok.mpr ⟨masked, mid, hand, run_bind_eq_ok.mpr ⟨(), g, hreplace, rfl⟩⟩

/-- A refused length leaves the function as it is: what is asked for first is all that can be
missing. -/
theorem confineLength_refused (hf : f.Placed) {fault : Fault}
    (h : (Edit.confineLength cx id slot).run f = .error fault g) : g = f := by
  cases hmask : cx.region.width.mask? with
  | none =>
    rw [confineLength, hmask] at h
    cases h
  | some mask =>
    cases hbits : f.slotBits cx.symbols id slot with
    | ok bits =>
      obtain ⟨length, hslot, -⟩ := slotBits_eq_ok_iff.mp hbits
      obtain ⟨inst, hi, ho⟩ := Option.bind_eq_some_iff.mp hslot
      -- a slot that can be read can be masked
      obtain ⟨masked, mid, hand, hput⟩ := insertBefore_runs hf hi
        (.binary .and length (.int bits mask)) (.int bits)
      have hreplace := replaceOperand_eq (.inst masked) (hput.inst?_eq_some hi) ho
      cases h.symm.trans (confineLength_masked hmask hslot hbits hand hreplace)
    | error unfit =>
      rw [confineLength] at h
      simp only [hmask, run_get_bind, hbits] at h
      cases hvalue : f.slotValue id slot with
      | error missing =>
        rw [hvalue] at h
        cases h
        rfl
      | ok length =>
        rw [hvalue] at h
        cases h
        rfl

end Edit

/-- A refused call leaves the draft alone, or leaves the load of the base at its head; and a call is
refused exactly when there is no place for that load, or when the slot holds no address by then. -/
theorem Drafting.confinePointer_refusals {d : Draft} (hd : d.func.Placed) (cx : Context)
    (id : InstId) (slot : PointerSlot) :
    (∀ fault e, (confinePointer cx id slot).run d = .error fault e →
        e = d ∨ d.base.loaded = none ∧ ∃ base,
          (Edit.insertAtHead 0 (.load (.global d.base.symbol)) (.int 64)).run d.func =
            .ok base e.func ∧
          e.base = { d.base with loaded := some base }) ∧
      ((∃ fault e, (confinePointer cx id slot).run d = .error fault e) ↔
        d.base.loaded = none ∧ d.func.isDeclaration = true ∨
          d.func.NoAddress cx.symbols id slot.index ∧
            ¬ d.OwnLoad cx.symbols id slot.index) ∧
      ∀ length fault g, (Edit.confineLength cx id length).run d.func = .error fault g →
        g = d.func := by
  have hlength : ∀ length fault g, (Edit.confineLength cx id length).run d.func = .error fault g →
      g = d.func := fun length fault g h => Edit.confineLength_refused hd h
  rcases loadBase_cases d with ⟨hnone, hdecl, hrun⟩ | ⟨hbody, base, u, hbase⟩
  · -- nothing is done to a declaration
    have hrefused : (confinePointer cx id slot).run d = .error (.noBody d.func.name) d :=
      run_bind_of_error hrun
    refine ⟨fun fault e h => ?_, ⟨fun _ => Or.inl ⟨hnone, hdecl⟩, fun _ => ⟨_, _, hrefused⟩⟩, hlength⟩
    cases hrefused.symm.trans h
    exact Or.inl rfl
  · have hleft : u = d ∨ d.base.loaded = none ∧ ∃ base,
        (Edit.insertAtHead 0 (.load (.global d.base.symbol)) (.int 64)).run d.func =
          .ok base u.func ∧ u.base = { d.base with loaded := some base } := by
      rcases loadBase_eq_ok hbase with ⟨-, he⟩ | ⟨entry, hnone, hentry, hinsert, hloaded⟩
      · exact Or.inl he
      · cases eq_zero_of_entry? hentry
        exact Or.inr ⟨hnone, base, hinsert, hloaded⟩
    have haddress := hasAddress_of_loadBase hbase cx.symbols id slot.index
    rcases confinePointer_of_loaded hbase (placed_of_loadBase hd hbase) cx id slot with
      ⟨hhas, outcome, e, hok⟩ | ⟨hno, fault, hrefused⟩
    · refine ⟨fun fault e' h => ?_, ⟨?_, ?_⟩, hlength⟩
      · cases hok.symm.trans h
      · rintro ⟨fault, e', h⟩
        cases hok.symm.trans h
      · rintro (hdecl | ⟨hno, hown⟩)
        · exact absurd hdecl hbody
        · rcases haddress.mp hhas with hhas | hown'
          · exact absurd hhas (noAddress_iff.mp hno)
          · exact absurd hown' hown
    · refine ⟨fun fault' e h => ?_, ⟨fun _ => ?_, fun _ => ⟨fault, u, hrefused⟩⟩, hlength⟩
      · cases hrefused.symm.trans h
        exact hleft
      · rw [noAddress_iff, haddress, not_or] at hno
        exact Or.inr ⟨noAddress_iff.mpr hno.1, hno.2⟩

/-- A function that only returns. -/
def returner : Func :=
  [.addBlock "entry", .append 0 (.ret none) .void].foldl Operation.apply (.declare "f" [] .void)

/-- Its module, with a region of all 32 bits. -/
def returnerContext : Context where
  region := { width := .full, memoryBase := 0, pointerSize := 1 }
  symbols := { globals := [⟨baseSymbol, .ptr (.int 64)⟩, ⟨widthSymbol, .ptr (.int 32)⟩],
               functions := [⟨"f", .ptr returner.signature⟩] }
  layout := {}

/-- The function before the base is loaded. -/
def returnerDraft : Draft where
  func := returner
  base := .start returnerContext.region.memoryBase

/-- The return has no slot, so there is nothing to confine. -/
theorem returner_refused : returner.Placed ∧ ∃ fault e,
    (Drafting.confinePointer returnerContext 0 ⟨0, true⟩).run returnerDraft = .error fault e ∧
      (e = returnerDraft ∨ returnerDraft.base.loaded = none ∧ ∃ base,
        (Edit.insertAtHead 0 (.load (.global 0)) (.int 64)).run returner = .ok base e.func ∧
          e.base = { returnerDraft.base with loaded := some base }) := by
  have hplaced : returner.Placed := ((Built.declare _ _ _).history _).placed
  obtain ⟨hleft, hiff, -⟩ :=
    Drafting.confinePointer_refusals (d := returnerDraft) hplaced returnerContext 0 ⟨0, true⟩
  obtain ⟨fault, e, hrun⟩ := hiff.mpr (Or.inr ⟨.missing rfl, fun hown => Nat.zero_ne_one hown.2.1⟩)
  exact ⟨hplaced, fault, e, hrun, hleft fault e hrun⟩

/-- An instruction that does not exist is confined if it has the number that the load of the base
gets: the base is then loaded from an address that is computed from the base, and four instructions
stand in front of the load that was to be in front of all. -/
theorem returner_confined : returner.Placed ∧ returner.inst? 1 = none ∧ ∃ outcome e,
    (Drafting.confinePointer returnerContext 1 ⟨0, true⟩).run returnerDraft = .ok outcome e ∧
      e.base.loaded = some 1 ∧ e.func.order = [2, 3, 4, 5, 1, 0] ∧
      e.func.operand? 1 0 = some (.inst 5) := by
  have hplaced : returner.Placed := ((Built.declare _ _ _).history _).placed
  have hcheck : (match (Drafting.confinePointer returnerContext 1 ⟨0, true⟩).run returnerDraft with
      | .ok _ e => decide (e.base.loaded = some 1 ∧ e.func.order = [2, 3, 4, 5, 1, 0] ∧
        e.func.operand? 1 0 = some (.inst 5))
      | .error _ _ => false) = true := by decide +kernel
  refine ⟨hplaced, rfl, ?_⟩
  split at hcheck
  · next outcome e hrun => exact ⟨outcome, e, hrun, of_decide_eq_true hcheck⟩
  · cases hcheck

end Confinement
