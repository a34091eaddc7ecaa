import Confinement.Proofs.Success
import Confinement.Access

/-!
# What edits do to the instructions

Each edit is described by the instructions that it leaves: an insertion gives the next number to one
instruction, a replacement and a change of position touch one number, an erasure empties one. From
this, instructions that are inserted one after the other in front of an access (`Emits`) leave every
number given out before as it was (`Emits.inst?_of_lt`), read older numbers only
(`Emits.readsOlder`), and touch no memory (`Emits.access?_eq_none`).
-/

set_option autoImplicit false

namespace Confinement

open Func

/-! ## Single edits -/

namespace Edit

variable {f g : Func} {b : BlockId} {id anchor : InstId} {kind : InstKind} {ty : Ty}

theorem inst?_append (h : (append b kind ty).run f = .ok id g) :
    id = f.cells.size ∧ g.cells.size = f.cells.size + 1 ∧
      ∀ other, g.inst? other =
        if other = id then some { kind, ty, block := b, loc := none } else f.inst? other := by
  obtain ⟨-, rfl, rfl⟩ := (append_serves f b kind ty).of_ok h
  refine ⟨rfl, ?_, fun other => ?_⟩
  · simp [Func.relist, Func.addCell]
  · rw [inst?_relist, inst?_addCell, size_countUses, inst?_countUses]

theorem inst?_insertAtHead (h : (insertAtHead b kind ty).run f = .ok id g) :
    id = f.cells.size ∧ g.cells.size = f.cells.size + 1 ∧
      ∀ other, g.inst? other =
        if other = id then some { kind, ty, block := b, loc := none } else f.inst? other := by
  obtain ⟨-, rfl, rfl⟩ := (insertAtHead_serves f b kind ty).of_ok h
  refine ⟨rfl, ?_, fun other => ?_⟩
  · simp [Func.relist, Func.addCell]
  · rw [inst?_relist, inst?_addCell, size_countUses, inst?_countUses]

theorem inst?_insertBefore (h : (insertBefore anchor kind ty).run f = .ok id g) :
    id = f.cells.size ∧ g.cells.size = f.cells.size + 1 ∧
      ∃ b, ∀ other, g.inst? other =
        if other = id then some { kind, ty, block := b, loc := none } else f.inst? other := by
  obtain ⟨b, place, -, rfl, rfl⟩ := (insertBefore_serves f anchor kind ty).of_ok h
  refine ⟨rfl, ?_, b, fun other => ?_⟩
  · simp [Func.relist, Func.addCell]
  · rw [inst?_relist, inst?_addCell, size_countUses, inst?_countUses]

theorem inst?_replaceOperand {slot : Nat} {v : Value} {u : Unit}
    (h : (replaceOperand id slot v).run f = .ok u g) :
    ∃ inst old, f.inst? id = some inst ∧ inst.kind.operand? slot = some old ∧
      g.cells.size = f.cells.size ∧
      ∀ other, g.inst? other =
        if other = id then some { inst with kind := inst.kind.setOperand slot v }
        else f.inst? other := by
  obtain ⟨inst, old, hi, ho, rfl⟩ := (replaceOperand_serves f id slot v).of_ok h
  refine ⟨inst, old, hi, ho, ?_, fun other => ?_⟩
  · rw [size_countUse, size_uncountUse, size_setCell]
  · rw [inst?_countUse, inst?_uncountUse, inst?_setCell]
    simp only [lt_size_of_inst? hi, and_true]

theorem inst?_setLoc {loc : Option Loc} {u : Unit} (h : (setLoc id loc).run f = .ok u g) :
    ∃ inst, f.inst? id = some inst ∧ g.cells.size = f.cells.size ∧
      ∀ other, g.inst? other = if other = id then some { inst with loc } else f.inst? other := by
  obtain ⟨inst, hi, rfl⟩ := (setLoc_serves f id loc).of_ok h
  refine ⟨inst, hi, size_setCell f id _, fun other => ?_⟩
  rw [inst?_setCell]
  simp only [lt_size_of_inst? hi, and_true]

theorem inst?_erase {u : Unit} (h : (erase id).run f = .ok u g) :
    g.cells.size = f.cells.size ∧
      ∀ other, g.inst? other = if other = id then none else f.inst? other := by
  obtain ⟨inst, b, place, -, hi, -, rfl⟩ := (erase_serves f id).of_ok h
  refine ⟨?_, fun other => ?_⟩
  · rw [size_uncountUses, size_setCell]
    rfl
  · rw [inst?_uncountUses, inst?_setCell, inst?_relist]
    have hs : id < (f.relist b (·.eraseIdx place)).cells.size := lt_size_of_inst? hi
    simp only [hs, and_true]

end Edit

/-! ## Insertions in a row -/

/-- A conversion reads what its operand names. -/
theorem InstKind.older_cast {op : CastOp} {v : Value} {n : Nat}
    (hv : ∀ other, v = .inst other → other < n) :
    ∀ other, .inst other ∈ (InstKind.cast op v).operands → other < n := by
  intro other hread
  exact hv other (List.mem_singleton.mp hread).symm

/-- A binary operation reads what its operands name. -/
theorem InstKind.older_binary {op : BinOp} {lhs rhs : Value} {n : Nat}
    (hl : ∀ other, lhs = .inst other → other < n) (hr : ∀ other, rhs = .inst other → other < n) :
    ∀ other, .inst other ∈ (InstKind.binary op lhs rhs).operands → other < n := by
  intro other hread
  rcases List.mem_cons.mp hread with hread | hread
  · exact hl other hread.symm
  · exact hr other (List.mem_singleton.mp hread).symm

/-- An integer names no instruction. -/
theorem Value.int_older {bits : Nat} {value : Int} {n : Nat} :
    ∀ other, Value.int bits value = .inst other → other < n := by
  intro other h
  cases h

/-- An instruction names itself. -/
theorem Value.inst_older {id n : Nat} (hid : id < n) :
    ∀ other, Value.inst id = .inst other → other < n := by
  intro other h
  exact Value.inst.inj h ▸ hid

/-- Instructions numbered `n` and higher read older ones only. -/
def Func.ReadsOlder (f : Func) (n : Nat) : Prop :=
  ∀ id inst, n ≤ id → f.inst? id = some inst →
    ∀ other, .inst other ∈ inst.kind.operands → other < id

/-- `g` comes from `f` by insertions in front of `anchor`, each of an instruction that reads only
what has a number already and that touches no memory. -/
inductive Func.Emits (anchor : InstId) : Func → Func → Prop
  /-- Nothing is inserted. -/
  | nothing (f : Func) : Emits anchor f f
  /-- One more instruction is inserted. -/
  | one {f g h : Func} {kind : InstKind} {ty : Ty} {id : InstId} (before : Emits anchor f g)
      (run : (Edit.insertBefore anchor kind ty).run g = .ok id h)
      (older : ∀ other, .inst other ∈ kind.operands → other < g.cells.size)
      (quiet : kind.access? = none) : Emits anchor f h

namespace Func.Emits

variable {anchor : InstId} {f g h : Func}

theorem trans (hfg : Emits anchor f g) (hgh : Emits anchor g h) : Emits anchor f h := by
  induction hgh with
  | nothing => exact hfg
  | one _ run older quiet ih => exact .one ih run older quiet

theorem size_le (hfg : Emits anchor f g) : f.cells.size ≤ g.cells.size := by
  induction hfg with
  | nothing => exact Nat.le_refl _
  | one _ run _ _ ih =>
    obtain ⟨-, hs, -⟩ := Edit.inst?_insertBefore run
    omega

/-- A number that was given out before keeps its meaning. -/
theorem inst?_of_lt (hfg : Emits anchor f g) {id : InstId} (hid : id < f.cells.size) :
    g.inst? id = f.inst? id := by
  induction hfg with
  | nothing => rfl
  | one before run _ _ ih =>
    obtain ⟨rfl, -, b, hi⟩ := Edit.inst?_insertBefore run
    -- the last insertion has a later number
    rw [hi, if_neg (Nat.ne_of_lt (Nat.lt_of_lt_of_le hid before.size_le))]
    exact ih

theorem inst?_eq_some (hfg : Emits anchor f g) {id : InstId} {inst : Inst}
    (hi : f.inst? id = some inst) : g.inst? id = some inst := by
  rw [hfg.inst?_of_lt (lt_size_of_inst? hi)]
  exact hi

/-- A new instruction reads older ones only. -/
theorem readsOlder (hfg : Emits anchor f g) {n : Nat} (hf : f.ReadsOlder n) : g.ReadsOlder n := by
  induction hfg with
  | nothing => exact hf
  | one before run older _ ih =>
    obtain ⟨rfl, -, b, hi⟩ := Edit.inst?_insertBefore run
    intro id inst hid hinst other hread
    rw [hi] at hinst
    split at hinst
    · next hnew =>
      -- the last insertion, whose operands were there before it
      subst hnew
      cases hinst
      exact older other hread
    · exact ih id inst hid hinst other hread

/-- A new instruction touches no memory. -/
theorem access?_eq_none (hfg : Emits anchor f g) {id : InstId} {inst : Inst}
    (hid : f.cells.size ≤ id) (hinst : g.inst? id = some inst) : inst.kind.access? = none := by
  induction hfg with
  | nothing => exact absurd (lt_size_of_inst? hinst) (Nat.not_lt.mpr hid)
  | one before run _ quiet ih =>
    obtain ⟨rfl, -, b, hi⟩ := Edit.inst?_insertBefore run
    rw [hi] at hinst
    split at hinst
    · cases hinst
      exact quiet
    · exact ih hinst

end Func.Emits

end Confinement
