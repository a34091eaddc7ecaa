import Confinement.Function

/-!
# Changes of cells and of block lists

The changes that every edit of a function is made of, each with what it does to the instructions, to
the counters and to the blocks. None of them fails: a change at a number that does not exist changes
nothing.
-/

set_option autoImplicit false

namespace Confinement.Func

/-- One more slot reads `v`. A number that was not given out has no cell to be counted at. -/
def countUse (f : Func) (v : Value) : Func :=
  match v with
  | .inst id =>
    { f with cells := f.cells.modify id fun cell => { cell with uses := cell.uses + 1 } }
  | _ => f

/-- One slot less reads `v`. A counter stops at zero. -/
def uncountUse (f : Func) (v : Value) : Func :=
  match v with
  | .inst id =>
    { f with cells := f.cells.modify id fun cell => { cell with uses := cell.uses - 1 } }
  | _ => f

/-- Counts several slots. -/
def countUses (f : Func) (vs : List Value) : Func :=
  vs.foldl countUse f

/-- Uncounts several slots. -/
def uncountUses (f : Func) (vs : List Value) : Func :=
  vs.foldl uncountUse f

/-- Gives the next number to an instruction that nothing reads yet. -/
def addCell (f : Func) (inst : Inst) : Func :=
  { f with cells := f.cells.push { inst := some inst, uses := 0 } }

/-- Puts another instruction, or none, into a cell. -/
def setCell (f : Func) (id : InstId) (inst : Option Inst) : Func :=
  { f with cells := f.cells.modify id fun cell => { cell with inst } }

/-- Changes the list of a block. -/
def relist (f : Func) (b : BlockId) (change : List InstId → List InstId) : Func :=
  { f with blocks := f.blocks.modify b fun block => { block with insts := change block.insts } }

/-! ## What stays -/

section Frame

variable (f : Func) (v : Value) (vs : List Value) (id : InstId) (inst : Option Inst)
  (change : List InstId → List InstId)

@[simp] theorem blocks_countUse : (f.countUse v).blocks = f.blocks := by
  cases v <;> rfl

@[simp] theorem blocks_uncountUse : (f.uncountUse v).blocks = f.blocks := by
  cases v <;> rfl

@[simp] theorem name_countUse : (f.countUse v).name = f.name := by
  cases v <;> rfl

@[simp] theorem name_uncountUse : (f.uncountUse v).name = f.name := by
  cases v <;> rfl

@[simp] theorem size_countUse : (f.countUse v).cells.size = f.cells.size := by
  cases v <;> simp [countUse]

@[simp] theorem size_uncountUse : (f.uncountUse v).cells.size = f.cells.size := by
  cases v <;> simp [uncountUse]

@[simp] theorem blocks_countUses : (f.countUses vs).blocks = f.blocks := by
  induction vs generalizing f with
  | nil => rfl
  | cons v vs ih => exact (ih (f.countUse v)).trans (f.blocks_countUse v)

@[simp] theorem blocks_uncountUses : (f.uncountUses vs).blocks = f.blocks := by
  induction vs generalizing f with
  | nil => rfl
  | cons v vs ih => exact (ih (f.uncountUse v)).trans (f.blocks_uncountUse v)

@[simp] theorem name_countUses : (f.countUses vs).name = f.name := by
  induction vs generalizing f with
  | nil => rfl
  | cons v vs ih => exact (ih (f.countUse v)).trans (f.name_countUse v)

@[simp] theorem name_uncountUses : (f.uncountUses vs).name = f.name := by
  induction vs generalizing f with
  | nil => rfl
  | cons v vs ih => exact (ih (f.uncountUse v)).trans (f.name_uncountUse v)

@[simp] theorem size_countUses : (f.countUses vs).cells.size = f.cells.size := by
  induction vs generalizing f with
  | nil => rfl
  | cons v vs ih => exact (ih (f.countUse v)).trans (f.size_countUse v)

@[simp] theorem size_uncountUses : (f.uncountUses vs).cells.size = f.cells.size := by
  induction vs generalizing f with
  | nil => rfl
  | cons v vs ih => exact (ih (f.uncountUse v)).trans (f.size_uncountUse v)

@[simp] theorem size_setCell : (f.setCell id inst).cells.size = f.cells.size := by
  simp [setCell]

end Frame

/-! ## Instructions -/

@[simp] theorem inst?_countUse (f : Func) (v : Value) (id : InstId) :
    (f.countUse v).inst? id = f.inst? id := by
  cases v with
  | inst n =>
    simp only [countUse, inst?, Array.getElem?_modify]
    split
    · subst n
      cases f.cells[id]? <;> rfl
    · rfl
  | _ => rfl

@[simp] theorem inst?_uncountUse (f : Func) (v : Value) (id : InstId) :
    (f.uncountUse v).inst? id = f.inst? id := by
  cases v with
  | inst n =>
    simp only [uncountUse, inst?, Array.getElem?_modify]
    split
    · subst n
      cases f.cells[id]? <;> rfl
    · rfl
  | _ => rfl

@[simp] theorem inst?_countUses (f : Func) (vs : List Value) (id : InstId) :
    (f.countUses vs).inst? id = f.inst? id := by
  induction vs generalizing f with
  | nil => rfl
  | cons v vs ih => exact (ih (f.countUse v)).trans (f.inst?_countUse v id)

@[simp] theorem inst?_uncountUses (f : Func) (vs : List Value) (id : InstId) :
    (f.uncountUses vs).inst? id = f.inst? id := by
  induction vs generalizing f with
  | nil => rfl
  | cons v vs ih => exact (ih (f.uncountUse v)).trans (f.inst?_uncountUse v id)

/-- The next number means the added instruction, and every other number means what it meant. -/
theorem inst?_addCell (f : Func) (inst : Inst) (id : InstId) :
    (f.addCell inst).inst? id = if id = f.cells.size then some inst else f.inst? id := by
  simp only [addCell, inst?, Array.getElem?_push]
  split <;> rfl

/-- A cell holds what was put there last. -/
theorem inst?_setCell (f : Func) (id other : InstId) (inst : Option Inst) :
    (f.setCell id inst).inst? other =
      if other = id ∧ id < f.cells.size then inst else f.inst? other := by
  simp only [setCell, inst?, Array.getElem?_modify]
  by_cases h : id = other
  · subst h
    by_cases hs : id < f.cells.size
    · simp [hs]
    · simp [hs]
  · simp [h, Ne.symm h]

@[simp] theorem inst?_relist (f : Func) (b : BlockId) (change : List InstId → List InstId)
    (id : InstId) : (f.relist b change).inst? id = f.inst? id := rfl

/-- A live instruction has a number that was given out. -/
theorem lt_size_of_inst? {f : Func} {id : InstId} {inst : Inst} (h : f.inst? id = some inst) :
    id < f.cells.size := by
  by_cases hs : id < f.cells.size
  · exact hs
  · simp [inst?, Array.getElem?_eq_none (Nat.le_of_not_lt hs)] at h

/-! ## Counters -/

theorem useCount_eq_zero_of_size_le {f : Func} {id : InstId} (h : f.cells.size ≤ id) :
    f.useCount id = 0 := by
  simp [useCount, Array.getElem?_eq_none h]

theorem useCount_countUse (f : Func) (v : Value) (id : InstId) :
    (f.countUse v).useCount id =
      f.useCount id + if v = .inst id ∧ id < f.cells.size then 1 else 0 := by
  cases v with
  | inst n =>
    simp only [countUse, useCount, Array.getElem?_modify, Value.inst.injEq]
    by_cases h : n = id
    · subst h
      by_cases hs : n < f.cells.size
      · simp [hs]
      · simp [hs]
    · simp [h]
  | _ => simp [countUse]

theorem useCount_uncountUse (f : Func) (v : Value) (id : InstId) :
    (f.uncountUse v).useCount id = f.useCount id - if v = .inst id then 1 else 0 := by
  cases v with
  | inst n =>
    simp only [uncountUse, useCount, Array.getElem?_modify, Value.inst.injEq]
    by_cases h : n = id
    · subst h
      cases f.cells[n]? <;> simp
    · simp [h]
  | _ => simp [uncountUse]

/-- Counting adds, at every number given out, the slots that name it. -/
theorem useCount_countUses (f : Func) (vs : List Value) (id : InstId) :
    (f.countUses vs).useCount id =
      f.useCount id + if id < f.cells.size then vs.count (.inst id) else 0 := by
  induction vs generalizing f with
  | nil => simp [countUses]
  | cons v vs ih =>
    have step := ih (f.countUse v)
    rw [useCount_countUse, size_countUse] at step
    refine step.trans ?_
    by_cases hs : id < f.cells.size
    · by_cases hv : v = .inst id
      · simp [hs, hv]
        omega
      · simp [hs, hv]
    · simp [hs]

/-- Uncounting takes away, at every number, the slots that name it, down to zero. -/
theorem useCount_uncountUses (f : Func) (vs : List Value) (id : InstId) :
    (f.uncountUses vs).useCount id = f.useCount id - vs.count (.inst id) := by
  induction vs generalizing f with
  | nil => simp [uncountUses]
  | cons v vs ih =>
    have step := ih (f.uncountUse v)
    rw [useCount_uncountUse] at step
    refine step.trans ?_
    by_cases hv : v = .inst id
    · simp [hv]
      omega
    · simp [hv]

/-- An added instruction is not read, and no counter changes. -/
@[simp] theorem useCount_addCell (f : Func) (inst : Inst) (id : InstId) :
    (f.addCell inst).useCount id = f.useCount id := by
  simp only [addCell, useCount, Array.getElem?_push]
  split
  · subst id
    simp
  · rfl

@[simp] theorem useCount_setCell (f : Func) (id other : InstId) (inst : Option Inst) :
    (f.setCell id inst).useCount other = f.useCount other := by
  simp only [setCell, useCount, Array.getElem?_modify]
  split
  · subst id
    cases f.cells[other]? <;> rfl
  · rfl

@[simp] theorem useCount_relist (f : Func) (b : BlockId) (change : List InstId → List InstId)
    (id : InstId) : (f.relist b change).useCount id = f.useCount id := rfl

/-! ## Blocks -/

/-- The list of one block changes. -/
theorem block?_relist (f : Func) (b other : BlockId) (change : List InstId → List InstId) :
    (f.relist b change).block? other =
      (f.block? other).map fun block =>
        if b = other then { block with insts := change block.insts } else block := by
  simp only [relist, block?, List.getElem?_modify]
  split <;> rfl

end Confinement.Func
