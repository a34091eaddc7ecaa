import Confinement.Fault
import Confinement.Function.Cells

/-!
# Edits of a function

An edit either succeeds or is refused with a fault, and leaves a function behind in both cases, so
a sequence of edits shows what was already done when one of them is refused. Every edit keeps the
counters of its cells: a slot that comes to read a numbered instruction is counted at it, and a slot
that stops reading it is uncounted.

Each edit comes with an equation that says when it is refused and what it leaves otherwise.
-/

set_option autoImplicit false

namespace Confinement

/-- A change of a function that may be refused. -/
abbrev Edit := EStateM Fault Func

/-- The block of a live instruction and its place there. -/
def Func.place? (f : Func) (id : InstId) : Option (BlockId × Nat) := do
  let inst ← f.inst? id
  let block ← f.block? inst.block
  let place ← block.insts.idxOf? id
  return (inst.block, place)

namespace Edit

/-! ## Steps that edits are made of -/

/-- The live instruction of a number. -/
def live (id : InstId) : Edit Inst := do
  let f ← get
  match f.inst? id with
  | some inst => return inst
  | none => throw (.stale f.name id)

/-- Gives a number to an instruction that will stand in block `b`, and counts what it reads. -/
def alloc (b : BlockId) (kind : InstKind) (ty : Ty) : Edit InstId := do
  let f ← get
  if (f.block? b).isNone then throw (.noBlock f.name b)
  -- Counted before the number exists: an operand that names the instruction itself is not counted.
  set ((f.countUses kind.operands).addCell { kind, ty, block := b, loc := none })
  return f.cells.size

/-- Changes the list of a block. -/
def relist (b : BlockId) (change : List InstId → List InstId) : Edit Unit := do
  let f ← get
  if (f.block? b).isNone then throw (.noBlock f.name b)
  set (f.relist b change)

/-- The block of an instruction, which must be live, and its place there. -/
def position (id : InstId) : Edit (BlockId × Nat) := do
  let _ ← live id
  match (← get).place? id with
  | some place => return place
  | none => throw (.unlisted id)

/-! ## The edits -/

/-- Adds an empty block behind the others. -/
def addBlock (name : String) : Edit BlockId :=
  modifyGet fun f => (f.blocks.length, { f with blocks := f.blocks ++ [{ name, insts := [] }] })

/-- Adds an instruction at the end of a block. -/
def append (b : BlockId) (kind : InstKind) (ty : Ty) : Edit InstId := do
  let id ← alloc b kind ty
  relist b (· ++ [id])
  return id

/-- Adds an instruction at the head of a block. -/
def insertAtHead (b : BlockId) (kind : InstKind) (ty : Ty) : Edit InstId := do
  let id ← alloc b kind ty
  relist b (id :: ·)
  return id

/-- Adds an instruction directly before another one. -/
def insertBefore (anchor : InstId) (kind : InstKind) (ty : Ty) : Edit InstId := do
  let (b, place) ← position anchor
  let id ← alloc b kind ty
  relist b (·.insertIdx place id)
  return id

/-- Writes an operand slot of a live instruction. -/
def replaceOperand (id : InstId) (slot : Nat) (v : Value) : Edit Unit := do
  let inst ← live id
  match inst.kind.operand? slot with
  | none => throw (.noSlot id slot)
  | some old =>
    modify (·.setCell id (some { inst with kind := inst.kind.setOperand slot v }))
    modify fun f => (f.uncountUse old).countUse v

/-- Gives a live instruction a source position, or takes it away. -/
def setLoc (id : InstId) (loc : Option Loc) : Edit Unit := do
  let inst ← live id
  modify (·.setCell id (some { inst with loc }))

/-- Removes an instruction whose result is not counted as read. -/
def erase (id : InstId) : Edit Unit := do
  let f ← get
  -- The counter is asked first, so a read instruction is refused for that even when it is gone.
  if f.hasUses id then throw (.stillUsed f.name id)
  let (b, place) ← position id
  relist b (·.eraseIdx place)
  let inst ← live id
  modify (·.setCell id none)
  modify (·.uncountUses inst.kind.operands)

/-! ## When edits succeed, and what they leave -/

section Results

variable {f : Func} {b : BlockId} {id : InstId} {inst : Inst}

@[simp] theorem run_refused {α : Type} (fault : Fault) (f : Func) :
    (throw fault : Edit α).run f = .error fault f := rfl

@[simp] theorem run_map {α β : Type} (g : α → β) (action : Edit α) (f : Func) :
    (g <$> action).run f =
      match action.run f with
      | .ok a f => .ok (g a) f
      | .error fault f => .error fault f := by
  rw [map_eq_pure_bind, EStateM.run_bind]
  cases action.run f <;> rfl

theorem live_eq (h : f.inst? id = some inst) : (live id).run f = .ok inst f := by
  simp [live, h]

theorem live_stale (h : f.inst? id = none) : (live id).run f = .error (.stale f.name id) f := by
  simp [live, h]

theorem alloc_eq (kind : InstKind) (ty : Ty) (h : (f.block? b).isSome) :
    (alloc b kind ty).run f = .ok f.cells.size
      ((f.countUses kind.operands).addCell { kind, ty, block := b, loc := none }) := by
  have h' : f.block? b ≠ none := Option.isSome_iff_ne_none.mp h
  simp [alloc, h']

theorem alloc_noBlock (kind : InstKind) (ty : Ty) (h : f.block? b = none) :
    (alloc b kind ty).run f = .error (.noBlock f.name b) f := by
  simp [alloc, h]

theorem relist_eq (change : List InstId → List InstId) (h : (f.block? b).isSome) :
    (relist b change).run f = .ok () (f.relist b change) := by
  have h' : f.block? b ≠ none := Option.isSome_iff_ne_none.mp h
  simp [relist, h']

/-- Numbering an instruction leaves the blocks as they are. -/
theorem block?_numbered (inst : Inst) (vs : List Value) (b : BlockId) :
    ((f.countUses vs).addCell inst).block? b = f.block? b := by
  show (f.countUses vs).blocks[b]? = f.blocks[b]?
  rw [Func.blocks_countUses]

theorem position_eq {place : Nat} (h : f.place? id = some (b, place)) :
    (position id).run f = .ok (b, place) f := by
  obtain ⟨inst, hi⟩ : ∃ inst, f.inst? id = some inst := by
    cases hi : f.inst? id with
    | none => simp [Func.place?, hi] at h
    | some inst => exact ⟨inst, rfl⟩
  simp [position, live_eq hi, h]

theorem position_stale (h : f.inst? id = none) :
    (position id).run f = .error (.stale f.name id) f := by
  simp [position, live_stale h]

theorem position_unlisted (h : f.inst? id = some inst) (hp : f.place? id = none) :
    (position id).run f = .error (.unlisted id) f := by
  simp [position, live_eq h, hp]

/-- The block of a listed instruction exists. -/
theorem isSome_block?_of_place? {place : Nat} (h : f.place? id = some (b, place)) :
    (f.block? b).isSome := by
  unfold Func.place? at h
  cases hi : f.inst? id with
  | none => simp [hi] at h
  | some inst =>
    cases hb : f.block? inst.block with
    | none => simp [hi, hb] at h
    | some block =>
      cases hx : block.insts.idxOf? id with
      | none => simp [hi, hb, hx] at h
      | some i =>
        simp only [hi, hb, hx, Option.bind_eq_bind, Option.bind_some, Option.pure_def,
          Option.some.injEq, Prod.mk.injEq] at h
        rw [← h.1, hb]
        rfl

theorem append_eq (kind : InstKind) (ty : Ty) (h : (f.block? b).isSome) :
    (append b kind ty).run f = .ok f.cells.size
      (((f.countUses kind.operands).addCell { kind, ty, block := b, loc := none }).relist b
        (· ++ [f.cells.size])) := by
  have h' : (((f.countUses kind.operands).addCell
      { kind, ty, block := b, loc := none }).block? b).isSome := by rwa [block?_numbered]
  simp [append, alloc_eq kind ty h, relist_eq _ h']

theorem append_noBlock (kind : InstKind) (ty : Ty) (h : f.block? b = none) :
    (append b kind ty).run f = .error (.noBlock f.name b) f := by
  simp [append, alloc_noBlock kind ty h]

theorem insertAtHead_eq (kind : InstKind) (ty : Ty) (h : (f.block? b).isSome) :
    (insertAtHead b kind ty).run f = .ok f.cells.size
      (((f.countUses kind.operands).addCell { kind, ty, block := b, loc := none }).relist b
        (f.cells.size :: ·)) := by
  have h' : (((f.countUses kind.operands).addCell
      { kind, ty, block := b, loc := none }).block? b).isSome := by rwa [block?_numbered]
  simp [insertAtHead, alloc_eq kind ty h, relist_eq _ h']

theorem insertAtHead_noBlock (kind : InstKind) (ty : Ty) (h : f.block? b = none) :
    (insertAtHead b kind ty).run f = .error (.noBlock f.name b) f := by
  simp [insertAtHead, alloc_noBlock kind ty h]

theorem insertBefore_eq {place : Nat} (kind : InstKind) (ty : Ty)
    (h : f.place? id = some (b, place)) :
    (insertBefore id kind ty).run f = .ok f.cells.size
      (((f.countUses kind.operands).addCell { kind, ty, block := b, loc := none }).relist b
        (·.insertIdx place f.cells.size)) := by
  have hb := isSome_block?_of_place? h
  have h' : (((f.countUses kind.operands).addCell
      { kind, ty, block := b, loc := none }).block? b).isSome := by rwa [block?_numbered]
  simp [insertBefore, position_eq h, alloc_eq kind ty hb, relist_eq _ h']

theorem insertBefore_stale (kind : InstKind) (ty : Ty) (h : f.inst? id = none) :
    (insertBefore id kind ty).run f = .error (.stale f.name id) f := by
  simp [insertBefore, position_stale h]

theorem replaceOperand_eq {slot : Nat} {old : Value} (v : Value) (h : f.inst? id = some inst)
    (ho : inst.kind.operand? slot = some old) :
    (replaceOperand id slot v).run f = .ok ()
      (((f.setCell id (some { inst with kind := inst.kind.setOperand slot v })).uncountUse
        old).countUse v) := by
  simp [replaceOperand, live_eq h, ho]

theorem replaceOperand_stale (slot : Nat) (v : Value) (h : f.inst? id = none) :
    (replaceOperand id slot v).run f = .error (.stale f.name id) f := by
  simp [replaceOperand, live_stale h]

theorem replaceOperand_noSlot {slot : Nat} (v : Value) (h : f.inst? id = some inst)
    (ho : inst.kind.operand? slot = none) :
    (replaceOperand id slot v).run f = .error (.noSlot id slot) f := by
  simp [replaceOperand, live_eq h, ho]

theorem setLoc_eq (loc : Option Loc) (h : f.inst? id = some inst) :
    (setLoc id loc).run f = .ok () (f.setCell id (some { inst with loc })) := by
  simp [setLoc, live_eq h]

theorem setLoc_stale (loc : Option Loc) (h : f.inst? id = none) :
    (setLoc id loc).run f = .error (.stale f.name id) f := by
  simp [setLoc, live_stale h]

theorem erase_eq {place : Nat} (hu : f.useCount id = 0) (h : f.inst? id = some inst)
    (hp : f.place? id = some (b, place)) :
    (erase id).run f = .ok ()
      (((f.relist b (·.eraseIdx place)).setCell id none).uncountUses inst.kind.operands) := by
  have hb := isSome_block?_of_place? hp
  have h' : (f.relist b (·.eraseIdx place)).inst? id = some inst := h
  simp [erase, Func.hasUses, hu, position_eq hp, relist_eq _ hb, live_eq h']

theorem erase_stillUsed (hu : 0 < f.useCount id) :
    (erase id).run f = .error (.stillUsed f.name id) f := by
  simp [erase, Func.hasUses, hu]

theorem erase_stale (hu : f.useCount id = 0) (h : f.inst? id = none) :
    (erase id).run f = .error (.stale f.name id) f := by
  simp [erase, Func.hasUses, hu, position_stale h]

end Results

end Edit

end Confinement
