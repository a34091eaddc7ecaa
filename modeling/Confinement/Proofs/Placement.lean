import Confinement.Proofs.Success
import Mathlib.Data.List.Nodup
import Mathlib.Data.List.Perm.Basic

/-!
# Where instructions stand

Functions come about by requests: a function starts without a body, and is then edited, renamed or
given another signature (`Func.Built`). Whatever the requests are and whether they are served or
refused, every live instruction of such a function is listed once, in the block that it names, and
nothing else is listed (`Built.placed`). The program order of a function is therefore a list of its
live instructions without repetition (`Placed.nodup_order`, `Placed.mem_order`).
-/

set_option autoImplicit false

namespace Confinement

open Func

/-! ## Requests -/

/-- A request to edit a function. -/
inductive Operation where
  | addBlock (name : String)
  | append (b : BlockId) (kind : InstKind) (ty : Ty)
  | insertAtHead (b : BlockId) (kind : InstKind) (ty : Ty)
  | insertBefore (anchor : InstId) (kind : InstKind) (ty : Ty)
  | replaceOperand (id : InstId) (slot : Nat) (v : Value)
  | setLoc (id : InstId) (loc : Option Loc)
  | erase (id : InstId)
  deriving DecidableEq

/-- The function that an edit leaves, be it refused or not. -/
def Edit.left {α : Type} (action : Edit α) (f : Func) : Func :=
  match action.run f with
  | .ok _ g => g
  | .error _ g => g

/-- What a request makes of a function. -/
def Operation.apply (f : Func) : Operation → Func
  | .addBlock name => (Edit.addBlock name).left f
  | .append b kind ty => (Edit.append b kind ty).left f
  | .insertAtHead b kind ty => (Edit.insertAtHead b kind ty).left f
  | .insertBefore anchor kind ty => (Edit.insertBefore anchor kind ty).left f
  | .replaceOperand id slot v => (Edit.replaceOperand id slot v).left f
  | .setLoc id loc => (Edit.setLoc id loc).left f
  | .erase id => (Edit.erase id).left f

/-- A function that the requests can lead to. -/
inductive Func.Built : Func → Prop
  /-- It is declared. -/
  | declare (name : String) (params : List Ty) (ret : Ty) : Built (.declare name params ret)
  /-- It is edited. -/
  | edit {f : Func} (before : Built f) (op : Operation) : Built (op.apply f)
  /-- It is given another name and another signature. -/
  | retype {f : Func} (before : Built f) (name : String) (params : List Ty) (ret : Ty) :
      Built { f with name, params, ret }

/-- A module whose functions requests can lead to. -/
def Module.Built (m : Module) : Prop :=
  ∀ f ∈ m.functions, f.Built

/-- A function that is declared, given blocks and then edited. -/
theorem Func.Built.history {f : Func} (hf : f.Built) (ops : List Operation) :
    (ops.foldl Operation.apply f).Built := by
  induction ops generalizing f with
  | nil => exact hf
  | cons op ops ih => exact ih (hf.edit op)

/-- A module of one function. -/
theorem Module.built_of_functions_eq {m : Module} {f : Func} (h : m.functions = [f])
    (hf : f.Built) : m.Built := by
  intro g hg
  rw [h, List.mem_singleton] at hg
  rw [hg]
  exact hf

/-- A request keeps what its edit keeps when it is served. -/
theorem Edit.Serves.left {α : Type} {action : Edit α} {f : Func} {post : α → Func → Prop}
    {P : Func → Prop} (hs : action.Serves f post) (hpost : ∀ a g, post a g → P g) (hf : P f) :
    P (action.left f) := by
  rw [Serves] at hs
  rw [Edit.left]
  cases hrun : action.run f with
  | ok a g =>
    rw [hrun] at hs
    exact hpost a g hs
  | error fault g =>
    -- refused, so nothing has changed
    rw [hrun] at hs
    have hsame : g = f := hs
    show P g
    rw [hsame]
    exact hf

/-! ## Placement -/

/-- Live instructions and listed numbers agree. -/
structure Func.Placed (f : Func) : Prop where
  /-- A live instruction names a block. -/
  block : ∀ id inst, f.inst? id = some inst → (f.block? inst.block).isSome
  /-- A block lists the live instructions that name it. -/
  mem : ∀ b block id, f.block? b = some block →
    (id ∈ block.insts ↔ ∃ inst, f.inst? id = some inst ∧ inst.block = b)
  /-- A block lists nothing twice. -/
  once : ∀ b block, f.block? b = some block → block.insts.Nodup

namespace Func

variable {f g : Func}

theorem place?_eq_some {id : InstId} {b : BlockId} {place : Nat}
    (h : f.place? id = some (b, place)) :
    ∃ inst block, f.inst? id = some inst ∧ inst.block = b ∧ f.block? b = some block ∧
      block.insts.idxOf? id = some place := by
  rw [place?] at h
  simp only [Option.bind_eq_bind, Option.bind_eq_some_iff, Option.pure_def, Option.some.injEq,
    Prod.mk.injEq] at h
  obtain ⟨inst, hi, block, hb, found, hx, rfl, rfl⟩ := h
  exact ⟨inst, block, hi, rfl, hb, hx⟩

namespace Placed

theorem declare (name : String) (params : List Ty) (ret : Ty) :
    (Func.declare name params ret).Placed where
  block := by
    intro id inst h
    cases h
  mem := by
    intro b block id h
    cases h
  once := by
    intro b block h
    cases h

/-- Only the blocks and what instructions name matter. -/
theorem congr (hf : f.Placed) (hb : g.blocks = f.blocks)
    (hi : ∀ id, (g.inst? id).map (·.block) = (f.inst? id).map (·.block)) : g.Placed := by
  have hblock : ∀ b, g.block? b = f.block? b := fun b => congrArg (·[b]?) hb
  have hnames : ∀ id b, (∃ inst, g.inst? id = some inst ∧ inst.block = b) ↔
      ∃ inst, f.inst? id = some inst ∧ inst.block = b := by
    intro id b
    have hg : (∃ inst, g.inst? id = some inst ∧ inst.block = b) ↔
        (g.inst? id).map (·.block) = some b := by rw [Option.map_eq_some_iff]
    rw [hg, hi, Option.map_eq_some_iff]
  refine ⟨?_, ?_, ?_⟩
  · intro id inst h
    obtain ⟨old, hold, hsame⟩ := (hnames id inst.block).mp ⟨inst, h, rfl⟩
    rw [hblock, ← hsame]
    exact hf.block id old hold
  · intro b block id h
    rw [hblock] at h
    rw [hnames]
    exact hf.mem b block id h
  · intro b block h
    rw [hblock] at h
    exact hf.once b block h

/-- A new block is empty. -/
theorem addBlock (hf : f.Placed) (name : String) :
    ({ f with blocks := f.blocks ++ [{ name, insts := [] }] } : Func).Placed := by
  have hget : ∀ b, (f.blocks ++ [({ name, insts := [] } : Block)])[b]? =
      if b = f.blocks.length then some { name, insts := [] } else f.block? b := by
    intro b
    split
    · next h =>
      subst h
      simp
    · next h =>
      rcases Nat.lt_or_gt_of_ne h with hlt | hgt
      · exact List.getElem?_append_left hlt
      · rw [Func.block?, List.getElem?_eq_none (Nat.le_of_lt hgt), List.getElem?_eq_none]
        simp only [List.length_append, List.length_singleton]
        omega
  have hlast : f.block? f.blocks.length = none := List.getElem?_eq_none (Nat.le_refl _)
  -- no instruction names the new block, since there was none of its number
  refine ⟨?_, ?_, ?_⟩
  · intro id inst h
    have hsome := hf.block id inst h
    show ((f.blocks ++ [({ name, insts := [] } : Block)])[inst.block]?).isSome
    rw [hget]
    split
    · rfl
    · exact hsome
  · intro b block id h
    change (f.blocks ++ [({ name, insts := [] } : Block)])[b]? = some block at h
    rw [hget] at h
    split at h
    · next hb =>
      cases h
      constructor
      · intro hmem
        cases hmem
      · rintro ⟨inst, hi, hname⟩
        have hsome := hf.block id inst hi
        rw [hname, hb, hlast] at hsome
        cases hsome
    · exact hf.mem b block id h
  · intro b block h
    change (f.blocks ++ [({ name, insts := [] } : Block)])[b]? = some block at h
    rw [hget] at h
    split at h
    · cases h
      exact List.nodup_nil
    · exact hf.once b block h

/-- A block that lists the next number anywhere lists what has that number. -/
theorem insert (hf : f.Placed) {kind : InstKind} {ty : Ty} {b : BlockId}
    {change : List InstId → List InstId} (hb : (f.block? b).isSome)
    (hperm : ∀ block, f.block? b = some block →
      (change block.insts).Perm (f.cells.size :: block.insts)) :
    (((f.countUses kind.operands).addCell { kind, ty, block := b, loc := none }).relist b
      change).Placed := by
  have hinst : ∀ id, (((f.countUses kind.operands).addCell
      { kind, ty, block := b, loc := none }).relist b change).inst? id =
      if id = f.cells.size then some { kind, ty, block := b, loc := none } else f.inst? id := by
    intro id
    rw [inst?_relist, inst?_addCell, size_countUses, inst?_countUses]
  have hblock : ∀ other, (((f.countUses kind.operands).addCell
      { kind, ty, block := b, loc := none }).relist b change).block? other =
      (f.block? other).map fun block =>
        if b = other then { block with insts := change block.insts } else block := by
    intro other
    rw [block?_relist, Edit.block?_numbered]
  -- the next number has not been given out
  have hnew : f.inst? f.cells.size = none := by
    cases h : f.inst? f.cells.size with
    | none => rfl
    | some inst => exact absurd (lt_size_of_inst? h) (Nat.lt_irrefl _)
  refine ⟨?_, ?_, ?_⟩
  · intro id inst h
    rw [hblock, Option.isSome_map]
    rw [hinst] at h
    split at h
    · cases h
      exact hb
    · exact hf.block id inst h
  · intro other block id h
    rw [hblock, Option.map_eq_some_iff] at h
    obtain ⟨old, hold, rfl⟩ := h
    rw [hinst]
    have hmem := hf.mem other old id hold
    by_cases hother : b = other
    · -- this block lists the new number besides the old ones
      subst hother
      rw [if_pos rfl, (hperm old hold).mem_iff, List.mem_cons, hmem]
      split
      · next hid => simp [hid]
      · next hid => simp [hid]
    · -- the new instruction does not name another block
      rw [if_neg hother, hmem]
      split
      · next hid => simp [hid, hnew, hother]
      · rfl
  · intro other block h
    rw [hblock, Option.map_eq_some_iff] at h
    obtain ⟨old, hold, rfl⟩ := h
    by_cases hother : b = other
    · subst hother
      rw [if_pos rfl, (hperm old hold).nodup_iff, List.nodup_cons]
      refine ⟨?_, hf.once b old hold⟩
      rw [hf.mem b old _ hold, hnew]
      rintro ⟨inst, hi, -⟩
      cases hi
    · rw [if_neg hother]
      exact hf.once other old hold

/-- What is emptied is taken off its list. -/
theorem erase (hf : f.Placed) {id : InstId} {b : BlockId} {place : Nat}
    (hp : f.place? id = some (b, place)) (vs : List Value) :
    (((f.relist b (·.eraseIdx place)).setCell id none).uncountUses vs).Placed := by
  obtain ⟨inst, block, hi, hname, hb, hplace⟩ := place?_eq_some hp
  have hinst : ∀ other, (((f.relist b (·.eraseIdx place)).setCell id none).uncountUses vs).inst?
      other = if other = id then none else f.inst? other := by
    intro other
    rw [inst?_uncountUses, inst?_setCell, inst?_relist]
    have hs : id < (f.relist b (·.eraseIdx place)).cells.size := lt_size_of_inst? hi
    simp only [hs, and_true]
  have hblock : ∀ other, (((f.relist b (·.eraseIdx place)).setCell id none).uncountUses vs).block?
      other = (f.block? other).map fun block =>
        if b = other then { block with insts := block.insts.eraseIdx place } else block := by
    intro other
    rw [Func.block?, blocks_uncountUses]
    show (f.relist b (·.eraseIdx place)).block? other = _
    rw [block?_relist]
  -- a number is listed once, so removing its place removes the number
  have herase : block.insts.eraseIdx place = block.insts.erase id := by
    rw [List.erase_eq_eraseIdx, hplace]
  refine ⟨?_, ?_, ?_⟩
  · intro other found h
    rw [hblock, Option.isSome_map]
    rw [hinst] at h
    split at h
    · cases h
    · exact hf.block other found h
  · intro other found listed h
    rw [hblock, Option.map_eq_some_iff] at h
    obtain ⟨old, hold, rfl⟩ := h
    rw [hinst]
    have hmem := hf.mem other old listed hold
    by_cases hother : b = other
    · subst hother
      cases hb.symm.trans hold
      rw [if_pos rfl, herase, (hf.once b block hb).mem_erase_iff, hmem]
      split
      · next hid => simp [hid]
      · next hid => simp [hid]
    · -- another block did not list the number
      rw [if_neg hother, hmem]
      split
      · next hid =>
        subst hid
        simp only [hi, Option.some.injEq, exists_eq_left', hname, hother, false_iff]
        rintro ⟨inst, hnone, -⟩
        cases hnone
      · rfl
  · intro other found h
    rw [hblock, Option.map_eq_some_iff] at h
    obtain ⟨old, hold, rfl⟩ := h
    split
    · exact (hf.once other old hold).eraseIdx place
    · exact hf.once other old hold

/-- A cell that comes to hold an instruction of the same block. -/
theorem setCell (hf : f.Placed) {id : InstId} {inst new : Inst} (hi : f.inst? id = some inst)
    (hname : new.block = inst.block) : (f.setCell id (some new)).Placed := by
  refine hf.congr rfl fun other => ?_
  rw [inst?_setCell]
  split
  · next h =>
    rw [h.1, hi, Option.map_some, Option.map_some, hname]
  · rfl

theorem apply (hf : f.Placed) (op : Operation) : (op.apply f).Placed := by
  cases op with
  | addBlock name => exact hf.addBlock name
  | append b kind ty =>
    apply (Edit.append_serves f b kind ty).left _ hf
    rintro id g ⟨hb, -, rfl⟩
    exact hf.insert hb fun block _ => List.perm_append_singleton _ _
  | insertAtHead b kind ty =>
    apply (Edit.insertAtHead_serves f b kind ty).left _ hf
    rintro id g ⟨hb, -, rfl⟩
    exact hf.insert hb fun block _ => List.Perm.refl _
  | insertBefore anchor kind ty =>
    apply (Edit.insertBefore_serves f anchor kind ty).left _ hf
    rintro id g ⟨b, place, hp, -, rfl⟩
    apply hf.insert (Edit.isSome_block?_of_place? hp)
    intro block hblock
    -- the anchor is listed in this block, so its place is one of the list
    obtain ⟨inst, listed, -, -, hlisted, hplace⟩ := place?_eq_some hp
    cases hlisted.symm.trans hblock
    obtain ⟨hlt, -, -⟩ := List.idxOf?_eq_some_iff.mp hplace
    exact List.perm_insertIdx _ _ (Nat.le_of_lt hlt)
  | replaceOperand id slot v =>
    apply (Edit.replaceOperand_serves f id slot v).left _ hf
    rintro u g ⟨inst, old, hi, -, rfl⟩
    have hset : (f.setCell id (some { inst with kind := inst.kind.setOperand slot v })).Placed :=
      hf.setCell hi rfl
    -- the counts of uses are no part of the placement
    apply hset.congr
    · rw [blocks_countUse, blocks_uncountUse]
    · intro other
      rw [inst?_countUse, inst?_uncountUse]
  | setLoc id loc =>
    apply (Edit.setLoc_serves f id loc).left _ hf
    rintro u g ⟨inst, hi, rfl⟩
    exact hf.setCell hi rfl
  | erase id =>
    apply (Edit.erase_serves f id).left _ hf
    rintro u g ⟨inst, b, place, -, -, hp, rfl⟩
    exact hf.erase hp _

/-! ## Program order -/

theorem mem_order (hf : f.Placed) {id : InstId} :
    id ∈ f.order ↔ ∃ inst, f.inst? id = some inst := by
  rw [order]
  rw [List.mem_flatMap]
  constructor
  · rintro ⟨block, hblock, hid⟩
    obtain ⟨b, hb⟩ := List.mem_iff_getElem?.mp hblock
    obtain ⟨inst, hi, -⟩ := (hf.mem b block id hb).mp hid
    exact ⟨inst, hi⟩
  · rintro ⟨inst, hi⟩
    obtain ⟨block, hb⟩ := Option.isSome_iff_exists.mp (hf.block id inst hi)
    exact ⟨block, List.mem_of_getElem? hb, (hf.mem inst.block block id hb).mpr ⟨inst, hi, rfl⟩⟩

theorem nodup_order (hf : f.Placed) : f.order.Nodup := by
  rw [order]
  rw [List.nodup_flatMap]
  constructor
  · intro block hblock
    obtain ⟨b, hb⟩ := List.mem_iff_getElem?.mp hblock
    exact hf.once b block hb
  · rw [List.pairwise_iff_getElem]
    intro i j hi hj hlt id hfst hsnd
    -- an instruction names one block, so two blocks do not list the same
    obtain ⟨inst, hinst, hname⟩ := (hf.mem i _ id (List.getElem?_eq_getElem hi)).mp hfst
    obtain ⟨inst', hinst', hname'⟩ := (hf.mem j _ id (List.getElem?_eq_getElem hj)).mp hsnd
    cases hinst.symm.trans hinst'
    exact Nat.ne_of_lt hlt (hname.symm.trans hname')

end Placed

/-- Whatever was requested, live instructions and listed numbers agree. -/
theorem Built.placed (hf : f.Built) : f.Placed := by
  induction hf with
  | declare name params ret => exact Placed.declare name params ret
  | edit _ op ih => exact ih.apply op
  | retype _ name params ret ih => exact ih.congr rfl fun _ => rfl

end Func

end Confinement
