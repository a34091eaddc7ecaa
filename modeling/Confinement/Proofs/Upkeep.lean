import Confinement.Proofs.Placement
import Confinement.Proofs.Reads

/-!
# What edits uphold

An edit changes cells, counters and lists one after the other, and nothing but its own steps keeps
them in agreement. `Func.Upholds` says what an edit of the pass leaves intact whenever it is served:
placement, counters that are not too low or not too high, an instruction at the head of the entry
block, and that nothing comes to be read that is gone. Each edit has a lemma that says what this asks
of it: an insertion must read what is there, and what is removed must not be counted below its
reads.
-/

set_option autoImplicit false

namespace Confinement

open Func

/-! ## Parameters and the head of the entry block -/

namespace Func

variable (f : Func) (v : Value) (vs : List Value)

@[simp] theorem params_countUse : (f.countUse v).params = f.params := by
  cases v <;> rfl

@[simp] theorem params_uncountUse : (f.uncountUse v).params = f.params := by
  cases v <;> rfl

@[simp] theorem params_countUses : (f.countUses vs).params = f.params := by
  induction vs generalizing f with
  | nil => rfl
  | cons v vs ih => exact (ih (f.countUse v)).trans (f.params_countUse v)

@[simp] theorem params_uncountUses : (f.uncountUses vs).params = f.params := by
  induction vs generalizing f with
  | nil => rfl
  | cons v vs ih => exact (ih (f.uncountUse v)).trans (f.params_uncountUse v)

/-- An instruction is the first of the entry block. -/
def Heads (id : InstId) : Prop :=
  (f.block? 0).bind (·.insts.head?) = some id

variable {f} {g : Func} {b : InstId}

/-- The entry block is the first. -/
theorem eq_zero_of_entry? {entry : BlockId} (h : f.entry? = some entry) : entry = 0 := by
  rw [ entry?] at h
  split at h
  · cases h
  · exact (Option.some.inj h).symm

theorem Heads.congr (hf : f.Heads b) (hblocks : g.blocks = f.blocks) : g.Heads b := by
  have hblock : g.block? 0 = f.block? 0 := congrArg (·[0]?) hblocks
  rw [Heads, hblock]
  exact hf

/-- A changed list keeps its head when the change does. -/
theorem Heads.relist (hf : f.Heads b) {at_ : BlockId} {change : List InstId → List InstId}
    (hchange : ∀ block, f.block? at_ = some block → block.insts.head? = some b →
      (change block.insts).head? = some b) : (f.relist at_ change).Heads b := by
  obtain ⟨block, hblock, hhead⟩ := Option.bind_eq_some_iff.mp hf
  rw [Heads, block?_relist, hblock, Option.map_some, Option.bind_some]
  split
  · next he => exact hchange block (he ▸ hblock) hhead
  · exact hhead

/-- What stands at a place of another instruction does not stand at the head. -/
theorem place_ne_zero {l : List InstId} {id : InstId} {place : Nat} (hhead : l.head? = some b)
    (hplace : l.idxOf? id = some place) (hne : b ≠ id) : ∃ rest before,
      l = b :: rest ∧ place = before + 1 := by
  obtain ⟨rest, rfl⟩ := List.head?_eq_some_iff.mp hhead
  obtain ⟨hlt, hat, -⟩ := List.idxOf?_eq_some_iff.mp hplace
  cases place with
  | zero => exact absurd (by simpa using hat) hne
  | succ before => exact ⟨rest, before, rfl, rfl⟩

end Func

/-! ## Edits -/

/-- What an edit from `f` to `g` leaves intact, and the instruction `base` at the head of the entry
block with it. -/
structure Func.Upholds (base : Option InstId) (f g : Func) : Prop where
  /-- The parameters stay. -/
  params : g.params = f.params
  /-- Live instructions and listed numbers agree still. -/
  placed : f.Placed → g.Placed
  /-- A counter that was not too low is not too low. -/
  covers : ∀ id, f.reads id ≤ f.useCount id → g.reads id ≤ g.useCount id
  /-- A counter that was not too high is not too high. -/
  capped : ∀ id, f.useCount id ≤ f.reads id → g.useCount id ≤ g.reads id
  /-- Nothing starts to dangle. -/
  dangles : ∀ id, g.Dangles id → f.Dangles id
  /-- The base stays at the head. -/
  head : ∀ b, base = some b → f.Heads b → g.Heads b

namespace Func.Upholds

variable {base : Option InstId} {f g h : Func} {id anchor : InstId} {kind : InstKind} {ty : Ty}

theorem refl (base : Option InstId) (f : Func) : Upholds base f f where
  params := rfl
  placed := fun hf => hf
  covers := fun _ hle => hle
  capped := fun _ hle => hle
  dangles := fun _ hd => hd
  head := fun _ _ hb => hb

theorem trans (hfg : Upholds base f g) (hgh : Upholds base g h) : Upholds base f h where
  params := hgh.params.trans hfg.params
  placed := fun hf => hgh.placed (hfg.placed hf)
  covers := fun id hle => hgh.covers id (hfg.covers id hle)
  capped := fun id hle => hgh.capped id (hfg.capped id hle)
  dangles := fun id hd => hfg.dangles id (hgh.dangles id hd)
  head := fun b hb hf => hgh.head b hb (hfg.head b hb hf)

/-- Without a base there is less to uphold. -/
theorem weaken (hfg : Upholds base f g) : Upholds none f g :=
  { hfg with head := fun _ hb => nomatch hb }

/-- Exact counters stay exact. -/
theorem exact (hfg : Upholds base f g) (hf : f.Exact) : g.Exact := fun id =>
  Nat.le_antisymm (hfg.capped id (Nat.le_of_eq (hf id))) (hfg.covers id (Nat.le_of_eq (hf id).symm))

/-- Where every operand was there, every operand is. -/
theorem closed (hfg : Upholds base f g) (hf : f.Closed) : g.Closed :=
  closed_iff.mpr fun id hd => closed_iff.mp hf id (hfg.dangles id hd)

/-- What is read, and was live at first, is live. -/
theorem live (hfg : Upholds base f g) {read : Inst} (hf : f.inst? id = some read)
    (hread : 0 < g.reads id) : ∃ inst, g.inst? id = some inst := by
  cases hg : g.inst? id with
  | some inst => exact ⟨inst, rfl⟩
  | none =>
    obtain ⟨hnone, -⟩ := hfg.dangles id ⟨hg, hread⟩
    rw [hf] at hnone
    cases hnone

end Func.Upholds

namespace Edit

variable {base : Option InstId} {f g : Func} {id anchor : InstId} {kind : InstKind} {ty : Ty}

theorem left_of_ok {α : Type} {action : Edit α} {a : α} (h : action.run f = .ok a g) :
    action.left f = g := by
  rw [left, h]

/-- An instruction that is put into a list and reads what is there. -/
theorem upholds_added {at_ : BlockId} {change : List InstId → List InstId}
    (hadded : g = ((f.countUses kind.operands).addCell
      { kind, ty, block := at_, loc := none }).relist at_ change)
    (hread : ∀ v ∈ kind.operands, f.Resolves v) (hplaced : f.Placed → g.Placed)
    (hhead : ∀ b, base = some b → f.Heads b → g.Heads b) : f.Upholds base g := by
  have hsize : g.cells.size = f.cells.size + 1 := by
    rw [hadded]
    simp [Func.relist, Func.addCell]
  have hinst : ∀ other, g.inst? other =
      if other = f.cells.size then some { kind, ty, block := at_, loc := none }
      else f.inst? other := by
    intro other
    rw [hadded, inst?_relist, inst?_addCell, size_countUses, inst?_countUses]
  have hreads : ∀ id, g.reads id = f.reads id + kind.operands.count (.inst id) :=
    reads_of_added hsize hinst
  have huses : ∀ id, g.useCount id = f.useCount id + kind.operands.count (.inst id) := by
    intro id
    rw [hadded, useCount_relist, useCount_addCell, useCount_countUses]
    split
    · rfl
    · next hbeyond =>
      -- a number that was not given out is not read
      rw [eq_comm, Nat.add_left_cancel_iff, List.count_eq_zero]
      intro hmem
      obtain ⟨inst, hi⟩ := hread _ hmem id rfl
      exact hbeyond (lt_size_of_inst? hi)
  refine ⟨?_, hplaced, ?_, ?_, ?_, hhead⟩
  · rw [hadded]
    exact params_countUses f kind.operands
  · intro id hle
    rw [hreads, huses]
    omega
  · intro id hle
    rw [hreads, huses]
    omega
  · rintro id ⟨hnone, hpos⟩
    rw [hinst] at hnone
    split at hnone
    · cases hnone
    · refine ⟨hnone, ?_⟩
      -- the new instruction does not read what is gone
      have hzero : kind.operands.count (.inst id) = 0 := by
        rw [List.count_eq_zero]
        intro hmem
        obtain ⟨inst, hi⟩ := hread _ hmem id rfl
        rw [hnone] at hi
        cases hi
      rw [hreads, hzero] at hpos
      exact hpos

/-- An insertion in front of an instruction that is not the base. -/
theorem upholds_insertBefore (hrun : (insertBefore anchor kind ty).run f = .ok id g)
    (hread : ∀ v ∈ kind.operands, f.Resolves v) (hne : base ≠ some anchor) :
    f.Upholds base g := by
  have hplaced : f.Placed → g.Placed := fun hf =>
    left_of_ok hrun ▸ hf.apply (.insertBefore anchor kind ty)
  obtain ⟨at_, place, hplace, -, hadded⟩ := (insertBefore_serves f anchor kind ty).of_ok hrun
  refine upholds_added hadded hread hplaced ?_
  intro b hb hf
  rw [hadded]
  have hf' : ((f.countUses kind.operands).addCell
      { kind, ty, block := at_, loc := none }).Heads b := hf.congr (blocks_countUses f kind.operands)
  apply hf'.relist
  intro block hblock hhead
  obtain ⟨-, listed, -, -, hlisted, hidx⟩ := place?_eq_some hplace
  rw [block?_numbered] at hblock
  cases hlisted.symm.trans hblock
  obtain ⟨rest, before, hl, rfl⟩ := place_ne_zero hhead hidx fun he => hne (he ▸ hb)
  rw [hl, List.insertIdx_succ_cons]
  rfl

/-- An insertion at the head of the entry block. -/
theorem upholds_insertAtHead (hrun : (insertAtHead 0 kind ty).run f = .ok id g)
    (hread : ∀ v ∈ kind.operands, f.Resolves v) : f.Upholds none g ∧ g.Heads id := by
  have hplaced : f.Placed → g.Placed := fun hf =>
    left_of_ok hrun ▸ hf.apply (.insertAtHead 0 kind ty)
  obtain ⟨hentry, hid, hadded⟩ := (insertAtHead_serves f 0 kind ty).of_ok hrun
  obtain ⟨block, hblock⟩ := Option.isSome_iff_exists.mp hentry
  refine ⟨upholds_added hadded hread hplaced (fun b hb => by cases hb), ?_⟩
  rw [hadded, Heads, block?_relist, block?_numbered, hblock, hid]
  rfl

/-- A slot that comes to read what is there. -/
theorem upholds_replaceOperand {slot : Nat} {v : Value} {u : Unit}
    (hrun : (replaceOperand id slot v).run f = .ok u g) (hv : f.Resolves v)
    (base : Option InstId) : f.Upholds base g := by
  have hplaced : f.Placed → g.Placed := fun hf =>
    left_of_ok hrun ▸ hf.apply (.replaceOperand id slot v)
  obtain ⟨inst, old, hi, ho, hg⟩ := (replaceOperand_serves f id slot v).of_ok hrun
  have hreads := reads_replaceOperand hrun hi ho
  obtain ⟨found, was, -, -, -, hinst⟩ := inst?_replaceOperand hrun
  have huses : ∀ read, g.useCount read =
      f.useCount read - (if old = .inst read then 1 else 0) +
        (if v = .inst read then 1 else 0) := by
    intro read
    rw [hg, useCount_countUse, useCount_uncountUse, useCount_setCell, size_uncountUse, size_setCell]
    by_cases he : v = .inst read
    · obtain ⟨inst, hi⟩ := hv read he
      simp [he, lt_size_of_inst? hi]
    · simp [he]
  -- the slot is one of those that read what it held
  have hheld : ∀ read, (if old = .inst read then 1 else 0) ≤ f.reads read := by
    intro read
    split
    · next he => exact reads_pos_of_operand? hi (he ▸ ho)
    · exact Nat.zero_le _
  refine ⟨?_, hplaced, ?_, ?_, ?_, fun b _ hf => hf.congr ?_⟩
  · rw [hg, params_countUse, params_uncountUse]
    rfl
  · intro read hle
    have hread := hreads read
    have hslot := hheld read
    rw [huses]
    omega
  · intro read hle
    have hread := hreads read
    have hslot := hheld read
    rw [huses]
    omega
  · rintro read ⟨hnone, hpos⟩
    have hgone : f.inst? read = none := by
      rw [hinst] at hnone
      split at hnone
      · cases hnone
      · exact hnone
    refine ⟨hgone, ?_⟩
    -- what is gone is not what the slot reads now
    have he : v ≠ .inst read := by
      intro he
      obtain ⟨inst, hi⟩ := hv read he
      rw [hgone] at hi
      cases hi
    have hread := hreads read
    rw [if_neg he] at hread
    omega
  · rw [hg, blocks_countUse, blocks_uncountUse]
    rfl

/-- A source position. -/
theorem upholds_setLoc {loc : Option Loc} {u : Unit} (hrun : (setLoc id loc).run f = .ok u g)
    (base : Option InstId) : f.Upholds base g := by
  have hplaced : f.Placed → g.Placed := fun hf => left_of_ok hrun ▸ hf.apply (.setLoc id loc)
  have hreads := reads_setLoc hrun
  obtain ⟨inst, hi, hg⟩ := (setLoc_serves f id loc).of_ok hrun
  obtain ⟨found, -, -, hinst⟩ := inst?_setLoc hrun
  have huses : ∀ read, g.useCount read = f.useCount read := fun read => by
    rw [hg, useCount_setCell]
  refine ⟨?_, hplaced, ?_, ?_, ?_, fun b _ hf => hf.congr ?_⟩
  · rw [hg]
    rfl
  · intro read hle
    rw [hreads, huses]
    exact hle
  · intro read hle
    rw [hreads, huses]
    exact hle
  · rintro read ⟨hnone, hpos⟩
    rw [hreads] at hpos
    rw [hinst] at hnone
    split at hnone
    · cases hnone
    · exact ⟨hnone, hpos⟩
  · rw [hg]
    rfl

/-- A removal of what is not the base, with a counter that is not too low. -/
theorem upholds_erase {u : Unit} (hrun : (erase id).run f = .ok u g)
    (hcovers : f.reads id ≤ f.useCount id) (hne : base ≠ some id) : f.Upholds base g := by
  have hplaced : f.Placed → g.Placed := fun hf => left_of_ok hrun ▸ hf.apply (.erase id)
  obtain ⟨inst, at_, place, hunread, hi, hplace, hg⟩ := (erase_serves f id).of_ok hrun
  have hreads := reads_erase hrun hi
  obtain ⟨-, hinst⟩ := inst?_erase hrun
  have huses : ∀ read, g.useCount read =
      f.useCount read - inst.kind.operands.count (.inst read) := fun read => by
    rw [hg, useCount_uncountUses, useCount_setCell, useCount_relist]
  refine ⟨?_, hplaced, ?_, ?_, ?_, ?_⟩
  · rw [hg, params_uncountUses]
    rfl
  · intro read hle
    have hread := hreads read
    rw [huses]
    omega
  · intro read hle
    have hread := hreads read
    rw [huses]
    omega
  · rintro read ⟨hnone, hpos⟩
    have hread := hreads read
    rw [hinst] at hnone
    split at hnone
    · next he =>
      -- nothing was counted to read it, and so nothing did
      subst he
      omega
    · exact ⟨hnone, by omega⟩
  · intro b hb hf
    rw [hg]
    apply Heads.congr _ (blocks_uncountUses _ _)
    show (f.relist at_ (·.eraseIdx place)).Heads b
    apply hf.relist
    intro block hblock hhead
    obtain ⟨-, listed, -, -, hlisted, hidx⟩ := place?_eq_some hplace
    cases hlisted.symm.trans hblock
    obtain ⟨rest, before, hl, rfl⟩ := place_ne_zero hhead hidx fun he => hne (he ▸ hb)
    rw [hl, List.eraseIdx_cons_succ]
    rfl

end Edit

end Confinement
