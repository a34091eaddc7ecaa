import Confinement.Proofs.Growth
import Mathlib.Data.List.Perm.Basic

/-!
# Who reads what

The operand slots of the live instructions of a function (`Func.slots`) say how often an instruction
is read (`Func.reads`). Beside each instruction stands a counter, which the edits change without
looking at the slots; a function is `Exact` when every counter is what the slots say, and `Closed`
when no slot names an instruction that is gone.

How often something is read depends on the instructions alone, so each edit has an equation for it:
an addition reads what its operands name (`reads_of_added`), and a change of one cell exchanges what
the cell read before for what it reads now (`reads_of_changed`).
-/

set_option autoImplicit false

namespace Confinement

open Func

/-! ## Slots -/

namespace Func

/-- The values that an instruction reads; none once it is gone. -/
def reading (f : Func) (id : InstId) : List Value :=
  ((f.inst? id).map (·.kind.operands)).getD []

/-- The operand slots of the live instructions, in the order of their numbers. -/
def slots (f : Func) : List Value :=
  (List.range f.cells.size).flatMap f.reading

/-- The number of operand slots of live instructions that name an instruction. -/
def reads (f : Func) (id : InstId) : Nat :=
  f.slots.count (.inst id)

/-- A value names no instruction that is gone, or that never was. -/
def Resolves (f : Func) (v : Value) : Prop :=
  ∀ id, v = .inst id → ∃ inst, f.inst? id = some inst

/-- Every operand of a live instruction that names an instruction names a live one. -/
def Closed (f : Func) : Prop :=
  ∀ id inst, f.inst? id = some inst → ∀ v ∈ inst.kind.operands, f.Resolves v

/-- Every counter is the number of slots that name its instruction. -/
def Exact (f : Func) : Prop :=
  ∀ id, f.useCount id = f.reads id

/-- A number is read, though no live instruction has it. -/
def Dangles (f : Func) (id : InstId) : Prop :=
  f.inst? id = none ∧ 0 < f.reads id

variable {f g : Func} {id : InstId} {inst : Inst} {v : Value}

theorem reading_of_inst? (h : f.inst? id = some inst) : f.reading id = inst.kind.operands := by
  rw [reading, h]
  rfl

theorem mem_slots :
    v ∈ f.slots ↔ ∃ id inst, f.inst? id = some inst ∧ v ∈ inst.kind.operands := by
  rw [slots, List.mem_flatMap]
  constructor
  · rintro ⟨id, -, hv⟩
    cases hi : f.inst? id with
    | none =>
      rw [reading, hi] at hv
      cases hv
    | some inst =>
      rw [reading_of_inst? hi] at hv
      exact ⟨id, inst, hi, hv⟩
  · rintro ⟨id, inst, hi, hv⟩
    refine ⟨id, List.mem_range.mpr (lt_size_of_inst? hi), ?_⟩
    rw [reading_of_inst? hi]
    exact hv

theorem reads_pos_iff : 0 < f.reads id ↔
    ∃ reader inst, f.inst? reader = some inst ∧ .inst id ∈ inst.kind.operands := by
  rw [reads, List.count_pos_iff, mem_slots]

/-- The value in a slot is read. -/
theorem reads_pos_of_operand? {slot : Nat} (hi : f.inst? id = some inst) {read : InstId}
    (ho : inst.kind.operand? slot = some (.inst read)) : 0 < f.reads read :=
  reads_pos_iff.mpr ⟨id, inst, hi, List.mem_of_getElem? ho⟩

theorem resolves_inst_iff : f.Resolves (.inst id) ↔ ∃ inst, f.inst? id = some inst := by
  constructor
  · intro h
    exact h id rfl
  · rintro ⟨inst, hi⟩ other he
    cases he
    exact ⟨inst, hi⟩

/-- What is read does not dangle exactly when it is there. -/
theorem closed_iff : f.Closed ↔ ∀ id, ¬ f.Dangles id := by
  constructor
  · rintro hf id ⟨hnone, hread⟩
    obtain ⟨reader, inst, hi, hv⟩ := reads_pos_iff.mp hread
    obtain ⟨read, hsome⟩ := hf reader inst hi _ hv id rfl
    rw [hnone] at hsome
    cases hsome
  · intro hf reader inst hi v hv id he
    cases hread : f.inst? id with
    | some read => exact ⟨read, rfl⟩
    | none => exact absurd ⟨hread, reads_pos_iff.mpr ⟨reader, inst, hi, he ▸ hv⟩⟩ (hf id)

/-- Whether all operands are there is decided on the slots. -/
theorem closed_iff_slots : f.Closed ↔ ∀ v ∈ f.slots, v.inst?.all fun id => (f.inst? id).isSome := by
  have hresolves : ∀ v, f.Resolves v ↔ v.inst?.all fun id => (f.inst? id).isSome := by
    intro v
    cases v with
    | inst id => simp [resolves_inst_iff, Value.inst?, Option.isSome_iff_exists]
    | _ => simp [Resolves, Value.inst?]
  constructor
  · intro hf v hv
    obtain ⟨id, inst, hi, hmem⟩ := mem_slots.mp hv
    exact (hresolves v).mp (hf id inst hi v hmem)
  · intro hall id inst hi v hv
    exact (hresolves v).mpr (hall v (mem_slots.mpr ⟨id, inst, hi, hv⟩))

instance (f : Func) : Decidable f.Closed :=
  decidable_of_iff _ closed_iff_slots.symm

/-- A number with a counter was given out. -/
theorem lt_size_of_useCount (h : 0 < f.useCount id) : id < f.cells.size := by
  rcases Nat.lt_or_ge id f.cells.size with hlt | hge
  · exact hlt
  · rw [useCount_eq_zero_of_size_le hge] at h
    exact absurd h (Nat.lt_irrefl 0)

/-- Exactness is decided on the numbers given out and on the slots that there are. -/
theorem exact_iff : f.Exact ↔ (∀ id, id < f.cells.size → f.useCount id = f.reads id) ∧
    ∀ v ∈ f.slots, v.inst?.all (· < f.cells.size) := by
  constructor
  · intro hf
    refine ⟨fun id _ => hf id, ?_⟩
    intro v hv
    rw [Option.all_eq_true]
    intro id hid
    obtain rfl := Value.inst?_eq_some_iff.mp hid
    apply decide_eq_true
    apply lt_size_of_useCount
    rw [hf id, reads]
    exact List.count_pos_iff.mpr hv
  · rintro ⟨hcount, hslots⟩ id
    rcases Nat.lt_or_ge id f.cells.size with hlt | hge
    · exact hcount id hlt
    · -- beyond the numbers given out nothing is counted, and nothing is read
      rw [useCount_eq_zero_of_size_le hge, eq_comm, reads, List.count_eq_zero]
      intro hmem
      exact absurd (of_decide_eq_true (hslots _ hmem)) (Nat.not_lt.mpr hge)

instance (f : Func) : Decidable f.Exact :=
  decidable_of_iff _ exact_iff.symm

/-! ## How the slots change -/

/-- An added instruction comes with its operands. -/
theorem slots_of_added (hsize : g.cells.size = f.cells.size + 1)
    (hinst : ∀ other, g.inst? other = if other = f.cells.size then some inst else f.inst? other) :
    g.slots = f.slots ++ inst.kind.operands := by
  have hnew : g.reading f.cells.size = inst.kind.operands := by
    apply reading_of_inst?
    rw [hinst, if_pos rfl]
  have hold : (List.range f.cells.size).flatMap g.reading = f.slots := by
    apply List.flatMap_congr
    intro other hother
    rw [reading, hinst, if_neg (Nat.ne_of_lt (List.mem_range.mp hother)), reading]
  rw [slots, hsize, List.range_succ, List.flatMap_append, hold, List.flatMap_singleton, hnew]

theorem reads_of_added (hsize : g.cells.size = f.cells.size + 1)
    (hinst : ∀ other, g.inst? other = if other = f.cells.size then some inst else f.inst? other)
    (id : InstId) : g.reads id = f.reads id + inst.kind.operands.count (.inst id) := by
  rw [reads, slots_of_added hsize hinst, List.count_append, reads]

/-- What all cells but one read is the same when only this one changes. -/
theorem slots_of_changed (hid : id < f.cells.size) (hsize : g.cells.size = f.cells.size)
    (hsame : ∀ other, other ≠ id → g.inst? other = f.inst? other) :
    ∃ rest, f.slots.Perm (f.reading id ++ rest) ∧ g.slots.Perm (g.reading id ++ rest) := by
  have hperm : (List.range f.cells.size).Perm (id :: (List.range f.cells.size).erase id) :=
    List.perm_cons_erase (List.mem_range.mpr hid)
  refine ⟨((List.range f.cells.size).erase id).flatMap f.reading, ?_, ?_⟩
  · rw [slots]
    exact hperm.flatMap_right f.reading
  · have hrest : ((List.range f.cells.size).erase id).flatMap g.reading =
        ((List.range f.cells.size).erase id).flatMap f.reading := by
      apply List.flatMap_congr
      intro other hother
      -- a number stands in the range once
      have hne : other ≠ id := (List.Nodup.mem_erase_iff List.nodup_range).mp hother |>.1
      rw [reading, hsame other hne, reading]
    rw [slots, hsize, ← hrest]
    exact hperm.flatMap_right g.reading

theorem reads_of_changed (hid : id < f.cells.size) (hsize : g.cells.size = f.cells.size)
    (hsame : ∀ other, other ≠ id → g.inst? other = f.inst? other) (read : InstId) :
    g.reads read + (f.reading id).count (.inst read) =
      f.reads read + (g.reading id).count (.inst read) := by
  obtain ⟨rest, hf, hg⟩ := slots_of_changed hid hsize hsame
  rw [reads, reads, hf.count_eq, hg.count_eq, List.count_append, List.count_append]
  omega

end Func

/-! ## What edits read -/

namespace Edit

variable {f g : Func} {id : InstId}

/-- A written slot reads what is written there, and no more what it held. -/
theorem reads_replaceOperand {slot : Nat} {old v : Value} {inst : Inst} {u : Unit}
    (h : (replaceOperand id slot v).run f = .ok u g) (hi : f.inst? id = some inst)
    (ho : inst.kind.operand? slot = some old) (read : InstId) :
    g.reads read + (if old = .inst read then 1 else 0) =
      f.reads read + (if v = .inst read then 1 else 0) := by
  obtain ⟨found, was, hfound, -, hsize, hinst⟩ := inst?_replaceOperand h
  cases hi.symm.trans hfound
  have hchange := reads_of_changed (g := g) (lt_size_of_inst? hi) hsize
    (fun other hne => by rw [hinst, if_neg hne]) read
  have hnow : g.reading id = inst.kind.operands.set slot v := by
    rw [reading, hinst, if_pos rfl, ← InstKind.operands_setOperand]
    rfl
  obtain ⟨hslot, hold⟩ := List.getElem?_eq_some_iff.mp ho
  rw [reading_of_inst? hi, hnow, List.count_set hslot, hold] at hchange
  -- the slot that is written is one of those that are counted
  have hcounted : old = .inst read → 0 < inst.kind.operands.count (.inst read) := by
    intro he
    rw [List.count_pos_iff, ← he, ← hold]
    exact List.getElem_mem hslot
  simp only [beq_iff_eq] at hchange
  by_cases he : old = .inst read
  · have := hcounted he
    simp only [he, if_true] at hchange ⊢
    omega
  · simp only [he, if_false] at hchange ⊢
    omega

/-- A source position reads nothing. -/
theorem reads_setLoc {loc : Option Loc} {u : Unit} (h : (setLoc id loc).run f = .ok u g)
    (read : InstId) : g.reads read = f.reads read := by
  obtain ⟨inst, hi, hsize, hinst⟩ := inst?_setLoc h
  have hchange := reads_of_changed (g := g) (lt_size_of_inst? hi) hsize
    (fun other hne => by rw [hinst, if_neg hne]) read
  have hnow : g.reading id = f.reading id := by
    rw [reading, hinst, if_pos rfl, reading_of_inst? hi]
    rfl
  rw [hnow] at hchange
  omega

/-- What is removed reads nothing any more. -/
theorem reads_erase {inst : Inst} {u : Unit} (h : (erase id).run f = .ok u g)
    (hi : f.inst? id = some inst) (read : InstId) :
    g.reads read + inst.kind.operands.count (.inst read) = f.reads read := by
  obtain ⟨hsize, hinst⟩ := inst?_erase h
  have hchange := reads_of_changed (g := g) (lt_size_of_inst? hi) hsize
    (fun other hne => by rw [hinst, if_neg hne]) read
  have hnow : g.reading id = [] := by
    rw [reading, hinst, if_pos rfl]
    rfl
  rw [reading_of_inst? hi, hnow, List.count_nil] at hchange
  exact hchange

end Edit

end Confinement
