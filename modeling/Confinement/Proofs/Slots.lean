import Confinement.Proofs.Rewriting
import Confinement.Proofs.Rows
import Confinement.Proofs.Typing

/-!
# What confining a slot makes of a function

Confining one slot of an access puts a row before the access, makes the slot read the last member of
the row, and may remove the two parts of a fold. That is all: every other instruction is what it was,
and so is every other number in the lists of the blocks (`Func.Rewrites`). Each way of confining a slot
is such a rewriting, by a row of its own shape (`Func.rewrites_plain`, `Func.rewrites_folded`,
`Func.rewrites_length`).
-/

set_option autoImplicit false

namespace Confinement

open Func

/-! ## Slots that are written one after the other -/

namespace InstKind

/-- The instruction with values written into slots, one after the other. -/
def setOperands (kind : InstKind) (writes : List (Nat × Value)) : InstKind :=
  writes.foldl (fun kind write => kind.setOperand write.1 write.2) kind

variable {kind : InstKind} {writes : List (Nat × Value)} {slot : Nat} {v : Value}

theorem setOperands_append (kind : InstKind) (writes more : List (Nat × Value)) :
    kind.setOperands (writes ++ more) = (kind.setOperands writes).setOperands more :=
  List.foldl_append

@[simp] theorem access?_setOperands (kind : InstKind) (writes : List (Nat × Value)) :
    (kind.setOperands writes).access? = kind.access? := by
  induction writes generalizing kind with
  | nil => rfl
  | cons write writes ih => exact (ih _).trans (access?_setOperand kind write.1 write.2)

@[simp] theorem length_operands_setOperands (kind : InstKind) (writes : List (Nat × Value)) :
    (kind.setOperands writes).operands.length = kind.operands.length := by
  induction writes generalizing kind with
  | nil => rfl
  | cons write writes ih => exact (ih _).trans (length_operands_setOperand kind write.1 write.2)

/-- A slot that held something holds something. -/
theorem exists_operand?_setOperands {v : Value} (h : kind.operand? slot = some v)
    (writes : List (Nat × Value)) : ∃ new, (kind.setOperands writes).operand? slot = some new := by
  have hlt : slot < (kind.setOperands writes).operands.length := by
    rw [length_operands_setOperands]
    exact (List.getElem?_eq_some_iff.mp h).1
  exact ⟨_, List.getElem?_eq_getElem hlt⟩

/-- A slot that is not written holds what it held. -/
theorem operand?_setOperands_of_not_mem (h : slot ∉ writes.map (·.1)) :
    (kind.setOperands writes).operand? slot = kind.operand? slot := by
  induction writes generalizing kind with
  | nil => rfl
  | cons write writes ih =>
    rw [List.map_cons, List.mem_cons, not_or] at h
    exact (ih h.2).trans (operand?_setOperand_of_ne write.2 h.1)

/-- A slot holds what it held, or what was written into it. -/
theorem operand?_setOperands (h : (kind.setOperands writes).operand? slot = some v) :
    kind.operand? slot = some v ∨ (slot, v) ∈ writes := by
  induction writes generalizing kind with
  | nil => exact Or.inl h
  | cons write writes ih =>
    rcases ih h with hheld | hmem
    · by_cases hs : slot = write.1
      · subst hs
        have hlt : write.1 < kind.operands.length := by
          rw [← length_operands_setOperand kind write.1 write.2]
          exact (List.getElem?_eq_some_iff.mp hheld).1
        rw [operand?_setOperand_self write.2 hlt] at hheld
        cases hheld
        exact Or.inr List.mem_cons_self
      · rw [operand?_setOperand_of_ne write.2 hs] at hheld
        exact Or.inl hheld
    · exact Or.inr (List.mem_cons_of_mem write hmem)

end InstKind

/-- What a slot is made to read when a row was put before its access: the last member. -/
def rowWrites (slot : Nat) (row : List InstId) : List (Nat × Value) :=
  row.getLast?.toList.map fun last => (slot, .inst last)

theorem rowWrites_of_last {slot : Nat} {row : List InstId} {last : InstId}
    (h : row.getLast? = some last) : rowWrites slot row = [(slot, .inst last)] := by
  rw [rowWrites, h]
  rfl

/-! ## Rewritings -/

/-- `row` is put before `id`, whose slot reads the last member from then on, and `gone` are removed;
nothing else changes. -/
structure Func.Rewrites (id : InstId) (slot : Nat) (row gone : List InstId) (f g : Func) :
    Prop where
  interface : g.interface = f.interface
  size : f.cells.size ≤ g.cells.size
  placed : g.Placed
  self : ∀ inst, f.inst? id = some inst →
    g.inst? id = some { inst with kind := inst.kind.setOperands (rowWrites slot row) }
  others : ∀ other, other < f.cells.size → other ≠ id →
    g.inst? other = if other ∈ gone then none else f.inst? other
  new : ∀ member ∈ row, f.cells.size ≤ member
  lists : ∀ b, g.block? b = (f.block? b).map fun block =>
    { block with insts := (block.insts.flatMap (putBefore id row)).filter (· ∉ gone) }

namespace Func

variable {f g h k : Func} {id last : InstId} {slot : Nat} {row gone : List InstId} {inst : Inst}
  {u : Unit}

/-- Nothing is rewritten. -/
theorem Rewrites.nothing (hf : f.Placed) : Rewrites id slot [] [] f f where
  interface := rfl
  size := Nat.le_refl _
  placed := hf
  self := fun _ hi => hi
  others := fun _ _ _ => rfl
  new := fun _ h => absurd h List.not_mem_nil
  lists := by
    intro b
    simp [flatMap_putBefore_nil]

/-- A row is put before an access, and its last member is read. -/
theorem Rewrites.of_puts (hput : f.Puts id row g) (hlast : row.getLast? = some last)
    (hrun : (Edit.replaceOperand id slot (.inst last)).run g = .ok u h) (hid : id < f.cells.size) :
    f.Rewrites id slot row [] h ∧ ∀ other, other ≠ id → h.inst? other = g.inst? other := by
  have hplaced : h.Placed :=
    Edit.left_of_ok hrun ▸ hput.placed.apply (.replaceOperand id slot (.inst last))
  obtain ⟨inst, old, hi, -, hsize, hinst⟩ := Edit.inst?_replaceOperand hrun
  obtain ⟨_, _, -, -, hh⟩ := (Edit.replaceOperand_serves g id slot (.inst last)).of_ok hrun
  have hother : ∀ other, other ≠ id → h.inst? other = g.inst? other := by
    intro other hne
    rw [hinst, if_neg hne]
  refine ⟨{ interface := ?interface, size := hsize ▸ hput.size, placed := hplaced, self := ?self,
            others := ?others, new := fun member hm => (hput.new member hm).1, lists := ?lists },
    hother⟩
  case interface =>
    rw [hh, ← hput.interface]
    simp
  case self =>
    intro first hfirst
    rw [hput.insts id hid] at hi
    cases hfirst.symm.trans hi
    rw [hinst, if_pos rfl, rowWrites_of_last hlast]
    rfl
  case others =>
    intro other hlt hne
    rw [hother other hne, hput.insts other hlt, if_neg List.not_mem_nil]
  case lists =>
    intro b
    have hsame : h.block? b = g.block? b := by
      rw [hh, Func.block?, blocks_countUse, blocks_uncountUse]
      rfl
    rw [hsame, hput.lists]
    simp

/-- A member of the row is given a source position. -/
theorem Rewrites.setLoc {loc : Option Loc} {x : InstId} (hg : f.Rewrites id slot row gone g)
    (hrun : (Edit.setLoc x loc).run g = .ok u h) (hx : f.cells.size ≤ x) (hid : id < f.cells.size) :
    f.Rewrites id slot row gone h := by
  have hplaced : h.Placed := Edit.left_of_ok hrun ▸ hg.placed.apply (.setLoc x loc)
  obtain ⟨inst, hi, hsize, hinst⟩ := Edit.inst?_setLoc hrun
  obtain ⟨_, -, hh⟩ := (Edit.setLoc_serves g x loc).of_ok hrun
  have hearly : ∀ other, other < f.cells.size → h.inst? other = g.inst? other := by
    intro other hlt
    rw [hinst, if_neg (Nat.ne_of_lt (Nat.lt_of_lt_of_le hlt hx))]
  refine { interface := ?interface, size := hsize ▸ hg.size, placed := hplaced, self := ?self,
           others := ?others, new := hg.new, lists := ?lists }
  case interface =>
    rw [hh, ← hg.interface]
    simp
  case self =>
    intro first hfirst
    rw [hearly id hid]
    exact hg.self first hfirst
  case others =>
    intro other hlt hne
    rw [hearly other hlt]
    exact hg.others other hlt hne
  case lists =>
    intro b
    have hsame : h.block? b = g.block? b := by
      rw [hh]
      rfl
    rw [hsame, hg.lists]

/-- Instructions that were there are removed. -/
theorem Rewrites.drops (hg : f.Rewrites id slot row [] g) (hgh : g.Drops gone h)
    (hid : id ∉ gone) : f.Rewrites id slot row gone h where
  interface := hgh.interface.trans hg.interface
  size := hgh.size ▸ hg.size
  placed := hgh.placed
  self := by
    intro first hfirst
    rw [hgh.insts, if_neg hid]
    exact hg.self first hfirst
  others := by
    intro other hlt hne
    rw [hgh.insts, hg.others other hlt hne, if_neg List.not_mem_nil]
  new := hg.new
  lists := by
    intro b
    rw [hgh.lists, hg.lists, Option.map_map]
    congr 1
    funext block
    simp

/-- The instructions that were there are what a rewriting makes of them. -/
structure Revises (id : InstId) (slot : Nat) (row gone : List InstId) (f g : Func) : Prop where
  self : ∀ inst, f.inst? id = some inst →
    g.inst? id = some { inst with kind := inst.kind.setOperands (rowWrites slot row) }
  others : ∀ other, other < f.cells.size → other ≠ id →
    g.inst? other = if other ∈ gone then none else f.inst? other

/-- A rewriting revises also what there was before other instructions came in. -/
theorem Rewrites.revises (hg : g.Rewrites id slot row gone h) (hsize : f.cells.size ≤ g.cells.size)
    (hsame : ∀ other, other < f.cells.size → g.inst? other = f.inst? other) :
    f.Revises id slot row gone h where
  self := fun inst hi => hg.self inst ((hsame id (lt_size_of_inst? hi)).trans hi)
  others := fun other hlt hne => by
    rw [hg.others other (Nat.lt_of_lt_of_le hlt hsize) hne, hsame other hlt]

/-- What was read is still read, unless the slot that is written held it or something that is gone
read it. -/
theorem Revises.reads_pos {x : InstId} (hg : f.Revises id slot row gone g) (hread : 0 < f.reads x) :
    (∃ inst last, f.inst? id = some inst ∧ inst.kind.operand? slot = some (.inst x) ∧
      row.getLast? = some last) ∨
    (∃ part inst, part ∈ gone ∧ f.inst? part = some inst ∧ .inst x ∈ inst.kind.operands) ∨
    0 < g.reads x := by
  obtain ⟨reader, inst, hi, hmem⟩ := reads_pos_iff.mp hread
  by_cases he : reader = id
  · subst he
    obtain ⟨index, ho⟩ := List.getElem?_of_mem hmem
    by_cases hwritten : index ∈ (rowWrites slot row).map (·.1)
    · obtain ⟨write, hwrite, rfl⟩ := List.mem_map.mp hwritten
      obtain ⟨last, hlast, rfl⟩ := List.mem_map.mp hwrite
      exact Or.inl ⟨inst, last, hi, ho, Option.mem_toList.mp hlast⟩
    · -- another slot of the access
      have hheld : (inst.kind.setOperands (rowWrites slot row)).operand? index = some (.inst x) :=
        (InstKind.operand?_setOperands_of_not_mem hwritten).trans ho
      exact Or.inr (Or.inr (reads_pos_of_operand? (hg.self inst hi) hheld))
  · have hother := hg.others reader (lt_size_of_inst? hi) he
    by_cases hgone : reader ∈ gone
    · exact Or.inr (Or.inl ⟨reader, inst, hgone, hi, hmem⟩)
    · rw [if_neg hgone, hi] at hother
      exact Or.inr (Or.inr (reads_pos_iff.mpr ⟨reader, inst, hother, hmem⟩))

end Func

/-! ## The ways of confining a slot -/

namespace Func

variable {f g h k : Func} {width : Width} {base id pointer : InstId} {slot : Nat} {inst : Inst}
  {address : Value} {ty : Ty}

/-- A slot is given a plain address. -/
theorem rewrites_plain
    (hemit : (Edit.emitPlain width base id address ty).run g = .ok pointer h)
    (hreplace : (Edit.replaceOperand id slot (.inst pointer)).run h = .ok () k) (hg : g.Placed)
    (hi : g.inst? id = some inst) (hn : f.cells.size ≤ g.cells.size) (hid : id < f.cells.size) :
    ∃ row, g.Rewrites id slot row [] k ∧
      f.LandRow k width inst.block base ty (.plain address) row pointer := by
  obtain ⟨row, hput, hrow⟩ := puts_emitPlain hemit hg hi hn
  obtain ⟨hrewrites, hother⟩ :=
    Rewrites.of_puts hput hrow.getLast? hreplace (lt_size_of_inst? hi)
  refine ⟨row, hrewrites, hrow.fix fun other inst hle _ hother' => ?_⟩
  rw [hother other (Nat.ne_of_gt (Nat.lt_of_lt_of_le hid hle))]
  exact hother'

/-- The row of a folded address is complete when the source positions have been handed on. -/
theorem LandRow.of_setLoc {fold : Fold} {row : List InstId} {sum add cast : InstId} {b : BlockId}
    {u u' : Unit} (hadds : (Edit.setLoc add ((f.inst? fold.add).bind (·.loc))).run g = .ok u h)
    (hcasts : (Edit.setLoc cast ((f.inst? fold.cast).bind (·.loc))).run h = .ok u' k)
    (hsum : g.SumRow f.cells.size width b base fold.index row sum)
    (hadd : g.Added f.cells.size add
      ⟨.binary .add (.inst sum) (.int 64 fold.offset), .int 64, b, none⟩)
    (hcast : g.Added f.cells.size cast ⟨.cast .inttoptr (.inst add), ty, b, none⟩)
    (hbefore : ∀ member ∈ row, member < add) (hlt : add < cast) :
    f.LandRow k width b base ty (.folded fold) (row ++ [add, cast]) cast := by
  obtain ⟨addInst, hi₁, -, hinst₁⟩ := Edit.inst?_setLoc hadds
  obtain ⟨castInst, hi₂, -, hinst₂⟩ := Edit.inst?_setLoc hcasts
  cases hi₁.symm.trans hadd.2
  rw [hinst₁, if_neg (Nat.ne_of_gt hlt)] at hi₂
  cases hi₂.symm.trans hcast.2
  refine .folded (hsum.fix ?_) ⟨hadd.1, ?_⟩ ⟨hcast.1, ?_⟩
  · intro x found _ hmem hx
    have hx' := hbefore x hmem
    rw [hinst₂, if_neg (Nat.ne_of_lt (Nat.lt_trans hx' hlt)), hinst₁, if_neg (Nat.ne_of_lt hx')]
    exact hx
  · rw [hinst₂, if_neg (Nat.ne_of_lt hlt), hinst₁, if_pos rfl]
  · rw [hinst₂, if_pos rfl]

/-- A slot is given a folded address, and the fold is retired. -/
theorem rewrites_folded {fold : Fold} {successors : Edit.Successors} {l : Func} {removed : Nat}
    (hemit : (Edit.emitFolded width base id fold ty).run g = .ok successors h)
    (hreplace : (Edit.replaceOperand id slot (.inst successors.cast)).run h = .ok () k)
    (hretire : (Edit.retire fold successors).run k = .ok removed l) (hg : g.Placed)
    (hi : g.inst? id = some inst) (hn : f.cells.size ≤ g.cells.size) (hid : id < f.cells.size)
    (hcast : fold.cast < f.cells.size) (hadd : fold.add < f.cells.size)
    (hcastNe : fold.cast ≠ id) (haddNe : fold.add ≠ id)
    (hcastLoc : (g.inst? fold.cast).bind (·.loc) = (f.inst? fold.cast).bind (·.loc))
    (haddLoc : (g.inst? fold.add).bind (·.loc) = (f.inst? fold.add).bind (·.loc)) :
    ∃ row gone, gone ⊆ [fold.cast, fold.add] ∧ g.Rewrites id slot row gone l ∧
      f.LandRow l width inst.block base ty (.folded fold) row successors.cast := by
  obtain ⟨row, sum, hput, hbefore, hlt, hsum, hnewAdd, hnewCast⟩ :=
    puts_emitFolded (n := f.cells.size) hemit hg hi hn
  have hlast : (row ++ [successors.add, successors.cast]).getLast? = some successors.cast := by
    rw [List.getLast?_append]
    rfl
  have hid' := lt_size_of_inst? hi
  obtain ⟨hk, hother⟩ := Rewrites.of_puts hput hlast hreplace hid'
  have hfix : ∀ row, Fixes f.cells.size row h k := fun row x found hle _ hx => by
    rw [hother x (Nat.ne_of_gt (Nat.lt_of_lt_of_le hid hle))]
    exact hx
  -- the parts of the fold are as they were when the positions are handed on
  have hpart : ∀ part, part < f.cells.size → part ≠ id → k.inst? part = g.inst? part := by
    intro part hpart hne
    rw [hother part hne, hput.insts part (Nat.lt_of_lt_of_le hpart hn)]
  obtain ⟨k₁, k₂, k₃, casts, adds, hrun₁, hrun₂, hrun₃, hrun₄, -⟩ := Edit.retire_eq_ok hretire
  rw [hpart fold.add hadd haddNe, haddLoc] at hrun₁
  rw [hpart fold.cast hcast hcastNe, hcastLoc] at hrun₂
  have hk₂ := (hk.setLoc hrun₁ (hk.new _ (by simp)) hid').setLoc hrun₂ (hk.new _ (by simp)) hid'
  obtain ⟨gone, hgone, hdrop⟩ := Drops.eraseUnread_two hrun₃ hrun₄ hk₂.placed
  -- what is removed has a number of the body, and is not the access
  have hgoneLt : ∀ x ∈ gone, x < f.cells.size ∧ x ≠ id := by
    intro x hx
    rcases List.mem_cons.mp (hgone hx) with rfl | hx
    · exact ⟨hcast, hcastNe⟩
    · rw [List.mem_singleton.mp hx]
      exact ⟨hadd, haddNe⟩
  have hrow := LandRow.of_setLoc (f := f) hrun₁ hrun₂ (hsum.fix (hfix _))
    (hnewAdd.fix (hfix [successors.add]) List.mem_cons_self)
    (hnewCast.fix (hfix [successors.cast]) List.mem_cons_self) hbefore hlt
  refine ⟨_, gone, hgone, hk₂.drops hdrop fun hmem => (hgoneLt id hmem).2 rfl,
    hrow.fix fun x found hle _ hx => ?_⟩
  rw [hdrop.insts, if_neg, hx]
  exact fun hmem => Nat.not_lt.mpr hle (hgoneLt x hmem).1

/-- A row of block `b` masks a length as far as the width asks for it. -/
inductive CapRow (f g : Func) (symbols : SymbolTable) (width : Width) (b : BlockId)
    (length : Value) : List InstId → Prop
  | whole (hmask : width.mask? = none) : CapRow f g symbols width b length []
  | masked {mask bits : Nat} {kept : InstId} (hmask : width.mask? = some mask)
      (hty : f.HasType symbols length (.int bits))
      (hkept : g.Added f.cells.size kept
        ⟨.binary .and length (.int bits mask), .int bits, b, none⟩) :
      CapRow f g symbols width b length [kept]

theorem CapRow.fix {symbols : SymbolTable} {b : BlockId} {length : Value} {row : List InstId}
    (hc : f.CapRow g symbols width b length row) (hfix : Fixes f.cells.size row g h) :
    f.CapRow h symbols width b length row := by
  cases hc with
  | whole hmask => exact .whole hmask
  | masked hmask hty hkept => exact .masked hmask hty (hkept.fix hfix List.mem_cons_self)

/-- A length is masked, or left alone. -/
theorem rewrites_length {cx : Context} {masked : Bool} {length : Value}
    (hrun : (Edit.confineLength cx id slot).run g = .ok masked k) (hg : g.Placed)
    (hi : g.inst? id = some inst) (ho : inst.kind.operand? slot = some length)
    (hn : f.cells.size ≤ g.cells.size) (hid : id < f.cells.size)
    (hty : ∀ bits, g.HasType cx.symbols length (.int bits) →
      f.HasType cx.symbols length (.int bits)) :
    ∃ row, g.Rewrites id slot row [] k ∧
      f.CapRow k cx.symbols cx.region.width inst.block length row := by
  rcases Edit.confineLength_eq_ok hrun with ⟨hmask, -, rfl⟩ |
    ⟨mask, found, bits, kept, mid, hmask, -, hfound, hbits, hinsert, hreplace⟩
  · exact ⟨[], .nothing hg, .whole hmask⟩
  · rw [operand?_eq hi] at hfound
    cases ho.symm.trans hfound
    obtain ⟨hput, hkept⟩ := puts_insertBefore hinsert hg hi hn
    obtain ⟨hrewrites, hother⟩ := Rewrites.of_puts hput rfl hreplace (lt_size_of_inst? hi)
    refine ⟨[kept], hrewrites, .masked hmask (hty bits hbits) ⟨hkept.1, ?_⟩⟩
    rw [hother kept (Nat.ne_of_gt (Nat.lt_of_lt_of_le hid hkept.1))]
    exact hkept.2

end Func

end Confinement
