import Confinement.Proofs.Landing
import Confinement.Proofs.Inversion
import Confinement.Proofs.Upkeep

/-!
# Rows of inserted instructions

What confining a slot inserts is a row of instructions directly in front of the access. Lists of blocks
are described by what becomes of each number in them: numbers are put before an anchor (`Func.Puts`),
or dropped (`Func.Drops`), and everything else stays, the name and the signature of the function
included. The rows themselves are known to the last detail: kind, type, block and source position of
each member (`Func.SumRow`, `Func.LandRow`).
-/

set_option autoImplicit false

namespace Confinement

open Func

/-! ## Name and signature -/

namespace Func

/-- What a caller sees of a function. -/
def interface (f : Func) : String × List Ty × Ty :=
  (f.name, f.params, f.ret)

section Frame

variable (f : Func) (v : Value) (vs : List Value) (id : InstId) (inst : Option Inst) (b : BlockId)
  (change : List InstId → List InstId) (new : Inst)

@[simp] theorem interface_countUse : (f.countUse v).interface = f.interface := by
  cases v <;> rfl

@[simp] theorem interface_uncountUse : (f.uncountUse v).interface = f.interface := by
  cases v <;> rfl

@[simp] theorem interface_countUses : (f.countUses vs).interface = f.interface := by
  induction vs generalizing f with
  | nil => rfl
  | cons v vs ih => exact (ih (f.countUse v)).trans (f.interface_countUse v)

@[simp] theorem interface_uncountUses : (f.uncountUses vs).interface = f.interface := by
  induction vs generalizing f with
  | nil => rfl
  | cons v vs ih => exact (ih (f.uncountUse v)).trans (f.interface_uncountUse v)

@[simp] theorem interface_setCell : (f.setCell id inst).interface = f.interface := rfl

@[simp] theorem interface_relist : (f.relist b change).interface = f.interface := rfl

@[simp] theorem interface_addCell : (f.addCell new).interface = f.interface := rfl

end Frame

end Func

/-! ## Lists with something put before an anchor -/

/-- What becomes of a number in a list when `ids` are put before `anchor`. -/
def putBefore (anchor : InstId) (ids : List InstId) (id : InstId) : List InstId :=
  if id = anchor then ids ++ [id] else [id]

section PutBefore

variable {anchor id : InstId} {ids more l : List InstId}

theorem flatMap_putBefore_of_not_mem (h : anchor ∉ l) : l.flatMap (putBefore anchor ids) = l := by
  induction l with
  | nil => rfl
  | cons x l ih =>
    rw [List.mem_cons, not_or] at h
    rw [List.flatMap_cons, ih h.2, putBefore, if_neg (Ne.symm h.1)]
    rfl

theorem flatMap_putBefore_nil : l.flatMap (putBefore anchor []) = l := by
  have hsingle : putBefore anchor [] = fun id => [id] := by
    funext id
    rw [putBefore]
    split <;> rfl
  rw [hsingle]
  exact List.flatMap_singleton' l

/-- Numbers that are put before an anchor one after the other are put there together. -/
theorem flatMap_putBefore_putBefore (h : anchor ∉ ids) :
    (l.flatMap (putBefore anchor ids)).flatMap (putBefore anchor more) =
      l.flatMap (putBefore anchor (ids ++ more)) := by
  rw [List.flatMap_assoc]
  congr 1
  funext id
  rw [putBefore, putBefore]
  split
  · next he =>
    subst he
    rw [List.flatMap_append, flatMap_putBefore_of_not_mem h, List.flatMap_singleton, putBefore,
      if_pos rfl, List.append_assoc]
  · next hne => rw [List.flatMap_singleton, putBefore, if_neg hne]

/-- Insertion at the place of an anchor, in a list that has it once. -/
theorem insertIdx_eq_flatMap {place : Nat} (honce : l.Nodup) (hplace : l.idxOf? anchor = some place) :
    l.insertIdx place id = l.flatMap (putBefore anchor [id]) := by
  induction l generalizing place with
  | nil => cases hplace
  | cons x l ih =>
    rw [List.nodup_cons] at honce
    rw [List.idxOf?_cons] at hplace
    by_cases hx : x = anchor
    · subst hx
      rw [if_pos (beq_self_eq_true x)] at hplace
      cases hplace
      rw [List.insertIdx_zero, List.flatMap_cons, flatMap_putBefore_of_not_mem honce.1, putBefore,
        if_pos rfl]
      rfl
    · rw [if_neg (by rwa [beq_iff_eq])] at hplace
      obtain ⟨before, hbefore, rfl⟩ := Option.map_eq_some_iff.mp hplace
      rw [List.insertIdx_succ_cons, ih honce.2 hbefore, List.flatMap_cons, putBefore, if_neg hx]
      rfl

/-- Removal at the place of a number, in a list that has it once. -/
theorem eraseIdx_eq_filter {place : Nat} (honce : l.Nodup) (hplace : l.idxOf? id = some place) :
    l.eraseIdx place = l.filter (· ∉ [id]) := by
  have herase : l.eraseIdx place = l.erase id := by
    rw [List.erase_eq_eraseIdx, hplace]
  rw [herase, honce.erase_eq_filter]
  apply List.filter_congr
  intro x _
  by_cases hx : x = id
  · simp [hx]
  · simp [hx]

end PutBefore

/-! ## Insertions -/

/-- `ids` are put before `anchor`, and nothing else changes. -/
structure Func.Puts (anchor : InstId) (ids : List InstId) (f g : Func) : Prop where
  interface : g.interface = f.interface
  size : f.cells.size ≤ g.cells.size
  placed : g.Placed
  insts : ∀ id, id < f.cells.size → g.inst? id = f.inst? id
  new : ∀ id ∈ ids, f.cells.size ≤ id ∧ id < g.cells.size
  lists : ∀ b, g.block? b = (f.block? b).map fun block =>
    { block with insts := block.insts.flatMap (putBefore anchor ids) }

namespace Func.Puts

variable {anchor : InstId} {ids more : List InstId} {f g h : Func} {kind : InstKind} {ty : Ty}
  {id : InstId} {inst : Inst}

theorem trans (hfg : Puts anchor ids f g) (hgh : Puts anchor more g h)
    (hanchor : anchor < f.cells.size) : Puts anchor (ids ++ more) f h where
  interface := hgh.interface.trans hfg.interface
  size := Nat.le_trans hfg.size hgh.size
  placed := hgh.placed
  insts := fun id hid => (hgh.insts id (Nat.lt_of_lt_of_le hid hfg.size)).trans (hfg.insts id hid)
  new := by
    intro id hid
    rcases List.mem_append.mp hid with hid | hid
    · obtain ⟨hle, hlt⟩ := hfg.new id hid
      exact ⟨hle, Nat.lt_of_lt_of_le hlt hgh.size⟩
    · obtain ⟨hle, hlt⟩ := hgh.new id hid
      exact ⟨Nat.le_trans hfg.size hle, hlt⟩
  lists := by
    intro b
    have hapart : anchor ∉ ids := fun hmem =>
      Nat.not_lt.mpr (hfg.new anchor hmem).1 hanchor
    rw [hgh.lists, hfg.lists, Option.map_map]
    congr 1
    funext block
    simp only [Function.comp_apply, flatMap_putBefore_putBefore hapart]

/-- One insertion, in the block of the anchor. -/
theorem one (hrun : (Edit.insertBefore anchor kind ty).run f = .ok id g) (hf : f.Placed)
    (hi : f.inst? anchor = some inst) :
    Puts anchor [id] f g ∧
      g.inst? id = some { kind, ty, block := inst.block, loc := none } := by
  have hplaced : g.Placed := Edit.left_of_ok hrun ▸ hf.apply (.insertBefore anchor kind ty)
  obtain ⟨hid, hsize, -, -⟩ := Edit.inst?_insertBefore hrun
  obtain ⟨b, place, hplace, -, hg⟩ := (Edit.insertBefore_serves f anchor kind ty).of_ok hrun
  obtain ⟨found, listed, hfound, hblock, hlisted, hidx⟩ := place?_eq_some hplace
  cases hi.symm.trans hfound
  have hinst : ∀ other, g.inst? other =
      if other = id then some { kind, ty, block := b, loc := none } else f.inst? other := by
    intro other
    rw [hg, hid, inst?_relist, inst?_addCell, size_countUses, inst?_countUses]
  refine ⟨{ interface := ?interface, size := by omega, placed := hplaced, insts := ?insts,
            new := ?new, lists := ?lists }, by rw [hinst, if_pos rfl, hblock]⟩
  case interface =>
    rw [hg]
    simp
  case insts =>
    intro other hother
    rw [hinst, if_neg (Nat.ne_of_lt (hid ▸ hother))]
  case new =>
    intro other hother
    rw [List.mem_singleton.mp hother, hid, hsize]
    exact ⟨Nat.le_refl _, Nat.lt_succ_self _⟩
  case lists =>
    intro other
    rw [hg, block?_relist, Edit.block?_numbered]
    cases hother : f.block? other with
    | none => rfl
    | some block =>
      rw [Option.map_some, Option.map_some]
      congr 1
      split
      · next he =>
        -- the block that lists the anchor
        subst he
        cases hlisted.symm.trans hother
        rw [← hid, insertIdx_eq_flatMap (hf.once b listed hlisted) hidx]
      · next hne =>
        -- an instruction is listed in its own block alone
        rw [flatMap_putBefore_of_not_mem]
        intro hmem
        obtain ⟨same, hsame, hother'⟩ := (hf.mem other block anchor hother).mp hmem
        cases hi.symm.trans hsame
        exact hne (hblock.symm.trans hother')

theorem inst?_eq_some (hfg : Puts anchor ids f g) (hi : f.inst? id = some inst) :
    g.inst? id = some inst :=
  (hfg.insts id (lt_size_of_inst? hi)).trans hi

end Func.Puts

/-! ## Removals -/

/-- `gone` are removed, and nothing else changes. -/
structure Func.Drops (gone : List InstId) (f g : Func) : Prop where
  interface : g.interface = f.interface
  size : g.cells.size = f.cells.size
  placed : g.Placed
  insts : ∀ id, g.inst? id = if id ∈ gone then none else f.inst? id
  lists : ∀ b, g.block? b = (f.block? b).map fun block =>
    { block with insts := block.insts.filter (· ∉ gone) }

namespace Func.Drops

variable {gone more : List InstId} {f g h : Func} {id : InstId} {u : Unit}

theorem nothing (hf : f.Placed) : Drops [] f f where
  interface := rfl
  size := rfl
  placed := hf
  insts := fun _ => rfl
  lists := by
    intro b
    simp

theorem trans (hfg : Drops gone f g) (hgh : Drops more g h) : Drops (gone ++ more) f h where
  interface := hgh.interface.trans hfg.interface
  size := hgh.size.trans hfg.size
  placed := hgh.placed
  insts := by
    intro id
    rw [hgh.insts, hfg.insts]
    simp only [List.mem_append]
    by_cases hmore : id ∈ more
    · simp [hmore]
    · simp [hmore]
  lists := by
    intro b
    rw [hgh.lists, hfg.lists, Option.map_map]
    congr 1
    funext block
    simp only [Function.comp_apply, List.filter_filter, List.mem_append, not_or,
      Bool.decide_and, Bool.and_comm]

/-- One removal. -/
theorem one (hrun : (Edit.erase id).run f = .ok u g) (hf : f.Placed) : Drops [id] f g := by
  have hplaced : g.Placed := Edit.left_of_ok hrun ▸ hf.apply (.erase id)
  obtain ⟨hsize, hinst⟩ := Edit.inst?_erase hrun
  obtain ⟨inst, b, place, -, hi, hplace, hg⟩ := (Edit.erase_serves f id).of_ok hrun
  obtain ⟨found, listed, hfound, hblock, hlisted, hidx⟩ := place?_eq_some hplace
  cases hi.symm.trans hfound
  refine { interface := ?interface, size := hsize, placed := hplaced, insts := ?insts,
           lists := ?lists }
  case interface =>
    rw [hg]
    simp
  case insts =>
    intro other
    simp only [hinst, List.mem_singleton]
  case lists =>
    intro other
    have hsame : g.block? other = (f.relist b (·.eraseIdx place)).block? other := by
      rw [hg, Func.block?, blocks_uncountUses]
      rfl
    rw [hsame, block?_relist]
    cases hother : f.block? other with
    | none => rfl
    | some block =>
      rw [Option.map_some, Option.map_some]
      congr 1
      split
      · next he =>
        subst he
        cases hlisted.symm.trans hother
        rw [eraseIdx_eq_filter (hf.once b listed hlisted) hidx]
      · next hne =>
        -- another block does not list what is removed
        have hkeep : block.insts.filter (· ∉ [id]) = block.insts := by
          rw [List.filter_eq_self]
          intro x hx
          rw [decide_eq_true_eq, List.mem_singleton]
          rintro rfl
          obtain ⟨same, hsame, hother'⟩ := (hf.mem other block x hother).mp hx
          cases hi.symm.trans hsame
          exact hne (hblock.symm.trans hother')
        rw [hkeep]

/-- What is read, or gone already, is left alone. -/
theorem eraseUnread {count : Nat} (hrun : (Edit.eraseUnread id).run f = .ok count g)
    (hf : f.Placed) : ∃ gone, gone ⊆ [id] ∧ Drops gone f g := by
  rcases Edit.eraseUnread_eq_ok hrun with ⟨-, rfl⟩ | ⟨-, herase⟩
  · exact ⟨[], List.nil_subset _, .nothing hf⟩
  · exact ⟨[id], List.Subset.refl _, .one herase hf⟩

/-- So are two. -/
theorem eraseUnread_two {other : InstId} {first second : Nat}
    (hrun : (Edit.eraseUnread id).run f = .ok first g)
    (hrun' : (Edit.eraseUnread other).run g = .ok second h) (hf : f.Placed) :
    ∃ gone, gone ⊆ [id, other] ∧ Drops gone f h := by
  obtain ⟨gone, hgone, hfg⟩ := eraseUnread hrun hf
  obtain ⟨more, hmore, hgh⟩ := eraseUnread hrun' hfg.placed
  exact ⟨gone ++ more, List.append_subset.mpr
    ⟨List.Subset.trans hgone (List.subset_append_left [id] [other]),
      List.Subset.trans hmore (List.subset_append_right [id] [other])⟩, hfg.trans hgh⟩

end Func.Drops

/-! ## Rows -/

/-- The number is `n` or higher and belongs to this instruction. -/
def Func.Added (g : Func) (n : Nat) (id : InstId) (inst : Inst) : Prop :=
  n ≤ id ∧ g.inst? id = some inst

/-- The live members of a row from number `n` on stay exactly as they are. -/
def Func.Fixes (n : Nat) (row : List InstId) (g h : Func) : Prop :=
  ∀ id inst, n ≤ id → id ∈ row → g.inst? id = some inst → h.inst? id = some inst

namespace Func

variable {f g h k : Func} {n : Nat} {id : InstId} {inst : Inst} {row part : List InstId}

theorem Fixes.trans (hgh : Fixes n row g h) (hhk : Fixes n row h k) : Fixes n row g k :=
  fun id inst hid hmem hi => hhk id inst hid hmem (hgh id inst hid hmem hi)

theorem Fixes.mono (hgh : Fixes n row g h) (hpart : part ⊆ row) : Fixes n part g h :=
  fun id inst hid hmem hi => hgh id inst hid (hpart hmem) hi

theorem Added.fix (ha : g.Added n id inst) (hfix : Fixes n row g h) (hmem : id ∈ row) :
    h.Added n id inst :=
  ⟨ha.1, hfix id inst ha.1 hmem ha.2⟩

theorem Added.put {anchor : InstId} {ids : List InstId} (ha : g.Added n id inst)
    (hgh : g.Puts anchor ids h) : h.Added n id inst :=
  ⟨ha.1, hgh.inst?_eq_some ha.2⟩

theorem Puts.fixes {anchor : InstId} {ids : List InstId} (hgh : g.Puts anchor ids h) (n : Nat)
    (row : List InstId) : Fixes n row g h :=
  fun _ _ _ _ hi => hgh.inst?_eq_some hi

variable (g : Func) (n : Nat) (width : Width) (b : BlockId)

/-- A row of block `b` computes the base plus what the width keeps of a 32-bit value; its last member
has the sum. -/
inductive SumRow (base : InstId) (low : Value) : List InstId → InstId → Prop
  | whole {wide sum : InstId} (hmask : width.mask? = none)
      (hwide : g.Added n wide ⟨.cast .zext low, .int 64, b, none⟩)
      (hsum : g.Added n sum ⟨.binary .add (.inst base) (.inst wide), .int 64, b, none⟩) :
      SumRow base low [wide, sum] sum
  | masked {mask : Nat} {kept wide sum : InstId} (hmask : width.mask? = some mask)
      (hkept : g.Added n kept ⟨.binary .and low (.int 32 mask), .int 32, b, none⟩)
      (hwide : g.Added n wide ⟨.cast .zext (.inst kept), .int 64, b, none⟩)
      (hsum : g.Added n sum ⟨.binary .add (.inst base) (.inst wide), .int 64, b, none⟩) :
      SumRow base low [kept, wide, sum] sum

/-- A row of block `b` computes a confined address of a type, which its last member has. Its members
have no source positions, but those that take the place of a folded addition and conversion of `f`
have theirs. -/
inductive LandRow (f g : Func) (width : Width) (b : BlockId) (base : InstId) (ty : Ty) :
    Landing → List InstId → InstId → Prop
  | plain {address : Value} {low sum pointer : InstId} {row : List InstId}
      (hlow : g.Added f.cells.size low ⟨.cast .ptrtoint address, .int 32, b, none⟩)
      (hsum : g.SumRow f.cells.size width b base (.inst low) row sum)
      (hpointer : g.Added f.cells.size pointer ⟨.cast .inttoptr (.inst sum), ty, b, none⟩) :
      LandRow f g width b base ty (.plain address) (low :: row ++ [pointer]) pointer
  | folded {fold : Fold} {sum total pointer : InstId} {row : List InstId}
      (hsum : g.SumRow f.cells.size width b base fold.index row sum)
      (htotal : g.Added f.cells.size total ⟨.binary .add (.inst sum) (.int 64 fold.offset), .int 64,
        b, (f.inst? fold.add).bind (·.loc)⟩)
      (hpointer : g.Added f.cells.size pointer ⟨.cast .inttoptr (.inst total), ty,
        b, (f.inst? fold.cast).bind (·.loc)⟩) :
      LandRow f g width b base ty (.folded fold) (row ++ [total, pointer]) pointer

end Func

namespace Func

variable {f g h : Func} {n : Nat} {width : Width} {b : BlockId} {base sum pointer anchor id : InstId}
  {low address : Value} {row : List InstId} {ty : Ty} {landing : Landing} {inst : Inst}

theorem SumRow.fix (hs : g.SumRow n width b base low row sum) (hfix : Fixes n row g h) :
    h.SumRow n width b base low row sum := by
  cases hs with
  | whole hmask hwide hsum =>
    exact .whole hmask (hwide.fix hfix (by simp)) (hsum.fix hfix (by simp))
  | masked hmask hkept hwide hsum =>
    exact .masked hmask (hkept.fix hfix (by simp)) (hwide.fix hfix (by simp))
      (hsum.fix hfix (by simp))

theorem LandRow.fix (hl : f.LandRow g width b base ty landing row pointer)
    (hfix : Fixes f.cells.size row g h) : f.LandRow h width b base ty landing row pointer := by
  cases hl with
  | plain hlow hsum hpointer =>
    exact .plain (hlow.fix hfix (by simp)) (hsum.fix (hfix.mono fun x hx => by simp [hx]))
      (hpointer.fix hfix (by simp))
  | folded hsum htotal hpointer =>
    exact .folded (hsum.fix (hfix.mono fun x hx => by simp [hx])) (htotal.fix hfix (by simp))
      (hpointer.fix hfix (by simp))

theorem LandRow.getLast? (hl : f.LandRow g width b base ty landing row pointer) :
    row.getLast? = some pointer := by
  cases hl with
  | plain => exact List.getLast?_concat
  | folded =>
    rw [List.getLast?_append]
    rfl

/-- One insertion gives the anchor a member of a row. -/
theorem puts_insertBefore {kind : InstKind} (hrun : (Edit.insertBefore anchor kind ty).run g = .ok id h)
    (hg : g.Placed) (hi : g.inst? anchor = some inst) (hn : n ≤ g.cells.size) :
    g.Puts anchor [id] h ∧ h.Added n id ⟨kind, ty, inst.block, none⟩ := by
  obtain ⟨hput, hid⟩ := Puts.one hrun hg hi
  exact ⟨hput, Nat.le_trans hn (hput.new id List.mem_cons_self).1, hid⟩

/-- The instructions for the sum of the base and a value form a row. -/
theorem puts_emitSum (hrun : (Edit.emitSum width base anchor low).run g = .ok sum h) (hg : g.Placed)
    (hi : g.inst? anchor = some inst) (hn : n ≤ g.cells.size) :
    ∃ row, g.Puts anchor row h ∧ h.SumRow n width inst.block base low row sum := by
  obtain ⟨kept, mid, wide, last, hkept, hwide, hsum⟩ := Edit.emitSum_eq_ok hrun
  have hlt := lt_size_of_inst? hi
  rcases hkept with ⟨hmask, rfl, rfl⟩ | ⟨mask, masked, hmask, rfl, hand⟩
  · obtain ⟨hput, hwide⟩ := puts_insertBefore hwide hg hi hn
    obtain ⟨hput', hsum⟩ := puts_insertBefore hsum hput.placed (hput.inst?_eq_some hi)
      (Nat.le_trans hn hput.size)
    exact ⟨_, hput.trans hput' hlt,
      .whole hmask (hwide.put hput') hsum⟩
  · obtain ⟨hput, hmasked⟩ := puts_insertBefore hand hg hi hn
    obtain ⟨hput', hwide⟩ := puts_insertBefore hwide hput.placed (hput.inst?_eq_some hi)
      (Nat.le_trans hn hput.size)
    have hboth := hput.trans hput' hlt
    obtain ⟨hput'', hsum⟩ := puts_insertBefore hsum hboth.placed (hboth.inst?_eq_some hi)
      (Nat.le_trans hn hboth.size)
    exact ⟨_, hboth.trans hput'' hlt, .masked hmask
      ((hmasked.put hput').put hput'') (hwide.put hput'') hsum⟩

/-- So do those for an address. -/
theorem puts_emitPlain (hrun : (Edit.emitPlain width base anchor address ty).run g = .ok pointer h)
    (hg : g.Placed) (hi : g.inst? anchor = some inst) (hn : f.cells.size ≤ g.cells.size) :
    ∃ row, g.Puts anchor row h ∧
      f.LandRow h width inst.block base ty (.plain address) row pointer := by
  obtain ⟨low, mid, sum, last, hlow, hsum, hcast⟩ := Edit.emitPlain_eq_ok hrun
  have hlt := lt_size_of_inst? hi
  obtain ⟨hput, hlow⟩ := puts_insertBefore hlow hg hi hn
  obtain ⟨row, hput', hsum⟩ := puts_emitSum hsum hput.placed (hput.inst?_eq_some hi)
    (Nat.le_trans hn hput.size)
  have hboth := hput.trans hput' hlt
  obtain ⟨hput'', hcast⟩ := puts_insertBefore hcast hboth.placed (hboth.inst?_eq_some hi)
    (Nat.le_trans hn hboth.size)
  exact ⟨_, hboth.trans hput'' hlt,
    .plain ((hlow.put hput').put hput'') (hsum.fix (hput''.fixes _ _)) hcast⟩

/-- And those for a folded address, which have no source positions yet. -/
theorem puts_emitFolded {fold : Fold} {successors : Edit.Successors}
    (hrun : (Edit.emitFolded width base anchor fold ty).run g = .ok successors h) (hg : g.Placed)
    (hi : g.inst? anchor = some inst) (hn : n ≤ g.cells.size) :
    ∃ row sum, g.Puts anchor (row ++ [successors.add, successors.cast]) h ∧
      (∀ member ∈ row, member < successors.add) ∧ successors.add < successors.cast ∧
      h.SumRow n width inst.block base fold.index row sum ∧
      h.Added n successors.add
        ⟨.binary .add (.inst sum) (.int 64 fold.offset), .int 64, inst.block, none⟩ ∧
      h.Added n successors.cast
        ⟨.cast .inttoptr (.inst successors.add), ty, inst.block, none⟩ := by
  obtain ⟨sum, mid, last, hsum, hadd, hcast⟩ := Edit.emitFolded_eq_ok hrun
  have hlt := lt_size_of_inst? hi
  obtain ⟨row, hput, hsum⟩ := puts_emitSum hsum hg hi hn
  obtain ⟨hput', hadd⟩ := puts_insertBefore hadd hput.placed (hput.inst?_eq_some hi)
    (Nat.le_trans hn hput.size)
  have hboth := hput.trans hput' hlt
  obtain ⟨hput'', hcast⟩ := puts_insertBefore hcast hboth.placed (hboth.inst?_eq_some hi)
    (Nat.le_trans hn hboth.size)
  -- numbers are given out in the order of the insertions
  obtain ⟨hnew, hbefore⟩ := hput'.new successors.add List.mem_cons_self
  have hrow : ∀ member ∈ row, member < successors.add := fun member hmember =>
    Nat.lt_of_lt_of_le (hput.new member hmember).2 hnew
  have hall := hboth.trans hput'' hlt
  rw [List.append_assoc] at hall
  exact ⟨row, sum, hall, hrow,
    Nat.lt_of_lt_of_le hbefore (hput''.new successors.cast List.mem_cons_self).1,
    hsum.fix ((hput'.fixes n _).trans (hput''.fixes n _)), hadd.put hput'', hcast⟩

end Func

end Confinement
