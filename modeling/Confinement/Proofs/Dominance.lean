import Confinement.Proofs.Confined
import Confinement.Proofs.Logs
import Mathlib.Data.List.Flatten

/-!
# Definitions before uses

With a partial order of the blocks in which the entry comes first, an instruction precedes what stands
behind it in its block and everything in later blocks (`Func.Precedes`). A function is dominated when
every instruction that an instruction reads precedes it, `phi` apart (`Func.Dominated`).

Confinement keeps a function dominated (`Edit.confineBody_dominated`). A row reads its own members in
the order in which they stand, the base, which precedes everything, and one value of the body
(`Emission.Stands.reads`). What a fold reads was read by the addition, which the conversion read, which
the access read, so it precedes the access and with it the row (`Func.precedes_of_fold?`).
-/

set_option autoImplicit false

namespace Confinement

open Func

/-! ## What stands before what -/

/-- Does the instruction choose by the block from which control came? -/
def InstKind.isPhi : InstKind → Bool
  | .phi _ => true
  | _ => false

theorem InstKind.isPhi_setOperand (kind : InstKind) (slot : Nat) (v : Value) :
    (kind.setOperand slot v).isPhi = kind.isPhi := by
  unfold setOperand
  split
  all_goals first
    | rfl
    | (split <;> rfl)

theorem InstKind.isPhi_setOperands (kind : InstKind) (writes : List (Nat × Value)) :
    (kind.setOperands writes).isPhi = kind.isPhi := by
  induction writes generalizing kind with
  | nil => rfl
  | cons write writes ih => exact (ih _).trans (kind.isPhi_setOperand write.1 write.2)

/-- An access is no choice. -/
theorem InstKind.isPhi_of_access {kind : InstKind} (h : kind.access? ≠ none) :
    kind.isPhi = false := by
  cases kind with
  | phi incoming => exact absurd rfl h
  | _ => rfl

namespace Func

/-- The instructions that a block lists; none if there is no such block. -/
def listed (f : Func) (b : BlockId) : List InstId :=
  ((f.block? b).map (·.insts)).getD []

/-- A partial order of the blocks of a function in which the entry comes first. -/
structure BlockOrder (f : Func) (le : BlockId → BlockId → Prop) : Prop where
  refl : ∀ b, b < f.blocks.length → le b b
  antisymm : ∀ b c, b < f.blocks.length → c < f.blocks.length → le b c → le c b → b = c
  trans : ∀ b c d, b < f.blocks.length → c < f.blocks.length → d < f.blocks.length →
    le b c → le c d → le b d
  entry : ∀ b, b < f.blocks.length → le 0 b

/-- One instruction stands earlier than another in the same block, or in a strictly smaller block. -/
inductive Precedes (f : Func) (le : BlockId → BlockId → Prop) (x id : InstId) : Prop
  | within {b : BlockId} (h : [x, id].Sublist (f.listed b))
  | across {b c : BlockId} (hx : x ∈ f.listed b) (hid : id ∈ f.listed c) (hle : le b c)
      (hne : b ≠ c)

/-- Whatever instruction a live instruction reads precedes it, choices apart. -/
def Dominated (f : Func) (le : BlockId → BlockId → Prop) : Prop :=
  ∀ id inst x, f.inst? id = some inst → inst.kind.isPhi = false →
    .inst x ∈ inst.kind.operands → f.Precedes le x id

section Listed

variable {f g : Func} {le : BlockId → BlockId → Prop} {x y z id : InstId} {b c : BlockId}

theorem listed_of_block? {block : Block} (h : f.block? b = some block) :
    f.listed b = block.insts := by
  rw [listed, h]
  rfl

theorem block?_of_mem_listed (h : x ∈ f.listed b) :
    ∃ block, f.block? b = some block ∧ x ∈ block.insts := by
  rw [listed] at h
  cases hb : f.block? b with
  | none =>
    rw [hb] at h
    cases h
  | some block =>
    rw [hb] at h
    exact ⟨block, rfl, h⟩

theorem lt_length_of_mem_listed (h : x ∈ f.listed b) : b < f.blocks.length := by
  obtain ⟨block, hb, -⟩ := block?_of_mem_listed h
  exact (List.getElem?_eq_some_iff.mp hb).1

/-- What is listed is live, in the block that lists it. -/
theorem Placed.of_listed (hf : f.Placed) (h : x ∈ f.listed b) :
    ∃ inst, f.inst? x = some inst ∧ inst.block = b := by
  obtain ⟨block, hb, hx⟩ := block?_of_mem_listed h
  exact (hf.mem b block x hb).mp hx

theorem Placed.mem_listed (hf : f.Placed) {inst : Inst} (hi : f.inst? x = some inst) :
    x ∈ f.listed inst.block := by
  obtain ⟨block, hb⟩ := Option.isSome_iff_exists.mp (hf.block x inst hi)
  rw [listed_of_block? hb]
  exact (hf.mem inst.block block x hb).mpr ⟨inst, hi, rfl⟩

/-- An instruction is listed in one block only. -/
theorem Placed.listed_once (hf : f.Placed) (hb : x ∈ f.listed b) (hc : x ∈ f.listed c) : b = c := by
  obtain ⟨inst, hi, rfl⟩ := hf.of_listed hb
  obtain ⟨same, hsame, rfl⟩ := hf.of_listed hc
  cases hi.symm.trans hsame
  rfl

theorem Placed.nodup_listed (hf : f.Placed) (b : BlockId) : (f.listed b).Nodup := by
  rw [listed]
  cases hb : f.block? b with
  | none => exact List.nodup_nil
  | some block => exact hf.once b block hb

theorem Precedes.left (h : f.Precedes le x id) : ∃ b, x ∈ f.listed b := by
  cases h with
  | within h => exact ⟨_, h.subset List.mem_cons_self⟩
  | across hx => exact ⟨_, hx⟩

/-- In a list without repetition, what stands before something stands before all behind it. -/
theorem sublist_pair_trans {l : List InstId} (hl : l.Nodup) (hxy : [x, y].Sublist l)
    (hyz : [y, z].Sublist l) : [x, z].Sublist l := by
  induction l with
  | nil => cases hxy
  | cons a l ih =>
    obtain ⟨ha, hl⟩ := List.nodup_cons.mp hl
    -- the one in the middle is not the first of the list
    have hy : y ∈ l := by
      cases hxy with
      | cons _ h => exact h.subset (List.mem_cons_of_mem x List.mem_cons_self)
      | cons_cons _ h => exact h.subset List.mem_cons_self
    have hyz' : [y, z].Sublist l := by
      cases hyz with
      | cons _ h => exact h
      | cons_cons _ h => exact absurd hy ha
    cases hxy with
    | cons _ h => exact (ih hl h hyz').cons a
    | cons_cons _ h =>
      refine List.Sublist.cons_cons _ (List.singleton_sublist.mpr ?_)
      exact hyz'.subset (List.mem_cons_of_mem y List.mem_cons_self)

theorem Precedes.trans (hf : f.Placed) (hle : f.BlockOrder le) (hxy : f.Precedes le x y)
    (hyz : f.Precedes le y z) : f.Precedes le x z := by
  cases hxy with
  | @within b hxy =>
    have hx := hxy.subset List.mem_cons_self
    have hy : y ∈ f.listed b := hxy.subset (List.mem_cons_of_mem x List.mem_cons_self)
    cases hyz with
    | @within c hyz =>
      obtain rfl := hf.listed_once hy (hyz.subset List.mem_cons_self)
      exact .within (sublist_pair_trans (hf.nodup_listed b) hxy hyz)
    | across hy' hz hle' hne =>
      obtain rfl := hf.listed_once hy hy'
      exact .across hx hz hle' hne
  | @across b c hx hy hbc hne =>
    cases hyz with
    | @within d hyz =>
      obtain rfl := hf.listed_once hy (hyz.subset List.mem_cons_self)
      exact .across hx (hyz.subset (List.mem_cons_of_mem y List.mem_cons_self)) hbc hne
    | @across c' d hy' hz hcd hne' =>
      obtain rfl := hf.listed_once hy hy'
      have hb := lt_length_of_mem_listed hx
      have hc := lt_length_of_mem_listed hy
      have hd := lt_length_of_mem_listed hz
      refine .across hx hz (hle.trans b c d hb hc hd hbc hcd) ?_
      rintro rfl
      exact hne (hle.antisymm b c hb hc hbc hcd)

/-- Whether one instruction precedes another is decided on the lists. -/
theorem precedes_iff : f.Precedes le x id ↔
    (∃ b, b < f.blocks.length ∧ [x, id].Sublist (f.listed b)) ∨
      ∃ b, b < f.blocks.length ∧ ∃ c, c < f.blocks.length ∧
        x ∈ f.listed b ∧ id ∈ f.listed c ∧ le b c ∧ b ≠ c := by
  constructor
  · rintro (h | ⟨hx, hid, hle, hne⟩)
    · exact Or.inl ⟨_, lt_length_of_mem_listed (h.subset List.mem_cons_self), h⟩
    · exact Or.inr ⟨_, lt_length_of_mem_listed hx, _, lt_length_of_mem_listed hid, hx, hid, hle,
        hne⟩
  · rintro (⟨b, -, h⟩ | ⟨b, -, c, -, hx, hid, hle, hne⟩)
    · exact .within h
    · exact .across hx hid hle hne

instance [DecidableRel le] : Decidable (f.Precedes le x id) :=
  decidable_of_iff _ precedes_iff.symm

/-- Whether a function is dominated is decided on the numbers given out. -/
theorem dominated_iff : f.Dominated le ↔ ∀ id, id < f.cells.size → ∀ inst ∈ f.inst? id,
    inst.kind.isPhi = false → ∀ v ∈ inst.kind.operands, ∀ x ∈ v.inst?, f.Precedes le x id := by
  constructor
  · intro hdom id _ inst hi hphi v hv x hx
    rw [Option.mem_def, Value.inst?_eq_some_iff] at hx
    exact hdom id inst x hi hphi (hx ▸ hv)
  · intro hall id inst x hi hphi hx
    exact hall id (lt_size_of_inst? hi) inst hi hphi _ hx x rfl

instance [DecidableRel le] : Decidable (f.Dominated le) :=
  decidable_of_iff _ dominated_iff.symm

end Listed

/-! ## What stands before what in a layout -/

namespace Laid

variable {f g : Func} {base : Option InstId} {group : InstId → List InstId}
  {le : BlockId → BlockId → Prop} {x y x' y' : InstId} {b : BlockId}

theorem listed_eq (hg : f.Laid base group g) (hx : x ∈ f.listed b) :
    g.listed b = (if b = 0 then base.toList else []) ++
      (f.listed b).flatMap (g.standing group) := by
  obtain ⟨block, hb, -⟩ := block?_of_mem_listed hx
  have hlists := hg.lists b
  rw [hb, Option.map_some] at hlists
  rw [listed_of_block? hlists, listed_of_block? hb]

/-- What stands in place of two instructions stands as they do. -/
theorem precedes (hg : f.Laid base group g) (hxy : f.Precedes le x y)
    (hx : x' ∈ g.standing group x) (hy : y' ∈ g.standing group y) : g.Precedes le x' y' := by
  cases hxy with
  | @within b h =>
    apply Precedes.within (b := b)
    rw [hg.listed_eq (h.subset List.mem_cons_self)]
    refine List.Sublist.trans ?_ ((h.flatMap _).trans (List.sublist_append_right _ _))
    rw [List.flatMap_cons, List.flatMap_singleton]
    exact (List.singleton_sublist.mpr hx).append (List.singleton_sublist.mpr hy)
  | @across b c hb hc hle hne =>
    refine .across (b := b) (c := c) ?_ ?_ hle hne
    · rw [hg.listed_eq hb]
      exact List.mem_append_right _ (List.mem_flatMap.mpr ⟨x, hb, hx⟩)
    · rw [hg.listed_eq hc]
      exact List.mem_append_right _ (List.mem_flatMap.mpr ⟨y, hc, hy⟩)

/-- What stands together in place of an instruction stands in this order. -/
theorem precedes_together (hg : f.Laid base group g) (hx : x ∈ f.listed b)
    (h : [x', y'].Sublist (g.standing group x)) : g.Precedes le x' y' := by
  apply Precedes.within (b := b)
  rw [hg.listed_eq hx]
  have hpart : [x].Sublist (f.listed b) := List.singleton_sublist.mpr hx
  refine (h.trans ?_).trans ((hpart.flatMap _).trans (List.sublist_append_right _ _))
  rw [List.flatMap_singleton]

/-- The base stands before what stands in place of an instruction. -/
theorem base_precedes (hg : f.Laid base group g) (hle : f.BlockOrder le) (hx : x ∈ f.listed b)
    {loaded : InstId} (hbase : base = some loaded) (hx' : x' ∈ g.standing group x) :
    g.Precedes le loaded x' := by
  have hmem : x' ∈ (f.listed b).flatMap (g.standing group) := List.mem_flatMap.mpr ⟨x, hx, hx'⟩
  by_cases h0 : b = 0
  · apply Precedes.within (b := b)
    rw [hg.listed_eq hx, if_pos h0, hbase]
    exact List.Sublist.cons_cons loaded (List.singleton_sublist.mpr hmem)
  · have hb := lt_length_of_mem_listed hx
    refine .across (b := 0) (c := b) ?_ ?_ (hle.entry b hb) (Ne.symm h0)
    · -- the entry block lists the base even when it lists nothing else
      have hlists := hg.lists 0
      rw [block?, block?, List.getElem?_eq_getElem (Nat.zero_lt_of_lt hb), Option.map_some] at hlists
      rw [listed_of_block? hlists, if_pos rfl, hbase]
      exact List.mem_cons_self
    · rw [hg.listed_eq hx]
      exact List.mem_append_right _ hmem

end Laid

end Func

/-! ## What rows read -/

/-- The value of the body that an address is confined from. -/
def Landing.source : Landing → Value
  | .plain address => address
  | .folded fold => fold.index

namespace Func

variable {f g : Func} {n : Nat} {width : Width} {b : BlockId} {base sum pointer member x : InstId}
  {low length : Value} {row : List InstId} {ty : Ty} {landing : Landing} {inst : Inst}
  {symbols : SymbolTable}

theorem SumRow.sum_mem (hs : g.SumRow n width b base low row sum) : sum ∈ row := by
  cases hs <;> simp

/-- A member of the row of a sum reads a member before it, the base, or the value that is added. -/
theorem SumRow.reads (hs : g.SumRow n width b base low row sum) (hm : member ∈ row)
    (hi : g.inst? member = some inst) (hx : .inst x ∈ inst.kind.operands) :
    [x, member].Sublist row ∨ x = base ∨ low = .inst x := by
  cases hs with
  | @whole wide _ hmask hwide hsum =>
    rw [List.mem_cons, List.mem_singleton] at hm
    rcases hm with rfl | rfl
    · cases hi.symm.trans hwide.2
      exact Or.inr (Or.inr (List.mem_singleton.mp hx).symm)
    · cases hi.symm.trans hsum.2
      rcases List.mem_cons.mp hx with he | hx
      · exact Or.inr (Or.inl (Value.inst.inj he))
      · cases List.mem_singleton.mp hx
        exact Or.inl (List.Sublist.refl _)
  | @masked mask kept wide _ hmask hkept hwide hsum =>
    rw [List.mem_cons, List.mem_cons, List.mem_singleton] at hm
    rcases hm with rfl | rfl | rfl
    · cases hi.symm.trans hkept.2
      rcases List.mem_cons.mp hx with he | hx
      · exact Or.inr (Or.inr he.symm)
      · cases List.mem_singleton.mp hx
    · cases hi.symm.trans hwide.2
      cases List.mem_singleton.mp hx
      exact Or.inl (by simp)
    · cases hi.symm.trans hsum.2
      rcases List.mem_cons.mp hx with he | hx
      · exact Or.inr (Or.inl (Value.inst.inj he))
      · cases List.mem_singleton.mp hx
        exact Or.inl (by simp)

/-- A member of the row of an address reads a member before it, the base, or the source. -/
theorem LandRow.reads (hl : f.LandRow g width b base ty landing row pointer) (hm : member ∈ row)
    (hi : g.inst? member = some inst) (hx : .inst x ∈ inst.kind.operands) :
    [x, member].Sublist row ∨ x = base ∨ landing.source = .inst x := by
  cases hl with
  | @plain address low sum _ part hlow hsum hpointer =>
    rw [List.cons_append, List.mem_cons, List.mem_append, List.mem_singleton] at hm
    rcases hm with rfl | hm | rfl
    · cases hi.symm.trans hlow.2
      exact Or.inr (Or.inr (List.mem_singleton.mp hx).symm)
    · rcases hsum.reads hm hi hx with hbefore | hbase | hlow
      · exact Or.inl ((hbefore.trans (List.sublist_append_left _ _)).cons low)
      · exact Or.inr (Or.inl hbase)
      · cases hlow
        exact Or.inl (List.Sublist.cons_cons _
          (List.singleton_sublist.mpr (List.mem_append_left _ hm)))
    · cases hi.symm.trans hpointer.2
      cases List.mem_singleton.mp hx
      exact Or.inl (((List.singleton_sublist.mpr hsum.sum_mem).append (List.Sublist.refl _)).cons low)
  | @folded fold sum total _ part hsum htotal hpointer =>
    rw [List.mem_append, List.mem_cons, List.mem_singleton] at hm
    rcases hm with hm | rfl | rfl
    · rcases hsum.reads hm hi hx with hbefore | hbase | hindex
      · exact Or.inl (hbefore.trans (List.sublist_append_left _ _))
      · exact Or.inr (Or.inl hbase)
      · exact Or.inr (Or.inr hindex)
    · cases hi.symm.trans htotal.2
      rcases List.mem_cons.mp hx with he | hx
      · cases he
        exact Or.inl ((List.singleton_sublist.mpr hsum.sum_mem).append
          (List.singleton_sublist.mpr List.mem_cons_self))
      · cases List.mem_singleton.mp hx
    · cases hi.symm.trans hpointer.2
      cases List.mem_singleton.mp hx
      exact Or.inl (List.sublist_append_right _ _)

/-- A mask reads the length. -/
theorem CapRow.reads (hc : f.CapRow g symbols width b length row) (hm : member ∈ row)
    (hi : g.inst? member = some inst) (hx : .inst x ∈ inst.kind.operands) : length = .inst x := by
  cases hc with
  | whole => cases hm
  | masked hmask hty hkept =>
    obtain rfl := List.mem_singleton.mp hm
    cases hi.symm.trans hkept.2
    rcases List.mem_cons.mp hx with he | hx
    · exact he.symm
    · cases List.mem_singleton.mp hx

variable {le : BlockId → BlockId → Prop} {id : InstId}

/-- What an access reads precedes it. -/
theorem Dominated.access (hdom : f.Dominated le) (hi : f.inst? id = some inst)
    (ha : inst.kind.access? ≠ none) {slot : Nat} (ho : inst.kind.operand? slot = some (.inst x)) :
    f.Precedes le x id :=
  hdom id inst x hi (InstKind.isPhi_of_access ha) (List.mem_of_getElem? ho)

/-- What the index of a fold names precedes the access that reads through the fold. -/
theorem precedes_of_fold? {address : Value} {size subspace slot : Nat} {fold : Fold}
    (hf : f.Placed) (hle : f.BlockOrder le) (hdom : f.Dominated le)
    (hi : f.inst? id = some inst) (ha : inst.kind.access? ≠ none)
    (ho : inst.kind.operand? slot = some address)
    (hfold : f.fold? address size subspace = some fold) (hx : fold.index = .inst x) :
    f.Precedes le x id := by
  have haddress : address = .inst fold.cast := (fold?_eq_some_iff.mp hfold).1
  obtain ⟨⟨castInst, hcast, hcastKind⟩, addInst, c, hadd, haddKind⟩ := parts_of_fold? hfold
  have hindex : f.Precedes le x fold.add := by
    apply hdom fold.add addInst x hadd
    · rw [haddKind]
      rfl
    · rw [haddKind, hx]
      exact List.mem_cons_self
  have hsum : f.Precedes le fold.add fold.cast := by
    apply hdom fold.cast castInst fold.add hcast
    · rw [hcastKind]
      rfl
    · rw [hcastKind]
      exact List.mem_cons_self
  exact (hindex.trans hf hle hsum).trans hf hle (hdom.access hi ha (haddress ▸ ho))

end Func

/-- A member of a row reads a member before it, the base, or something that precedes the access in
the body. -/
theorem Emission.Stands.reads {f g : Func} {symbols : SymbolTable} {cx : Context}
    {base : Option InstId} {emission : Emission} {le : BlockId → BlockId → Prop}
    {member x : InstId} {inst : Inst} (hs : emission.Stands f cx base g) (hf : f.Placed)
    (hle : f.BlockOrder le) (hdom : f.Dominated le) (howed : emission.chore.Owed f symbols)
    (hm : member ∈ emission.row) (hi : g.inst? member = some inst)
    (hx : .inst x ∈ inst.kind.operands) :
    [x, member].Sublist emission.row ∨ base = some x ∨ f.Precedes le x emission.chore.id := by
  obtain ⟨reader, hreader, ha⟩ := howed.access
  cases emission with
  | address id slot landing row =>
    obtain ⟨b, same, address, pointee, pointer, hb, hsame, ho, -, htakes, hrow⟩ := hs
    cases hreader.symm.trans hsame
    rcases hrow.reads hm hi hx with hbefore | rfl | hsource
    · exact Or.inl hbefore
    · exact Or.inr (Or.inl hb)
    · refine Or.inr (Or.inr ?_)
      cases landing with
      | plain found =>
        cases htakes
        cases hsource
        exact hdom.access hreader ha ho
      | folded fold => exact precedes_of_fold? hf hle hdom hreader ha ho htakes.2 hsource
  | length id slot row =>
    obtain ⟨same, length, hsame, ho, hrow⟩ := hs
    cases hreader.symm.trans hsame
    cases hrow.reads hm hi hx
    exact Or.inr (Or.inr (hdom.access hreader ha ho))

/-! ## Bodies stay dominated -/

namespace Draft.Logged

variable {f : Func} {symbols : SymbolTable} {cx : Context} {log : List Emission} {d : Draft}
  {le : BlockId → BlockId → Prop} {id x : InstId} {inst : Inst}

/-- What precedes an instruction in the body, and is read, precedes what stands in its place. -/
theorem precedes (hd : d.Logged f symbols cx log) (hf : f.Placed) (hup : f.Upholds none d.func)
    {reader : InstId} (h : f.Precedes le x reader) (hid : id ∈ d.func.standing (emitted log) reader)
    (hi : d.func.inst? id = some inst) (hx : .inst x ∈ inst.kind.operands) :
    d.func.Precedes le x id := by
  obtain ⟨b, hlisted⟩ := h.left
  obtain ⟨old, hold, -⟩ := hf.of_listed hlisted
  obtain ⟨now, hnow⟩ := hup.live hold (reads_pos_iff.mpr ⟨id, inst, hi, hx⟩)
  refine hd.laid.precedes h ?_ hid
  rw [standing_of_live hnow]
  exact List.mem_append_right _ List.mem_cons_self

/-- What a member of a row reads precedes it. -/
theorem dominated_row (hd : d.Logged f symbols cx log) (hf : f.Placed)
    (hup : f.Upholds none d.func) (hle : f.BlockOrder le) (hdom : f.Dominated le)
    {emission : Emission} (hmem : emission ∈ log) (hid : id ∈ emission.row)
    (hi : d.func.inst? id = some inst) (hx : .inst x ∈ inst.kind.operands) :
    d.func.Precedes le x id := by
  obtain ⟨reader, hreader, ha⟩ := (hd.owed emission hmem).access
  have hlive := hd.inst?_of_access hreader ha
  have hpart : emission.row.Sublist (d.func.standing (emitted log) emission.chore.id) := by
    rw [standing_of_live hlive]
    exact (row_infix_emitted hmem).sublist.trans (List.sublist_append_left _ _)
  have hlisted := hf.mem_listed hreader
  rcases (hd.stands emission hmem).reads hf hle hdom (hd.owed emission hmem) hid hi hx with
    hbefore | hbase | hbody
  · exact hd.laid.precedes_together hlisted (hbefore.trans hpart)
  · exact hd.laid.base_precedes hle hlisted hbase (hpart.subset hid)
  · exact hd.precedes hf hup hbody (hpart.subset hid) hi hx

/-- What an instruction of the body reads precedes it. -/
theorem dominated_old (hd : d.Logged f symbols cx log) (hf : f.Placed)
    (hup : f.Upholds none d.func) (hdom : f.Dominated le) {old : Inst}
    (hold : f.inst? id = some old) (hi : d.func.inst? id = some inst)
    (hphi : inst.kind.isPhi = false) (hx : .inst x ∈ inst.kind.operands) :
    d.func.Precedes le x id := by
  have hstanding : d.func.standing (emitted log) id = emitted log id ++ [id] :=
    standing_of_live hi
  have hself : id ∈ d.func.standing (emitted log) id := by
    rw [hstanding]
    exact List.mem_append_right _ List.mem_cons_self
  obtain rfl := hd.kept_of_live hold hi
  rw [InstKind.isPhi_setOperands] at hphi
  obtain ⟨slot, hslot⟩ := List.mem_iff_getElem?.mp hx
  rcases InstKind.operand?_setOperands hslot with hheld | hwritten
  · exact hd.precedes hf hup (hdom id old x hold hphi (List.mem_of_getElem? hheld)) hself hi hx
  · -- what was written is the last member of a row of the group
    obtain ⟨emission, hmem, rfl, -, last, hlast, he⟩ := mem_written hwritten
    cases he
    apply hd.laid.precedes_together (hf.mem_listed hold)
    rw [hstanding]
    exact (List.singleton_sublist.mpr
      ((row_infix_emitted hmem).subset (List.mem_of_getLast? hlast))).append (List.Sublist.refl _)

theorem dominated (hd : d.Logged f symbols cx log) (hf : f.Placed) (hup : f.Upholds none d.func)
    (hle : f.BlockOrder le) (hdom : f.Dominated le) : d.func.Dominated le := by
  intro id inst x hi hphi hx
  cases hold : f.inst? id with
  | some old => exact hd.dominated_old hf hup hdom hold hi hphi hx
  | none =>
    rcases hd.laid.inserted hf (by rw [hi]; rfl) hold with hbase | ⟨reader, -, hmem⟩
    · -- the base reads a symbol
      cases hi.symm.trans (hd.base id hbase)
      cases List.mem_singleton.mp hx
    · obtain ⟨emission, hlogged, -, hrow⟩ := mem_emitted.mp hmem
      exact hd.dominated_row hf hup hle hdom hlogged hrow hi hx

end Draft.Logged

/-- Confining a body keeps definitions before uses: with exact counters, and in every partial order
of the blocks in which the entry comes first, whatever instruction is read precedes its reader
afterwards if it did before, inserted instructions included. -/
theorem Edit.confineBody_dominated {f g : Func} {cx : Context} {symbols : SymbolTable} {plan : Plan}
    {body : BodyTally} {le : BlockId → BlockId → Prop} (hf : f.Built) (hexact : f.Exact)
    (hle : f.BlockOrder le) (hdom : f.Dominated le) (hplan : f.plan symbols = .ok plan)
    (hrun : (Edit.confineBody cx plan).run f = .ok body g) : g.Dominated le := by
  obtain ⟨log, d, rfl, hd⟩ := confineBody_logged hf.placed hplan hrun
  exact hd.logged.dominated hf.placed (hd.upholds (hexact.trusted _ _ _)) hle hdom

/-! ## A fold in a later block -/

/-- A function whose first block computes an address, and whose second block loads through it. -/
def relayed : Func :=
  [.addBlock "entry",
    .addBlock "next",
    .append 0 (.binary .add (.arg 0) (.arg 0)) (.int 32),
    .append 0 (.binary .add (.inst 0) (.int 32 4)) (.int 32),
    .append 0 (.cast .inttoptr (.inst 1)) (.ptr (.int 32)),
    .append 0 (.br 1) .void,
    .append 1 (.load (.inst 2)) (.int 32),
    .append 1 (.ret none) .void].foldl Operation.apply
    (.declare "relayed" [.int 32] .void)

/-- A region of 8 bits for this function. -/
def relayedContext : Context where
  region := { width := Pass.narrow.width, memoryBase := 0, pointerSize := 1 }
  symbols := { globals := [{ name := baseSymbol, ty := .ptr (.int 64) }], functions := [] }
  layout := {}

/-- Blocks in layout order. -/
theorem relayed_blockOrder : relayed.BlockOrder (· ≤ ·) where
  refl := fun b _ => Nat.le_refl b
  antisymm := fun _ _ _ _ => Nat.le_antisymm
  trans := fun _ _ _ _ _ _ => Nat.le_trans
  entry := fun b _ => Nat.zero_le b

/-- The access of this function. -/
def relayedPlan : Plan :=
  [{ id := 4, access := .value 0 }]

theorem relayed_served : ∃ body g,
    (Edit.confineBody relayedContext relayedPlan).run relayed = .ok body g ∧
      body.tally.removed = 2 := by
  have hruns : (Edit.confineBody relayedContext relayedPlan).succeeds relayed
      (fun body _ => body.tally.removed == 2) = true := by decide +kernel
  obtain ⟨body, g, hrun, hremoved⟩ := Edit.run_of_succeeds hruns
  exact ⟨body, g, hrun, eq_of_beq hremoved⟩

theorem relayed_dominated : ∃ body g,
    (Edit.confineBody relayedContext relayedPlan).run relayed = .ok body g ∧
      body.tally.removed = 2 ∧ g.Dominated (· ≤ ·) := by
  obtain ⟨body, g, hrun, hremoved⟩ := relayed_served
  have hdom : relayed.Dominated (· ≤ ·) := by decide +kernel
  have hplan : relayed.plan { globals := [], functions := [] } = .ok relayedPlan := by
    decide +kernel
  exact ⟨body, g, hrun, hremoved, Edit.confineBody_dominated
    ((Func.Built.declare _ _ _).history _) (by decide +kernel) relayed_blockOrder hdom hplan hrun⟩

end Confinement
