import Confinement.Proofs.BaseLoad
import Confinement.Proofs.Lengths
import Confinement.Proofs.Rejection

/-!
# The audit at another width

The audit finds out for which width a module was sandboxed. A row for a width of less than 32 bits has
one mask in it, that of the width, and every way in which the audit accepts an address leads to this
mask (`Auditor.checkPointer_row_iff`). At another width of less than 32 bits the masks differ, so that
each address that was confined gives one finding, whatever the guard region at that width says of its
constant (`Func.Recorded.pointerSlots_findings`). At 32 bits there is no mask to look for, and the guard
region is larger than any other, so that nothing is found (`Func.Recorded.findings_eq_nil`).
-/

set_option autoImplicit false

namespace Confinement

open Func

/-! ## Widths -/

/-- What is masked for the width `emitted` passes for masked at the width `audited`. -/
def Width.Covers (audited emitted : Width) : Prop :=
  audited.mask? = none ∨ audited = emitted

namespace Width

variable {audited emitted width : Width} {mask : Nat}

theorem ext_bits (h : audited.bits = emitted.bits) : audited = emitted := by
  cases audited
  cases emitted
  cases h
  rfl

/-- A mask belongs to one width. -/
theorem eq_of_mask? (h : audited.mask? = some mask) (h' : emitted.mask? = some mask) :
    audited = emitted := by
  obtain ⟨-, hmask⟩ := mask?_eq_some_iff.mp h
  obtain ⟨-, hmask'⟩ := mask?_eq_some_iff.mp h'
  -- a mask is one less than the size that it belongs to
  have hpos := audited.size_pos
  have hpos' := emitted.size_pos
  have hsize : 2 ^ audited.bits = 2 ^ emitted.bits := by
    rw [← size_eq, ← size_eq]
    omega
  exact ext_bits (Nat.pow_right_injective (Nat.le_refl 2) hsize)

/-- Every width below 32 bits has a mask. -/
theorem exists_mask? (h : width.bits < 32) : ∃ mask, width.mask? = some mask :=
  ⟨width.size - 1, mask?_eq_some_iff.mpr ⟨h, rfl⟩⟩

/-- A width that covers another is no smaller. -/
theorem Covers.size_le (h : audited.Covers emitted) : emitted.size ≤ audited.size := by
  rcases h with hnone | rfl
  · rw [mask?_eq_none_iff] at hnone
    rw [size_eq, size_eq, hnone]
    exact Nat.pow_le_pow_right (by omega) emitted.le
  · exact Nat.le_refl _

theorem not_covers (h : audited.bits < 32) (hne : audited ≠ emitted) :
    ¬ audited.Covers emitted := by
  rintro (hnone | heq)
  · exact absurd (mask?_eq_none_iff.mp hnone) (Nat.ne_of_lt h)
  · exact hne heq

end Width

/-- A larger subspace has a larger guard region. -/
theorem StaysInGuard.mono {offset : Int} {size subspace larger : Nat}
    (h : StaysInGuard offset size subspace) (hle : subspace ≤ larger) :
    StaysInGuard offset size larger := by
  obtain ⟨hpos, hsize, hoffset⟩ := h
  exact ⟨hpos, by omega, by omega⟩

/-! ## One row -/

theorem Func.Added.producer? {g : Func} {n : Nat} {id : InstId} {inst : Inst}
    (ha : g.Added n id inst) : g.producer? (.inst id) = some inst.kind :=
  Auditor.producer?_eq_some_iff.mpr ⟨id, inst, rfl, ha.2, rfl⟩

/-- A sum is computed from the base. -/
theorem Func.SumRow.producer? {g : Func} {n : Nat} {width : Width} {block : BlockId}
    {b sum : InstId} {low : Value} {row : List InstId}
    (hs : g.SumRow n width block b low row sum) :
    ∃ wide, g.producer? (.inst sum) = some (.binary .add (.inst b) (.inst wide)) := by
  cases hs with
  | whole _ _ hsum => exact ⟨_, hsum.producer?⟩
  | masked _ _ _ hsum => exact ⟨_, hsum.producer?⟩

namespace Auditor

variable {a : Auditor} {f : Func} {emitted : Width} {n mask : Nat} {block : BlockId}
  {b sum pointer : InstId} {low v address : Value} {row : List InstId} {landing : Landing}
  {slot : PointerSlot} {pointee : Ty}

/-- A value that is masked for one width passes for masked at the widths that cover it. -/
theorem isMasked_iff_covers (hmask : emitted.mask? = some mask)
    (hkept : a.func.producer? v = some (.binary .and low (.int 32 mask))) :
    a.isMasked v = true ↔ a.cx.region.width.Covers emitted := by
  have hsmall : mask < 2 ^ 32 := by
    obtain ⟨-, rfl⟩ := Width.mask?_eq_some_iff.mp hmask
    have := emitted.size_pos
    have := emitted.size_le
    omega
  have hread : (Constant.ofInt 32 mask).unsigned? = some mask :=
    Constant.unsigned?_ofInt_natCast (by omega) hsmall
  rw [isMasked_iff]
  -- where the audited width has a mask, it has to be the one that is found
  refine or_congr_right ⟨?_, ?_⟩
  · rintro ⟨lhs, rhs, hproducer, hrhs⟩
    cases hkept.symm.trans hproducer
    obtain ⟨mask', c, hmask', hc, hread'⟩ := isMask_iff.mp hrhs
    cases hc
    cases hread.symm.trans hread'
    exact Width.eq_of_mask? hmask' hmask
  · rintro rfl
    exact ⟨low, _, hkept, isMask_iff.mpr ⟨mask, _, hmask, rfl, hread⟩⟩

/-- A sum for a width with a mask passes for one at the widths that cover it. -/
theorem checkSum_row_iff (hbase : a.base? = some b) (hmask : emitted.mask? = some mask)
    (hs : a.func.SumRow n emitted block b low row sum) :
    a.checkSum (.inst sum) = .ok () ↔ a.cx.region.width.Covers emitted := by
  cases hs with
  | whole hnone hwide hsum => cases hmask.symm.trans hnone
  | masked hmask' hkept hwide hsum =>
    have hcovers := isMasked_iff_covers hmask' hkept.producer?
    rw [checkSum_eq_ok_iff]
    constructor
    · rintro ⟨lhs, rhs, hadd, -, hoffset⟩
      cases hsum.producer?.symm.trans hadd
      obtain ⟨narrow, hzext, -, hmasked⟩ := checkOffset_eq_ok_iff.mp hoffset
      cases hwide.producer?.symm.trans hzext
      exact hcovers.mp hmasked
    · intro h
      exact ⟨_, _, hsum.producer?, isBase_iff.mpr ⟨b, hbase, rfl⟩,
        checkOffset_eq_ok_iff.mpr ⟨_, hwide.producer?, hkept.hasType, hcovers.mpr h⟩⟩

/-- The constant of a fold is in the guard region of every width that covers its own. -/
theorem checkFolded_row_iff {fold : Fold} {size : Nat} (hbase : a.base? = some b)
    (hmask : emitted.mask? = some mask) (hs : a.func.SumRow n emitted block b fold.index row sum)
    (hty : a.func.HasType a.cx.symbols address (.ptr pointee))
    (hsize : a.cx.layout.storeSize pointee = size)
    (hfold : f.fold? v size emitted.size = some fold) :
    a.checkFolded address (.inst sum) (.int 64 fold.offset) true = .ok () ↔
      a.cx.region.width.Covers emitted := by
  rw [checkFolded_eq_ok_iff, ← checkSum_row_iff hbase hmask hs]
  constructor
  · rintro ⟨c, offset, pointee', -, -, -, -, -, hcheck⟩
    exact hcheck
  · intro hcheck
    have hcovers := (checkSum_row_iff hbase hmask hs).mp hcheck
    have hguard := (staysInGuard_of_fold? hfold).mono hcovers.size_le
    exact ⟨_, fold.offset, pointee, rfl,
      Constant.signed?_ofInt_natCast (offset_lt_of_fold? hfold), rfl, hty, hsize ▸ hguard, hcheck⟩

/-- A confined address passes for one at the widths that cover its own. -/
theorem checkPointer_row_iff (hbase : a.base? = some b) (hmask : emitted.mask? = some mask)
    (hrow : f.LandRow a.func emitted block b (.ptr pointee) landing row pointer)
    (htakes : landing.Takes f a.cx.layout emitted slot address pointee) :
    a.checkPointer (.inst pointer) slot.firstClass = .ok () ↔
      a.cx.region.width.Covers emitted := by
  have hstart : a.isBase (.inst b) = true := isBase_iff.mpr ⟨b, hbase, rfl⟩
  rw [checkPointer]
  cases hrow with
  | plain hlow hsum hpointer =>
    obtain ⟨wide, hadd⟩ := hsum.producer?
    simp only [hpointer.producer?, hadd, hstart, if_true]
    exact checkSum_row_iff hbase hmask hsum
  | folded hsum htotal hpointer =>
    obtain ⟨wide, hadd⟩ := hsum.producer?
    obtain ⟨hsingle, hfold⟩ := htakes
    -- the total starts at the sum, and a sum is no base
    simp only [hpointer.producer?, htotal.producer?, isBase_eq_false_of_binary hadd, hsingle,
      Bool.false_eq_true, if_false]
    exact checkFolded_row_iff hbase hmask hsum hpointer.hasType rfl hfold

end Auditor

/-! ## Findings on addresses -/

/-- The slot with an address that a finding is about, if it is about one. -/
def Finding.pointerSlot? (found : Finding) : Option (InstId × Nat) :=
  match found.site with
  | .pointer slot => some (found.id, slot)
  | _ => none

/-- The slots with addresses of an access. -/
def Planned.pointerSlots (planned : Planned) : List (InstId × Nat) :=
  planned.access.pointers.map fun slot => (planned.id, slot.index)

/-- The slots with addresses of a plan. -/
def Plan.pointerSlots (plan : Plan) : List (InstId × Nat) :=
  plan.flatMap Planned.pointerSlots

/-- The slots with addresses that the audit of a module objects to, function by function. -/
def Module.objections (m : Module) (region : Region) : List (List (InstId × Nat)) :=
  m.functions.map fun func =>
    ({ func, cx := m.context region } : Auditor).findings.filterMap Finding.pointerSlot?

namespace Auditor

variable {a : Auditor} {id : InstId} {inst : Inst} {kind : InstKind} {access : Access}
  {outcome : Except Reason Unit} {found : Finding} {v : Value} {firstClass : Bool}

theorem finding_of_ne_ok (id : InstId) (site : Site) (h : outcome ≠ .ok ()) :
    ∃ reason, finding id site outcome = [{ id, site, reason }] := by
  cases outcome with
  | ok u => exact absurd rfl h
  | error reason => exact ⟨reason, rfl⟩

/-- An access of which every address is objected to. -/
theorem pointerSlots_accessFindings
    (h : ∀ slot ∈ access.pointers,
      checkSlot kind slot.index (fun v => a.checkPointer v slot.firstClass) ≠ .ok ()) :
    (a.accessFindings id kind access).filterMap Finding.pointerSlot? =
      ({ id, access } : Planned).pointerSlots := by
  have hlength : (access.length.toList.flatMap fun slot =>
      finding id (.length slot) (checkSlot kind slot a.checkLength)).filterMap
        Finding.pointerSlot? = [] := by
    -- whatever is found on the length is not about an address
    refine List.filterMap_eq_nil_iff.mpr fun found hfound => ?_
    obtain ⟨slot, -, hfinding⟩ := List.mem_flatMap.mp hfound
    obtain ⟨reason, -, rfl⟩ := mem_finding_iff.mp hfinding
    rfl
  rw [accessFindings, List.filterMap_append, hlength, List.append_nil, List.filterMap_flatMap,
    Planned.pointerSlots, List.map_eq_flatMap]
  -- each address gives one finding
  refine List.flatMap_congr fun slot hslot => ?_
  obtain ⟨reason, hfinding⟩ := finding_of_ne_ok id (.pointer slot.index) (h slot hslot)
  rw [hfinding]
  rfl

theorem instFindings_of_quiet (h : ∀ inst, a.func.inst? id = some inst → inst.kind.access? = none) :
    a.instFindings id = [] := by
  refine instFindings_eq_nil_iff.mpr (Or.inr fun inst access hi ha => ?_)
  rw [h inst hi] at ha
  cases ha

theorem instFindings_of_access (hnot : a.loadsBase id = false) (hi : a.func.inst? id = some inst)
    (ha : inst.kind.access? = some access) :
    a.instFindings id = a.accessFindings id inst.kind access := by
  simp only [instFindings, hnot, Bool.false_eq_true, if_false, hi, ha]

theorem checkSum_ne_lengthNotMasked : a.checkSum v ≠ .error .lengthNotMasked := by
  intro h
  rw [checkSum] at h
  split at h
  · split at h
    · rw [checkOffset] at h
      repeat' split at h
      all_goals cases h
    · cases h
  · cases h

theorem pointeeSize_ne_lengthNotMasked : a.pointeeSize v ≠ .error .lengthNotMasked := by
  intro h
  rw [pointeeSize] at h
  repeat' split at h
  all_goals cases h

theorem checkFolded_ne_lengthNotMasked {address sum constant : Value} :
    a.checkFolded address sum constant firstClass ≠ .error .lengthNotMasked := by
  intro h
  rw [checkFolded] at h
  split at h
  · cases h
  · next offset _ =>
    cases firstClass with
    | false => cases h
    | true =>
      change (a.pointeeSize address >>= fun size =>
        if ¬ StaysInGuard offset size a.cx.region.width.size then .error (.pastGuard offset)
        else a.checkSum sum) = _ at h
      rcases bind_eq_error.mp h with hsize | ⟨size, -, h⟩
      · exact pointeeSize_ne_lengthNotMasked hsize
      · split at h
        · cases h
        · exact checkSum_ne_lengthNotMasked h

/-- The check of an address does not speak of lengths. -/
theorem checkPointer_ne_lengthNotMasked :
    a.checkPointer v firstClass ≠ .error .lengthNotMasked := by
  intro h
  rw [checkPointer] at h
  split at h
  · split at h
    · split at h
      · exact checkSum_ne_lengthNotMasked h
      · exact checkFolded_ne_lengthNotMasked h
    · exact checkSum_ne_lengthNotMasked h
  · cases h

/-- A finding on an access whose length exists is about an address, or it says that the length is not
masked. -/
theorem pointerSlot?_of_mem_accessFindings
    (hlength : ∀ slot, access.length = some slot → ∃ v, kind.operand? slot = some v)
    (h : found ∈ a.accessFindings id kind access) :
    found.pointerSlot?.isSome = true ↔ found.reason ≠ .lengthNotMasked := by
  rcases mem_accessFindings_iff.mp h with ⟨slot, -, hfinding⟩ | ⟨slot, hslot, hfinding⟩
  · obtain ⟨reason, herror, rfl⟩ := mem_finding_iff.mp hfinding
    refine ⟨fun _ he => ?_, fun _ => rfl⟩
    rw [checkSlot, show reason = .lengthNotMasked from he] at herror
    cases ho : kind.operand? slot.index with
    | none => simp only [ho, Except.error.injEq, reduceCtorEq] at herror
    | some v =>
      rw [ho] at herror
      exact checkPointer_ne_lengthNotMasked herror
  · -- the check of a length that exists has one error
    obtain ⟨reason, herror, rfl⟩ := mem_finding_iff.mp hfinding
    obtain ⟨v, ho⟩ := hlength slot hslot
    rw [checkSlot, ho] at herror
    change a.checkLength v = _ at herror
    rw [checkLength] at herror
    split at herror
    · cases herror
    · cases herror
      simp [Finding.pointerSlot?]

end Auditor

/-! ## A confined body -/

/-- A context at another width. -/
def Context.atWidth (cx : Context) (width : Width) : Context where
  region := { cx.region with width }
  symbols := cx.symbols
  layout := cx.layout

/-- The audit of a function at another width than that of a context. -/
def Func.auditorAt (g : Func) (cx : Context) (width : Width) : Auditor where
  func := g
  cx := cx.atWidth width

namespace Func.LoadsOnce

variable {f g : Func} {cx : Context} {emitted width : Width} {b id : InstId}

/-- What loads the base does not depend on the width. -/
theorem loadsBase_iff (h : f.LoadsOnce g emitted cx.region.memoryBase b) :
    (g.auditorAt cx width).loadsBase id = true ↔ id = b := by
  constructor
  · intro hload
    obtain ⟨inst, hi, hkind⟩ := Auditor.loadsBase_iff_inst.mp hload
    exact (h.only id inst hi).mp hkind
  · rintro rfl
    exact Auditor.loadsBase_iff_inst.mpr ⟨_, h.inst?, rfl⟩

theorem base?_eq (h : f.LoadsOnce g emitted cx.region.memoryBase b) (hg : g.Placed) :
    (g.auditorAt cx width).base? = some b := by
  rw [Auditor.base?, Auditor.baseLoads_eq_singleton hg fun _ => h.loadsBase_iff]
  rfl

theorem baseFindings_eq_nil (h : f.LoadsOnce g emitted cx.region.memoryBase b) (hg : g.Placed) :
    (g.auditorAt cx width).baseFindings = [] :=
  Auditor.baseFindings_eq_nil_of_heads
    (Auditor.baseLoads_eq_singleton hg fun _ => h.loadsBase_iff) h.heads.2

end Func.LoadsOnce

namespace Func.Recorded

variable {f : Func} {symbols : SymbolTable} {cx : Context} {plan : Plan} {log : List Emission}
  {d : Draft} {b id : InstId} {inst : Inst} {access : Access} {width : Width} {found : Finding}

/-- The base that was loaded is the one load. -/
theorem loadsOnce_loaded (hd : f.Recorded symbols cx plan log d) (hf : f.Placed)
    (hplan : plan ≠ []) :
    ∃ b, d.base.loaded = some b ∧
      f.LoadsOnce d.func cx.region.width cx.region.memoryBase b := by
  obtain ⟨b, hb⟩ := hd.exists_base hplan
  obtain ⟨only, honce⟩ := hd.loadsOnce hf hplan
  obtain rfl := (honce.only b _ (hd.logged.base b hb)).mp rfl
  exact ⟨b, hb, honce⟩

/-- Without an access there is nothing to object to. -/
theorem findings_of_idle (hd : f.Recorded symbols cx plan log d) (hf : f.Placed)
    (hplan : plan = []) : (d.func.auditorAt cx width).findings = [] := by
  obtain ⟨hsame, hnone⟩ := hd.idle hf hplan
  have hloads : (d.func.auditorAt cx width).baseLoads = [] := by
    refine List.filter_eq_nil_iff.mpr fun id _ hload => ?_
    obtain ⟨inst, hi, hkind⟩ := Auditor.loadsBase_iff_inst.mp hload
    exact hnone id inst _ hi hkind
  refine List.append_eq_nil_iff.mpr ⟨Auditor.baseFindings_eq_nil_of_unloaded hloads,
    List.flatMap_eq_nil_iff.mpr fun id _ => Auditor.instFindings_of_quiet fun inst hi => ?_⟩
  change d.func.inst? id = some inst at hi
  rw [hsame] at hi
  exact access?_eq_none_of_plan (hplan ▸ hd.plan_eq) (hf.mem_order.mpr ⟨inst, hi⟩) hi

/-- Nothing is found on what was inserted. -/
theorem instFindings_row (hd : f.Recorded symbols cx plan log d) {emission : Emission}
    (hmem : emission ∈ log) {member : InstId} (hm : member ∈ emission.row) :
    (d.func.auditorAt cx width).instFindings member = [] :=
  Auditor.instFindings_of_quiet fun _ hi =>
    ((hd.logged.stands emission hmem).rowKind hm hi).access?_eq_none

/-- What is found on what stands in place of an instruction is found on the instruction. -/
theorem flatMap_standing (hd : f.Recorded symbols cx plan log d) (hi : f.inst? id = some inst) :
    (d.func.standing (emitted log) id).flatMap (d.func.auditorAt cx width).instFindings =
      (d.func.auditorAt cx width).instFindings id := by
  have hgroup :
      (emitted log id).flatMap (d.func.auditorAt cx width).instFindings = [] := by
    refine List.flatMap_eq_nil_iff.mpr fun member hmember => ?_
    obtain ⟨emission, hlogged, -, hrow⟩ := mem_emitted.mp hmember
    exact hd.instFindings_row hlogged hrow
  rcases hd.logged.kept id inst hi with hkept | ⟨hgone, -⟩
  · rw [standing_of_live hkept, List.flatMap_append, hgroup, List.nil_append,
      List.flatMap_singleton]
  · -- nothing stands in place of what is gone, and nothing is found on it
    rw [standing_of_gone hgone, Auditor.instFindings_of_quiet]
    · rfl
    · intro later hlater
      rw [show d.func.inst? id = some later from hlater] at hgone
      cases hgone

/-- Nothing is found on what was no access. -/
theorem instFindings_quiet (hd : f.Recorded symbols cx plan log d) (hi : f.inst? id = some inst)
    (ha : inst.kind.access? = none) : (d.func.auditorAt cx width).instFindings id = [] := by
  refine Auditor.instFindings_of_quiet fun later hlater => ?_
  rw [hd.logged.kept_of_live hi hlater]
  exact (InstKind.access?_setOperands inst.kind (written log id)).trans ha

/-- All that is found in a body with an access is found on the instructions that it had: the base
stands where it should, and is no access to confine. -/
theorem findings_eq_order (hd : f.Recorded symbols cx plan log d) (hf : f.Placed)
    (hplan : plan ≠ []) :
    (d.func.auditorAt cx width).findings =
      f.order.flatMap (d.func.auditorAt cx width).instFindings := by
  obtain ⟨b, hb, honce⟩ := hd.loadsOnce_loaded hf hplan
  have hload : (d.func.auditorAt cx width).instFindings b = [] :=
    Auditor.instFindings_eq_nil_iff.mpr (Or.inl (honce.loadsBase_iff.mpr rfl))
  have horder := hd.logged.laid.order_eq (blocks_ne_nil_of_plan hd.plan_eq hplan)
  rw [hb] at horder
  change (d.func.auditorAt cx width).func.order = [b] ++ _ at horder
  rw [Auditor.findings, honce.baseFindings_eq_nil hd.logged.laid.placed, List.nil_append, horder,
    List.flatMap_append, List.flatMap_singleton, hload, List.nil_append, List.flatMap_assoc]
  refine List.flatMap_congr fun id hid => ?_
  obtain ⟨inst, hi⟩ := hf.mem_order.mp hid
  exact hd.flatMap_standing hi

/-- All that is found in a confined body is found on the accesses of its plan. -/
theorem findings_eq (hd : f.Recorded symbols cx plan log d) (hf : f.Placed) :
    (d.func.auditorAt cx width).findings =
      plan.flatMap fun planned => (d.func.auditorAt cx width).instFindings planned.id := by
  by_cases hplan : plan = []
  · rw [hd.findings_of_idle hf hplan, hplan]
    rfl
  · rw [hd.findings_eq_order hf hplan, (plan_eq_ok_iff.mp hd.plan_eq).2,
      List.filterMap_eq_flatMap_toList, List.flatMap_assoc]
    refine List.flatMap_congr fun id hid => ?_
    obtain ⟨inst, hi⟩ := hf.mem_order.mp hid
    cases ha : inst.kind.access? with
    | none =>
      rw [hd.instFindings_quiet hi ha, planned?, hi, Option.bind_some, ha]
      rfl
    | some access =>
      rw [planned?, hi, Option.bind_some, ha]
      exact (List.append_nil _).symm

/-- The address in a slot passes the audit at the widths that cover its own. -/
theorem checkSlot_iff (hd : f.Recorded symbols cx plan log d) (hf : f.Placed)
    (hb : d.base.loaded = some b)
    (honce : f.LoadsOnce d.func cx.region.width cx.region.memoryBase b)
    (hnarrow : cx.region.width.bits < 32) (hi : f.inst? id = some inst)
    (ha : inst.kind.access? = some access) {slot : PointerSlot} (hslot : slot ∈ access.pointers) :
    Auditor.checkSlot (inst.kind.setOperands (written log id)) slot.index
        (fun v => (d.func.auditorAt cx width).checkPointer v slot.firstClass) = .ok () ↔
      width.Covers cx.region.width := by
  obtain ⟨mask, hmask⟩ := Width.exists_mask? hnarrow
  obtain ⟨address, pointee, landing, row, pointer, hread, htakes, hrow⟩ :=
    hd.reads_landing hf hb hi ha hslot
  rw [operand?_eq (hd.logged.inst?_of_access hi (ha.trans_ne (Option.some_ne_none access)))]
    at hread
  rw [Auditor.checkSlot, hread]
  exact Auditor.checkPointer_row_iff (a := d.func.auditorAt cx width)
    (honce.base?_eq hd.logged.laid.placed) hmask hrow htakes

/-- A planned access is looked at as it was left: its addresses pass at the widths that cover its own,
and its length is there. -/
theorem instFindings_planned (hd : f.Recorded symbols cx plan log d) (hf : f.Placed)
    (hnarrow : cx.region.width.bits < 32) {planned : Planned} (hmem : planned ∈ plan) :
    ∃ kind, (d.func.auditorAt cx width).instFindings planned.id =
        (d.func.auditorAt cx width).accessFindings planned.id kind planned.access ∧
      (∀ slot ∈ planned.access.pointers, Auditor.checkSlot kind slot.index
          (fun v => (d.func.auditorAt cx width).checkPointer v slot.firstClass) = .ok () ↔
        width.Covers cx.region.width) ∧
      ∀ slot, planned.access.length = some slot → ∃ v, kind.operand? slot = some v := by
  obtain ⟨b, hb, honce⟩ := hd.loadsOnce_loaded hf (List.ne_nil_of_mem hmem)
  obtain ⟨inst, hi, ha, haccess⟩ := accessOk_of_plan hd.plan_eq hmem
  -- the base is new, and the access is not
  have hnot : (d.func.auditorAt cx width).loadsBase planned.id = false := by
    rw [← Bool.not_eq_true, honce.loadsBase_iff]
    intro he
    rw [he, honce.new] at hi
    cases hi
  have hlater := hd.logged.inst?_of_access hi (ha.trans_ne (Option.some_ne_none planned.access))
  have hsame := (InstKind.access?_setOperands inst.kind (written log planned.id)).trans ha
  have hfindings := Auditor.instFindings_of_access hnot hlater hsame
  refine ⟨_, hfindings, ?_, ?_⟩
  · exact fun slot hslot => hd.checkSlot_iff hf hb honce hnarrow hi ha hslot
  · intro slot hs
    obtain ⟨v, -, ho, -⟩ := haccess.length slot hs
    exact InstKind.exists_operand?_setOperands ho (written log planned.id)

/-- At a width that does not cover its own, the audit of a confined body objects to each address of
its plan, once and in order. -/
theorem pointerSlots_findings (hd : f.Recorded symbols cx plan log d) (hf : f.Placed)
    (hnarrow : cx.region.width.bits < 32) (hother : ¬ width.Covers cx.region.width) :
    (d.func.auditorAt cx width).findings.filterMap Finding.pointerSlot? = plan.pointerSlots := by
  rw [hd.findings_eq hf, List.filterMap_flatMap, Plan.pointerSlots]
  refine List.flatMap_congr fun planned hmem => ?_
  obtain ⟨kind, hfindings, hcheck, -⟩ := hd.instFindings_planned hf hnarrow hmem
  rw [hfindings]
  exact Auditor.pointerSlots_accessFindings fun slot hslot => mt (hcheck slot hslot).mp hother

/-- At 32 bits the audit has no objection to a confined body. -/
theorem findings_eq_nil (hd : f.Recorded symbols cx plan log d) (hf : f.Placed)
    (hnarrow : cx.region.width.bits < 32) (hfull : width.bits = 32) :
    (d.func.auditorAt cx width).findings = [] := by
  have hnone : width.mask? = none := Width.mask?_eq_none_iff.mpr hfull
  rw [hd.findings_eq hf]
  refine List.flatMap_eq_nil_iff.mpr fun planned hmem => ?_
  obtain ⟨kind, hfindings, hcheck, hlength⟩ := hd.instFindings_planned hf hnarrow hmem
  rw [hfindings]
  refine Auditor.accessFindings_eq_nil_iff.mpr ⟨fun slot hslot => ?_, fun slot hs => ?_⟩
  · exact Auditor.checkSlot_eq_ok_iff.mp ((hcheck slot hslot).mpr (Or.inl hnone))
  · obtain ⟨v, ho⟩ := hlength slot hs
    exact ⟨v, ho, Auditor.isMasked_iff.mpr (Or.inl hnone)⟩

/-- What the audit finds in a confined body is about an address, or it says that a length is not
masked. -/
theorem pointerSlot?_of_mem (hd : f.Recorded symbols cx plan log d) (hf : f.Placed)
    (hnarrow : cx.region.width.bits < 32)
    (h : found ∈ (d.func.auditorAt cx width).findings) :
    found.pointerSlot?.isSome = true ↔ found.reason ≠ .lengthNotMasked := by
  rw [hd.findings_eq hf] at h
  obtain ⟨planned, hmem, h⟩ := List.mem_flatMap.mp h
  obtain ⟨kind, hfindings, -, hlength⟩ := hd.instFindings_planned hf hnarrow hmem
  exact Auditor.pointerSlot?_of_mem_accessFindings hlength (hfindings ▸ h)

end Func.Recorded

/-! ## A module -/

/-- A declaration gives the audit nothing to look at. -/
theorem Auditor.findings_of_declaration {a : Auditor} (h : a.func.isDeclaration = true) :
    a.findings = [] := by
  have horder : a.func.order = [] := by
    rw [Func.order, isDeclaration_iff.mp h]
    rfl
  have hloads : a.baseLoads = [] := by
    rw [baseLoads, horder]
    rfl
  rw [findings, baseFindings_eq_nil_of_unloaded hloads, horder]
  rfl

namespace Module

variable {m m' m₁ : Module} {region : Region} {plans : List Plan}

theorem violations_eq : m.violations region = m.functions.flatMap fun func =>
    ({ func, cx := m.context region } : Auditor).findings.map
      ({ func, cx := m.context region } : Auditor).violation := by
  rw [violations]
  induction m.functions with
  | nil => rfl
  | cons func functions ih =>
    rw [List.filter_cons, List.flatMap_cons, ← ih]
    split
    · rfl
    · next hdecl =>
      rw [Auditor.findings_of_declaration]
      · rfl
      · simpa using hdecl

/-- Where every finding is about an address or says that a length is not masked, the violations that do
not say this are as many as the addresses that are objected to. -/
theorem countP_violations
    (h : ∀ func ∈ m.functions,
      ∀ found ∈ ({ func, cx := m.context region } : Auditor).findings,
        (found.pointerSlot?.isSome = true ↔ found.reason ≠ .lengthNotMasked)) :
    (m.violations region).countP (·.reason ≠ .lengthNotMasked) =
      (m.objections region).flatten.length := by
  rw [violations_eq, objections, List.countP_flatMap, List.length_flatten, List.map_map]
  congr 1
  refine List.map_congr_left fun func hfunc => ?_
  rw [Function.comp_apply, Function.comp_apply, List.countP_map, List.length_filterMap_eq_countP]
  refine List.countP_congr fun found hfound => ?_
  rw [h func hfunc found hfound]
  exact decide_eq_true_iff

/-- The audit of a module that was sandboxed for a region by plans finds out about other widths. -/
structure TellsWidthsApart (m : Module) (region : Region) (plans : List Plan) : Prop where
  /-- At another width below 32 bits it objects to each address of the plans, once and in order. -/
  objections : ∀ width : Width, width.bits < 32 → width ≠ region.width →
    m.objections { region with width } = plans.map Plan.pointerSlots
  /-- So many of its violations are not about lengths. -/
  violations : ∀ width : Width, width.bits < 32 → width ≠ region.width →
    (m.violations { region with width }).countP (·.reason ≠ .lengthNotMasked) =
      (plans.map Plan.pointerSlots).flatten.length
  /-- At 32 bits it has no objection. -/
  full : ∀ width : Width, width.bits = 32 → m.violations { region with width } = []

/-- The plans of a module list the addresses of its functions. -/
theorem eq_map_pointerSlots {slots : List (List (InstId × Nat))} (hplans : m.plans = .ok plans)
    (hall : List.Forall₂ (fun f found => ∃ plan, f.plan m.symbols = .ok plan ∧
      found = Plan.pointerSlots plan) m.functions slots) : slots = plans.map Plan.pointerSlots := by
  -- a function has one plan
  have hunique : Relator.RightUnique fun (f : Func) (found : List (InstId × Nat)) =>
      ∃ plan, f.plan m.symbols = .ok plan ∧ found = Plan.pointerSlots plan := by
    rintro f found found' ⟨plan, hplan, rfl⟩ ⟨plan', hplan', rfl⟩
    cases hplan.symm.trans hplan'
    rfl
  refine List.right_unique_forall₂' hunique hall (List.forall₂_map_right_iff.mpr ?_)
  exact (mapM_eq_ok.mp hplans).imp fun f plan hplan => ⟨plan, hplan, rfl⟩

/-- A module whose functions all have a log of what was done to them tells widths apart. -/
theorem tellsWidthsApart_of_recorded (hm : m.Built) (hplans : m.plans = .ok plans)
    (hnarrow : region.width.bits < 32) (hsymbols : m'.symbols = m₁.symbols)
    (hlayout : m'.layout = m₁.layout)
    (hall : List.Forall₂ (fun f g => f ∈ m.functions ∧ ∃ plan log d, g = d.func ∧
      f.Recorded m.symbols (m₁.context region) plan log d) m.functions m'.functions) :
    m'.TellsWidthsApart region plans := by
  -- the symbols and the sizes are those with which the bodies were confined
  have hauditor : ∀ (func : Func) (width : Width),
      ({ func, cx := m'.context { region with width } } : Auditor) =
        func.auditorAt (m₁.context region) width := by
    intro func width
    rw [context, hsymbols, hlayout]
    rfl
  have hobjections : ∀ width : Width, width.bits < 32 → width ≠ region.width →
      m'.objections { region with width } = plans.map Plan.pointerSlots := by
    intro width hwidth hne
    refine eq_map_pointerSlots hplans (List.forall₂_map_right_iff.mpr (hall.imp ?_))
    rintro f g ⟨hf, plan, log, d, rfl, hd⟩
    refine ⟨plan, hd.plan_eq, ?_⟩
    rw [hauditor]
    exact hd.pointerSlots_findings (hm f hf).placed hnarrow (Width.not_covers hwidth hne)
  refine { objections := hobjections, violations := ?violations, full := ?full }
  case violations =>
    intro width hwidth hne
    rw [← hobjections width hwidth hne]
    refine countP_violations fun g hg found hfound => ?_
    obtain ⟨f, -, hf, plan, log, d, rfl, hd⟩ := exists_mem_of_forall₂ hall g hg
    rw [hauditor] at hfound
    exact hd.pointerSlot?_of_mem (hm f hf).placed hnarrow hfound
  case full =>
    intro width hfull
    rw [violations_eq]
    refine List.flatMap_eq_nil_iff.mpr fun g hg => List.map_eq_nil_iff.mpr ?_
    obtain ⟨f, -, hf, plan, log, d, rfl, hd⟩ := exists_mem_of_forall₂ hall g hg
    rw [hauditor]
    exact hd.findings_eq_nil (hm f hf).placed hnarrow hfull

end Module

/-- The audit of a module that was sandboxed for a width below 32 bits tells this width from others
below 32 bits by every address of the plans, and accepts everything at 32 bits. -/
theorem Pass.run_tells_widths_apart {pass : Pass} {m m' : Module} {report : Report} (hm : m.Built)
    (hnarrow : pass.width.bits < 32) (h : pass.run.run m = .ok report m') :
    ∃ region plans, region.width = pass.width ∧
      m'.globalNamed? baseSymbol = some region.memoryBase ∧
      m'.globalNamed? widthSymbol = some region.pointerSize ∧ m.plans = .ok plans ∧
      m'.TellsWidthsApart region plans := by
  obtain ⟨plans, -, -, -, -, hplans, -⟩ := Pass.run_eq_ok h
  obtain ⟨region, m₁, hregion, hm', hsymbols, hall⟩ := run_logged hm h
  obtain ⟨hwidth, -, -, hnamed, -⟩ := Region.install_eq_ok hregion
  have hsize : m₁.globalNamed? widthSymbol = some region.pointerSize := Region.install_named hregion
  refine ⟨region, plans, hwidth, ?_, ?_, hplans, ?_⟩
  · rw [hm']
    exact hnamed
  · rw [hm']
    exact hsize
  · refine Module.tellsWidthsApart_of_recorded hm hplans (hwidth ▸ hnarrow) hsymbols ?_ (hall.imp ?_)
    · rw [hm']
      rfl
    · rintro f g ⟨hf, -, hrest⟩
      exact ⟨hf, hrest⟩

/-- In the module of `mixed`, sandboxed for 8 bits, four addresses are objected to at other widths. -/
theorem mixedModule_tells_widths_apart : ∃ report m' region plans,
    Pass.narrow.run.run mixedModule = .ok report m' ∧ region.width = Pass.narrow.width ∧
      m'.globalNamed? baseSymbol = some region.memoryBase ∧
      m'.globalNamed? widthSymbol = some region.pointerSize ∧ mixedModule.plans = .ok plans ∧
      plans.map Plan.pointerSlots = [[(2, 0), (3, 1), (4, 0), (5, 0)]] ∧
      m'.TellsWidthsApart region plans := by
  have hruns : Pass.narrow.succeeds mixedModule (fun _ _ => true) = true := by decide +kernel
  have hslots : mixedModule.plans.map (·.map Plan.pointerSlots) =
      .ok [[(2, 0), (3, 1), (4, 0), (5, 0)]] := by decide +kernel
  obtain ⟨report, m', hrun, -⟩ := Pass.run_of_succeeds hruns
  obtain ⟨region, plans, hwidth, hbase, hsize, hplans, htells⟩ :=
    Pass.run_tells_widths_apart mixedModule_built (by decide +kernel) hrun
  rw [hplans] at hslots
  exact ⟨report, m', region, plans, hrun, hwidth, hbase, hsize, hplans, Except.ok.inj hslots, htells⟩

end Confinement
