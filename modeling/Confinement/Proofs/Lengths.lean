import Confinement.Proofs.AuditComplete

/-!
# Masked lengths before the audit

A length is masked in its own type, and the audit looks for the mask of the width. A type that is too
narrow for the mask cannot hold it: the constant that is written is the low bits of the mask, and the
audit does not take it for the mask (`Auditor.isMask_int_iff`). So the audit objects to a length that
was masked exactly when its type has fewer bits than the width (`Edit.confineLength_audited_iff`).
-/

set_option autoImplicit false

namespace Confinement

open Func

/-! ## The mask in a type -/

/-- The unsigned reading of a constant fits its type. -/
theorem Constant.lt_of_unsigned?_ofInt {bits n : Nat} {value : Int}
    (h : (Constant.ofInt bits value).unsigned? = some n) : n < 2 ^ bits := by
  have hread : (value.bmod (Nat.pow 2 (storedBits bits)) %
      (Nat.pow 2 (min bits 64) : Nat)).toNat = n := Option.some.inj h
  have hpos : 0 < Nat.pow 2 (min bits 64) := Nat.two_pow_pos _
  have hnonneg := Int.emod_nonneg (value.bmod (Nat.pow 2 (storedBits bits)))
    (Int.natCast_ne_zero.mpr (Nat.ne_of_gt hpos))
  have hlt := Int.emod_lt_of_pos (value.bmod (Nat.pow 2 (storedBits bits)))
    (Int.natCast_pos.mpr hpos)
  calc n < Nat.pow 2 (min bits 64) := by omega
    _ ≤ 2 ^ bits := Nat.pow_le_pow_right (by omega) (Nat.min_le_left bits 64)

/-- A type holds the mask of a width exactly when it has the bits of the width. -/
theorem Auditor.isMask_int_iff {a : Auditor} {bits mask : Nat}
    (hmask : a.cx.region.width.mask? = some mask) :
    a.isMask (.int bits mask) = true ↔ a.cx.region.width.bits ≤ bits := by
  refine ⟨fun h => ?_, isMask_int hmask⟩
  obtain ⟨mask', c, hmask', hc, hread⟩ := isMask_iff.mp h
  cases hmask.symm.trans hmask'
  cases hc
  have hlt := Constant.lt_of_unsigned?_ofInt hread
  obtain ⟨-, hvalue⟩ := Width.mask?_eq_some_iff.mp hmask
  rw [Width.size_eq] at hvalue
  by_contra hnarrow
  -- a mask of more bits than the type is larger than every number of the type
  have hpos := a.cx.region.width.pos
  have hhalf : 2 ^ bits ≤ 2 ^ (a.cx.region.width.bits - 1) :=
    Nat.pow_le_pow_right (by omega) (by omega)
  have hdouble : 2 ^ a.cx.region.width.bits = 2 * 2 ^ (a.cx.region.width.bits - 1) := by
    rw [← Nat.pow_succ', Nat.succ_eq_add_one, Nat.sub_add_cancel hpos]
  omega

/-- A value that is masked by the mask in a type passes for masked when the type holds the mask. -/
theorem Auditor.isMasked_iff_of_producer? {a : Auditor} {v length : Value} {bits mask : Nat}
    (hmask : a.cx.region.width.mask? = some mask)
    (hv : a.func.producer? v = some (.binary .and length (.int bits mask))) :
    a.isMasked v = true ↔ a.cx.region.width.bits ≤ bits := by
  rw [isMasked_iff, ← isMask_int_iff hmask]
  constructor
  · rintro (hnone | ⟨lhs, rhs, hproducer, hrhs⟩)
    · cases hmask.symm.trans hnone
    · cases hv.symm.trans hproducer
      exact hrhs
  · exact fun h => Or.inr ⟨length, _, hv, h⟩

/-! ## Findings on a length -/

namespace Auditor

variable {a : Auditor} {id other : InstId} {site : Site} {slot : Nat} {reason : Reason}
  {outcome : Except Reason Unit} {found : Finding}

theorem mem_finding_iff :
    found ∈ finding id site outcome ↔ ∃ reason, outcome = .error reason ∧
      found = { id, site, reason } := by
  cases outcome with
  | ok u => simp [finding]
  | error reason => simp [finding]

/-- What is found on the slots of an access. -/
theorem mem_accessFindings_iff {kind : InstKind} {access : Access} :
    found ∈ a.accessFindings id kind access ↔
      (∃ pointer ∈ access.pointers, found ∈ finding id (.pointer pointer.index)
        (checkSlot kind pointer.index fun v => a.checkPointer v pointer.firstClass)) ∨
      ∃ slot, access.length = some slot ∧
        found ∈ finding id (.length slot) (checkSlot kind slot a.checkLength) := by
  rw [accessFindings]
  simp only [List.mem_append, List.mem_flatMap, Option.mem_toList]

theorem site_of_mem_baseFindings (h : found ∈ a.baseFindings) : found.site = .base := by
  rw [baseFindings, List.mem_append] at h
  rcases h with h | h
  · split at h
    · rw [List.mem_singleton.mp h]
    · cases h
  · split at h
    · cases h
    · split at h
      · cases h
      · rw [List.mem_singleton.mp h]

/-- What loads the base has no length. -/
theorem loadsBase_eq_false {inst : Inst} {access : Access} (hi : a.func.inst? id = some inst)
    (ha : inst.kind.access? = some access) (hs : access.length = some slot) :
    a.loadsBase id = false := by
  rw [← Bool.not_eq_true, loadsBase_iff_inst]
  rintro ⟨found, hfound, hkind⟩
  cases hi.symm.trans hfound
  rw [hkind] at ha
  cases ha
  cases hs

/-- A length is objected to when its instruction is listed and the check of the slot fails. -/
theorem mem_findings_length_iff :
    ({ id, site := .length slot, reason } : Finding) ∈ a.findings ↔ id ∈ a.func.order ∧
      ∃ inst access, a.func.inst? id = some inst ∧ inst.kind.access? = some access ∧
        access.length = some slot ∧ checkSlot inst.kind slot a.checkLength = .error reason := by
  rw [findings, List.mem_append, List.mem_flatMap]
  constructor
  · rintro (hbase | ⟨other, hlisted, hfound⟩)
    · cases site_of_mem_baseFindings hbase
    · rw [instFindings] at hfound
      split at hfound
      · cases hfound
      · split at hfound
        · cases hfound
        · next inst hi =>
          split at hfound
          · cases hfound
          · next access ha =>
            rcases mem_accessFindings_iff.mp hfound with ⟨pointer, -, hfinding⟩ |
              ⟨slot', hs, hfinding⟩
            · obtain ⟨reason', -, he⟩ := mem_finding_iff.mp hfinding
              cases he
            · obtain ⟨reason', herror, he⟩ := mem_finding_iff.mp hfinding
              cases he
              exact ⟨hlisted, inst, access, hi, ha, hs, herror⟩
  · rintro ⟨hlisted, inst, access, hi, ha, hs, herror⟩
    refine Or.inr ⟨id, hlisted, ?_⟩
    rw [instFindings]
    simp only [loadsBase_eq_false hi ha hs, Bool.false_eq_true, if_false, hi, ha]
    exact mem_accessFindings_iff.mpr (Or.inr ⟨slot, hs, mem_finding_iff.mpr ⟨reason, herror, rfl⟩⟩)

end Auditor

/-! ## A masked length -/

namespace Edit

variable {f g : Func} {cx : Context} {id : InstId} {slot bits : Nat} {inst : Inst}
  {access : Access} {v : Value}

/-- An instruction stays listed when another one is put before it. -/
theorem mem_order_insertBefore {kind : InstKind} {ty : Ty} {new : InstId}
    (hrun : (insertBefore id kind ty).run f = .ok new g) : id ∈ g.order := by
  obtain ⟨b, place, hplace, -, rfl⟩ := (insertBefore_serves f id kind ty).of_ok hrun
  obtain ⟨inst, block, -, -, hblock, hidx⟩ := place?_eq_some hplace
  obtain ⟨hlt, hat, -⟩ := List.idxOf?_eq_some_iff.mp hidx
  have hmem : id ∈ block.insts.insertIdx place f.cells.size := by
    rw [List.mem_insertIdx (Nat.le_of_lt hlt)]
    exact Or.inr (hat ▸ List.getElem_mem hlt)
  have hlisted : (((f.countUses kind.operands).addCell { kind, ty, block := b, loc := none }).relist
      b (·.insertIdx place f.cells.size)).block? b =
        some { block with insts := block.insts.insertIdx place f.cells.size } := by
    rw [block?_relist, block?_numbered, hblock, Option.map_some, if_pos rfl]
  exact List.mem_flatMap.mpr ⟨_, List.mem_of_getElem? hlisted, hmem⟩

/-- What masking a length leaves: the access is listed, and reads its length through the mask that
its type holds. -/
theorem confineLength_masks (hi : f.inst? id = some inst) (hv : inst.kind.operand? slot = some v)
    (hty : f.HasType cx.symbols v (.int bits))
    (hrun : (confineLength cx id slot).run f = .ok true g) :
    id ∈ g.order ∧ ∃ mask kept, cx.region.width.mask? = some mask ∧
      g.inst? id = some { inst with kind := inst.kind.setOperand slot (.inst kept) } ∧
      g.producer? (.inst kept) = some (.binary .and v (.int bits mask)) := by
  rcases confineLength_eq_ok hrun with ⟨-, hfalse, -⟩ |
    ⟨mask, length, found, kept, mid, hmask, -, hlength, hbits, hinsert, hreplace⟩
  · cases hfalse
  · rw [operand?_eq hi] at hlength
    cases hv.symm.trans hlength
    cases hty.symm.trans hbits
    have hlisted := mem_order_insertBefore hinsert
    obtain ⟨rfl, -, b, hmid⟩ := inst?_insertBefore hinsert
    obtain ⟨_, _, -, -, rfl⟩ := (replaceOperand_serves mid id slot _).of_ok hreplace
    obtain ⟨found, -, hfound, -, -, hlater⟩ := inst?_replaceOperand hreplace
    have hne : id ≠ f.cells.size := Nat.ne_of_lt (lt_size_of_inst? hi)
    rw [hmid, if_neg hne] at hfound
    cases hi.symm.trans hfound
    have hkept := hlater f.cells.size
    rw [if_neg hne.symm, hmid, if_pos rfl] at hkept
    refine ⟨?_, mask, f.cells.size, hmask, by rw [hlater, if_pos rfl],
      Auditor.producer?_eq_some_iff.mpr ⟨_, _, rfl, hkept, rfl⟩⟩
    rw [Func.order, blocks_countUse, blocks_uncountUse]
    exact hlisted

/-- The audit objects to a length that was masked exactly when the type of the length has fewer bits
than the width. -/
theorem confineLength_audited_iff (hi : f.inst? id = some inst)
    (ha : inst.kind.access? = some access) (hs : access.length = some slot)
    (hv : inst.kind.operand? slot = some v) (hty : f.HasType cx.symbols v (.int bits))
    (hrun : (confineLength cx id slot).run f = .ok true g) (m : Module) :
    (∃ reason, ({ id, site := .length slot, reason } : Finding) ∈
      ({ func := g, cx := m.context cx.region } : Auditor).findings) ↔
      bits < cx.region.width.bits := by
  obtain ⟨hlisted, mask, kept, hmask, hlater, hkept⟩ := confineLength_masks hi hv hty hrun
  have hread : (inst.kind.setOperand slot (.inst kept)).operand? slot = some (.inst kept) :=
    InstKind.operand?_setOperand_self _ (List.getElem?_eq_some_iff.mp hv).1
  have haccess : (inst.kind.setOperand slot (.inst kept)).access? = some access :=
    (InstKind.access?_setOperand _ _ _).trans ha
  have hmasked := Auditor.isMasked_iff_of_producer?
    (a := { func := g, cx := m.context cx.region }) hmask hkept
  simp only [Auditor.mem_findings_length_iff]
  constructor
  · rintro ⟨reason, -, found, access', hfound, -, -, hcheck⟩
    cases hlater.symm.trans hfound
    by_contra hwide
    have hok := (Auditor.checkLength_eq_ok_iff (u := ())).mpr (hmasked.mpr (Nat.not_lt.mp hwide))
    rw [Auditor.checkSlot, hread] at hcheck
    cases hok.symm.trans hcheck
  · intro hnarrow
    refine ⟨.lengthNotMasked, hlisted, _, access, hlater, haccess, hs, ?_⟩
    have hnot := mt hmasked.mp (Nat.not_le.mpr hnarrow)
    rw [Auditor.checkSlot, hread]
    show Auditor.checkLength _ (.inst kept) = _
    rw [Auditor.checkLength, if_neg hnot]

end Edit

/-! ## Lengths of 64 and of 8 bits -/

/-- A function that fills bytes through a parameter, as many as a parameter of some bits says. -/
def filler (bits : Nat) : Func :=
  [.addBlock "entry",
    .append 0 (.intrinsic .memset [.arg 0, .int 8 0, .arg 1]) .void,
    .append 0 (.ret none) .void].foldl Operation.apply
    (.declare "fill" [.ptr (.int 8), .int bits] .void)

/-- A module of this function alone. -/
def fillerModule (bits : Nat) : Module where
  name := "fill"
  layout := {}
  functions := [filler bits]
  globals := []
  flags := []

/-- A region of 16 bits. -/
def shortRegion : Region where
  width := ⟨16, Nat.le_of_ble_eq_true rfl, Nat.le_of_ble_eq_true rfl⟩
  memoryBase := 0
  pointerSize := 1

/-- What masking the length of `filler` leaves passes a check. -/
def fillerMasked (bits : Nat) (check : Auditor → Bool) : Bool :=
  match (Edit.confineLength ((fillerModule bits).context shortRegion) 0 2).run (filler bits) with
  | .ok masked func => masked && check { func, cx := (fillerModule bits).context shortRegion }
  | .error _ _ => false

theorem filler_masked (bits : Nat) (check : Auditor → Bool) (h : fillerMasked bits check = true) :
    ∃ g, (Edit.confineLength ((fillerModule bits).context shortRegion) 0 2).run (filler bits) =
      .ok true g ∧ check { func := g, cx := (fillerModule bits).context shortRegion } = true := by
  rw [fillerMasked] at h
  split at h
  · next masked g hrun =>
    obtain ⟨rfl, hcheck⟩ := (Bool.and_eq_true _ _).mp h
    exact ⟨g, hrun, hcheck⟩
  · cases h

/-- A masked length of 64 bits is accepted. -/
theorem filler_wide_accepted : ∃ g,
    (Edit.confineLength ((fillerModule 64).context shortRegion) 0 2).run (filler 64) =
      .ok true g ∧
    ¬ ∃ reason, ({ id := 0, site := .length 2, reason } : Finding) ∈
      ({ func := g, cx := (fillerModule 64).context shortRegion } : Auditor).findings := by
  obtain ⟨g, hrun, -⟩ := filler_masked 64 (fun _ => true) (by decide +kernel)
  have hty : (filler 64).HasType (fillerModule 64).symbols (.arg 1) (.int 64) := rfl
  have hexact := Edit.confineLength_audited_iff (f := filler 64) rfl rfl rfl rfl hty hrun
    (fillerModule 64)
  exact ⟨g, hrun, fun hfound => absurd (hexact.mp hfound) (by decide)⟩

/-- A masked length of 8 bits is objected to, though the same region is the reason to mask it. -/
theorem filler_narrow_rejected : (filler 8).HasType (fillerModule 8).symbols (.arg 1) (.int 8) ∧
    (filler 8).inst? 0 =
      some ⟨.intrinsic .memset [.arg 0, .int 8 0, .arg 1], .void, 0, none⟩ ∧ ∃ g,
    (Edit.confineLength ((fillerModule 8).context shortRegion) 0 2).run (filler 8) = .ok true g ∧
      ({ id := 0, site := .length 2, reason := .lengthNotMasked } : Finding) ∈
        ({ func := g, cx := (fillerModule 8).context shortRegion } : Auditor).findings := by
  obtain ⟨g, hrun, hfound⟩ := filler_masked 8
    (fun a => { id := 0, site := .length 2, reason := .lengthNotMasked } ∈ a.findings)
    (by decide +kernel)
  exact ⟨rfl, rfl, g, hrun, of_decide_eq_true hfound⟩

end Confinement
