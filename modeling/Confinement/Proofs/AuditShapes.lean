import Confinement.Audit
import Confinement.Proofs.Success
import Confinement.Proofs.Typing

/-!
# What the audit lets through

The checks of the audit, read backwards: what a value is made of when a check of it succeeds. A
sum is an addition of the loaded base and a widened value (`checkSum_eq_ok_iff`), an address is
converted from a sum, or from a sum plus a constant that leaves the access inside the guard region
(`checkPointer_eq_ok_iff`). A function without findings has at most one load of the base, at the head
of its entry block (`baseFindings_eq_nil`).
-/

set_option autoImplicit false

namespace Confinement.Auditor

variable {a : Auditor} {v address sum constant : Value} {kind : InstKind} {id : InstId}
  {firstClass : Bool}

/-- The kind of a value is that of a live instruction whose result it is. -/
theorem producer?_eq_some_iff {f : Func} :
    f.producer? v = some kind ↔
      ∃ id inst, v = .inst id ∧ f.inst? id = some inst ∧ inst.kind = kind := by
  rw [Func.producer?]
  rw [Option.bind_eq_some_iff]
  constructor
  · rintro ⟨id, hid, h⟩
    obtain ⟨inst, hi, hkind⟩ := Option.map_eq_some_iff.mp h
    exact ⟨id, inst, Value.inst?_eq_some_iff.mp hid, hi, hkind⟩
  · rintro ⟨id, inst, rfl, hi, hkind⟩
    exact ⟨id, rfl, Option.map_eq_some_iff.mpr ⟨inst, hi, hkind⟩⟩

/-- What loads the base is live and a load from its symbol. -/
theorem loadsBase_iff_inst : a.loadsBase id = true ↔ ∃ inst, a.func.inst? id = some inst ∧
    inst.kind = .load (.global a.cx.region.memoryBase) := by
  simp only [loadsBase, Option.any_eq_true, decide_eq_true_eq]

/-- So is the one that the sums are expected to start from. -/
theorem inst?_of_base? {base : InstId} (h : a.base? = some base) : ∃ inst,
    a.func.inst? base = some inst ∧ inst.kind = .load (.global a.cx.region.memoryBase) :=
  loadsBase_iff_inst.mp (List.mem_filter.mp (List.mem_of_head? h)).2

theorem isBase_iff : a.isBase v = true ↔ ∃ base, a.base? = some base ∧ v = .inst base := by
  rw [isBase]
  cases a.base? with
  | none => simp
  | some base => simp

theorem isMask_iff :
    a.isMask v = true ↔ ∃ mask c, a.cx.region.width.mask? = some mask ∧ v = .const c ∧
      c.unsigned? = some mask := by
  rw [isMask]
  cases a.cx.region.width.mask? with
  | none => simp
  | some mask =>
    simp only [decide_eq_true_eq, Option.bind_eq_some_iff, Value.const?_eq_some_iff,
      Option.some.injEq]
    constructor
    · rintro ⟨c, hc, hu⟩
      exact ⟨mask, c, rfl, hc, hu⟩
    · rintro ⟨_, c, rfl, hc, hu⟩
      exact ⟨c, hc, hu⟩

/-- Without a mask everything is masked. -/
theorem isMasked_iff :
    a.isMasked v = true ↔ a.cx.region.width.mask? = none ∨
      ∃ lhs rhs, a.func.producer? v = some (.binary .and lhs rhs) ∧ a.isMask rhs = true := by
  rw [isMasked]
  cases hmask : a.cx.region.width.mask? with
  | none => simp
  | some mask =>
    simp only [reduceCtorEq, false_or]
    split
    · next lhs rhs hp =>
      rw [hp]
      constructor
      · exact fun h => ⟨lhs, rhs, rfl, h⟩
      · rintro ⟨lhs', rhs', he, h⟩
        cases he
        exact h
    · next hp =>
      constructor
      · intro h
        cases h
      · rintro ⟨lhs, rhs, he, -⟩
        exact absurd he (hp lhs rhs)

/-- An offset is a masked integer of 32 bits that is widened by zeros. -/
theorem checkOffset_eq_ok_iff {u : Unit} :
    a.checkOffset v = .ok u ↔ ∃ narrow, a.func.producer? v = some (.cast .zext narrow) ∧
      a.func.HasType a.cx.symbols narrow (.int 32) ∧ a.isMasked narrow = true := by
  unfold checkOffset Func.HasType
  split
  · next narrow hp =>
    rw [hp]
    have hnarrow : ∀ other, some (InstKind.cast .zext narrow) = some (.cast .zext other) ↔
        other = narrow := by
      intro other
      simp [eq_comm]
    simp only [hnarrow, exists_eq_left]
    cases a.func.valueType a.cx.symbols narrow with
    | error fault => simp
    | ok ty =>
      by_cases hty : ty = .int 32
      · subst hty
        cases hm : a.isMasked narrow <;> simp [Ty.isInt]
      · have hisInt : ty.isInt 32 = false := by
          rw [← Bool.not_eq_true, Ty.isInt_iff]
          exact hty
        simp [hisInt, hty]
  · next hp =>
    constructor
    · intro h
      cases h
    · rintro ⟨narrow, he, -⟩
      exact absurd he (hp narrow)

/-- A sum adds an offset to the base. -/
theorem checkSum_eq_ok_iff {u : Unit} :
    a.checkSum v = .ok u ↔ ∃ lhs rhs, a.func.producer? v = some (.binary .add lhs rhs) ∧
      a.isBase lhs = true ∧ a.checkOffset rhs = .ok () := by
  rw [checkSum]
  split
  · next lhs rhs hp =>
    rw [hp]
    constructor
    · intro h
      split at h
      · next hb => exact ⟨lhs, rhs, rfl, hb, h⟩
      · cases h
    · rintro ⟨lhs', rhs', he, hb, h⟩
      cases he
      rw [if_pos hb]
      exact h
  · next hp =>
    constructor
    · intro h
      cases h
    · rintro ⟨lhs, rhs, he, -⟩
      exact absurd he (hp lhs rhs)

theorem pointeeSize_eq_ok_iff {size : Nat} :
    a.pointeeSize address = .ok size ↔ ∃ pointee,
      a.func.HasType a.cx.symbols address (.ptr pointee) ∧
        size = a.cx.layout.storeSize pointee := by
  unfold pointeeSize Func.HasType
  cases a.func.valueType a.cx.symbols address with
  | error fault => simp
  | ok ty => cases ty <;> simp [Ty.pointee?, eq_comm]

/-- A constant added to a sum leaves a single value inside the guard region. -/
theorem checkFolded_eq_ok_iff {u : Unit} :
    a.checkFolded address sum constant firstClass = .ok u ↔ ∃ c offset pointee,
      constant = .const c ∧ c.signed? = some offset ∧ firstClass = true ∧
      a.func.HasType a.cx.symbols address (.ptr pointee) ∧
      StaysInGuard offset (a.cx.layout.storeSize pointee) a.cx.region.width.size ∧
      a.checkSum sum = .ok () := by
  rw [checkFolded]
  cases hc : constant.const?.bind (·.signed?) with
  | none =>
    constructor
    · intro h
      cases h
    · rintro ⟨c, offset, pointee, rfl, hoffset, -⟩
      simp [Value.const?, hoffset] at hc
  | some offset =>
    obtain ⟨c, hconst, hoffset⟩ := Option.bind_eq_some_iff.mp hc
    rw [Value.const?_eq_some_iff] at hconst
    have hparts : ∀ c' offset', constant = .const c' → c'.signed? = some offset' →
        offset' = offset := by
      intro c' offset' he ho
      cases hconst.symm.trans he
      exact Option.some.inj (ho.symm.trans hoffset)
    cases firstClass with
    | false =>
      constructor
      · intro h
        cases h
      · rintro ⟨c', offset', pointee, -, -, hfirst, -⟩
        cases hfirst
    | true =>
      change (a.pointeeSize address >>= fun size =>
        if ¬ StaysInGuard offset size a.cx.region.width.size then .error (.pastGuard offset)
        else a.checkSum sum) = _ ↔ _
      rw [bind_eq_ok]
      constructor
      · rintro ⟨size, hsize, h⟩
        obtain ⟨pointee, hty, rfl⟩ := pointeeSize_eq_ok_iff.mp hsize
        split at h
        · cases h
        · next hguard =>
          exact ⟨c, offset, pointee, hconst, hoffset, rfl, hty, Decidable.not_not.mp hguard, h⟩
      · rintro ⟨c', offset', pointee, he, ho, -, hty, hguard, h⟩
        rw [hparts c' offset' he ho] at hguard
        refine ⟨_, pointeeSize_eq_ok_iff.mpr ⟨pointee, hty, rfl⟩, ?_⟩
        rw [if_neg (Decidable.not_not.mpr hguard)]
        exact h

/-- An address is converted from a sum, or from a sum to which a constant is added. -/
theorem checkPointer_eq_ok_iff {u : Unit} :
    a.checkPointer address firstClass = .ok u ↔ ∃ integer,
      a.func.producer? address = some (.cast .inttoptr integer) ∧
      (a.checkSum integer = .ok () ∨ ∃ lhs rhs,
        a.func.producer? integer = some (.binary .add lhs rhs) ∧ a.isBase lhs = false ∧
        a.checkFolded address lhs rhs firstClass = .ok ()) := by
  rw [checkPointer]
  split
  · next integer hp =>
    rw [hp]
    have hinteger : ∀ other, some (InstKind.cast .inttoptr integer) = some (.cast .inttoptr other) ↔
        other = integer := by
      intro other
      simp [eq_comm]
    simp only [hinteger, exists_eq_left]
    split
    · next lhs rhs hadd =>
      cases hb : a.isBase lhs with
      | true =>
        simp only [if_true]
        constructor
        · exact fun h => Or.inl h
        · rintro (h | ⟨lhs', rhs', he, hb', -⟩)
          · exact h
          · -- a base on the left is never read as a fold
            cases hadd.symm.trans he
            rw [hb] at hb'
            cases hb'
      | false =>
        simp only [Bool.false_eq_true, if_false]
        constructor
        · exact fun h => Or.inr ⟨lhs, rhs, hadd, hb, h⟩
        · rintro (h | ⟨lhs', rhs', he, -, h⟩)
          · -- a sum has the base on the left
            obtain ⟨lhs', rhs', he, hb', -⟩ := checkSum_eq_ok_iff.mp h
            cases hadd.symm.trans he
            rw [hb] at hb'
            cases hb'
          · cases hadd.symm.trans he
            exact h
    · next hadd =>
      constructor
      · exact fun h => Or.inl h
      · rintro (h | ⟨lhs, rhs, he, -⟩)
        · exact h
        · exact absurd he (hadd lhs rhs)
  · next hp =>
    constructor
    · intro h
      cases h
    · rintro ⟨integer, he, -⟩
      exact absurd he (hp integer)

theorem checkLength_eq_ok_iff {u : Unit} : a.checkLength v = .ok u ↔ a.isMasked v = true := by
  rw [checkLength]
  cases a.isMasked v <;> simp

/-! ## Functions without findings -/

theorem finding_eq_nil_iff {site : Site} {outcome : Except Reason Unit} :
    finding id site outcome = [] ↔ outcome = .ok () := by
  cases outcome with
  | ok u => simp [finding]
  | error reason => simp [finding]

theorem checkSlot_eq_ok_iff {slot : Nat} {check : Value → Except Reason Unit} {u : Unit} :
    checkSlot kind slot check = .ok u ↔
      ∃ v, kind.operand? slot = some v ∧ check v = .ok u := by
  rw [checkSlot]
  cases kind.operand? slot <;> simp

theorem accessFindings_eq_nil_iff {access : Access} :
    a.accessFindings id kind access = [] ↔
      (∀ slot ∈ access.pointers, ∃ v, kind.operand? slot.index = some v ∧
        a.checkPointer v slot.firstClass = .ok ()) ∧
      ∀ slot, access.length = some slot → ∃ v, kind.operand? slot = some v ∧
        a.isMasked v = true := by
  rw [accessFindings]
  simp only [List.append_eq_nil_iff, List.flatMap_eq_nil_iff, finding_eq_nil_iff,
    checkSlot_eq_ok_iff, checkLength_eq_ok_iff, Option.mem_toList]

theorem instFindings_eq_nil_iff :
    a.instFindings id = [] ↔ a.loadsBase id = true ∨
      ∀ inst access, a.func.inst? id = some inst → inst.kind.access? = some access →
        a.accessFindings id inst.kind access = [] := by
  rw [instFindings]
  cases hload : a.loadsBase id with
  | true => simp
  | false =>
    cases hi : a.func.inst? id with
    | none => simp
    | some inst =>
      simp only [Bool.false_eq_true, if_false, false_or, Option.some.injEq]
      cases ha : inst.kind.access? with
      | none =>
        constructor
        · rintro - inst' access rfl ha'
          cases ha.symm.trans ha'
        · exact fun _ => rfl
      | some access =>
        constructor
        · rintro h inst' access' rfl ha'
          cases ha.symm.trans ha'
          exact h
        · exact fun h => h inst access rfl ha

/-- There is one load of the base at most, and it stands at the entry. -/
theorem baseFindings_eq_nil (h : a.baseFindings = []) :
    a.baseLoads = [] ∨ ∃ first, a.baseLoads = [first] ∧
      (a.func.block? 0).bind (·.insts.head?) = some first := by
  rw [baseFindings] at h
  rw [List.append_eq_nil_iff] at h
  obtain ⟨honce, hentry⟩ := h
  cases hloads : a.baseLoads with
  | nil => exact Or.inl rfl
  | cons first rest =>
    rw [hloads] at honce hentry
    cases rest with
    | cons second rest =>
      -- a second load is a finding
      cases honce
    | nil =>
      refine Or.inr ⟨first, rfl, Decidable.byContradiction fun hne => ?_⟩
      simp only [hne, if_false, reduceCtorEq] at hentry

end Confinement.Auditor
