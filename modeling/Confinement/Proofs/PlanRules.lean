import Confinement.Access.Plan
import Confinement.Proofs.Success

/-!
# When a function has a plan

Every instruction has a rule that its treatment gives (`Func.Obeys`). A function has a plan exactly
when each of its listed instructions obeys, and the plan then names its accesses with their slots,
in program order (`plan_eq_ok_iff`). What is planned is live and has addresses and lengths in its
slots, and an operand of an instruction that is no access has a type (`carriesNoPointer_of_plan`).
-/

set_option autoImplicit false

namespace Confinement.Func

variable {f : Func} {symbols : SymbolTable} {id : InstId} {inst : Inst} {slot : Nat}

/-! ## Slots -/

theorem operand?_eq (hi : f.inst? id = some inst) (slot : Nat) :
    f.operand? id slot = inst.kind.operand? slot := by
  rw [operand?]
  rw [hi]
  rfl

theorem slotValue_eq_ok_iff {v : Value} :
    f.slotValue id slot = .ok v ↔ f.operand? id slot = some v := by
  rw [slotValue]
  cases f.operand? id slot <;> simp

/-- Reading a slot and taking its type apart succeeds exactly when the type is the one that gives the
result. -/
theorem slot_bind_eq_ok_iff {α : Type} {parts : Ty → Except Fault α} {a : α} {ty : Ty}
    (hparts : ∀ found, parts found = .ok a ↔ found = ty) :
    (f.slotValue id slot >>= fun v => f.valueType symbols v >>= parts) = .ok a ↔
      ∃ v, f.operand? id slot = some v ∧ f.valueType symbols v = .ok ty := by
  rw [bind_eq_ok]
  constructor
  · rintro ⟨v, hv, h⟩
    obtain ⟨found, hfound, h⟩ := bind_eq_ok.mp h
    obtain rfl := (hparts found).mp h
    exact ⟨v, slotValue_eq_ok_iff.mp hv, hfound⟩
  · rintro ⟨v, hv, hty⟩
    exact ⟨v, slotValue_eq_ok_iff.mpr hv, bind_eq_ok.mpr ⟨ty, hty, (hparts ty).mpr rfl⟩⟩

theorem slotPointee_eq_ok_iff {pointee : Ty} :
    f.slotPointee symbols id slot = .ok pointee ↔
      ∃ v, f.operand? id slot = some v ∧ f.valueType symbols v = .ok (.ptr pointee) := by
  apply slot_bind_eq_ok_iff
  intro found
  rw [← Ty.pointee?_eq_some_iff]
  cases found.pointee? <;> simp [pure, Except.pure]

theorem slotBits_eq_ok_iff {bits : Nat} :
    f.slotBits symbols id slot = .ok bits ↔
      ∃ v, f.operand? id slot = some v ∧ f.valueType symbols v = .ok (.int bits) := by
  apply slot_bind_eq_ok_iff
  intro found
  rw [← Ty.intBits?_eq_some_iff]
  cases found.intBits? <;> simp [pure, Except.pure]

/-! ## Rules -/

/-- An access has addresses and an integer length where its slots say. -/
structure AccessOk (f : Func) (symbols : SymbolTable) (kind : InstKind) (access : Access) :
    Prop where
  pointer : ∀ slot ∈ access.pointers, ∃ v pointee,
    kind.operand? slot.index = some v ∧ f.valueType symbols v = .ok (.ptr pointee)
  length : ∀ slot, access.length = some slot → ∃ v bits,
    kind.operand? slot = some v ∧ f.valueType symbols v = .ok (.int bits)

/-- The data operands of an instruction have types, and none of these is an address. -/
def CarriesNoPointer (f : Func) (symbols : SymbolTable) (kind : InstKind) : Prop :=
  ∀ v ∈ kind.dataOperands, ∃ ty, f.valueType symbols v = .ok ty ∧ ty.isPointer = false

/-- What the treatment of an instruction asks of it. -/
def Obeys (f : Func) (symbols : SymbolTable) (kind : InstKind) : Prop :=
  match kind.route with
  | .whitelisted => True
  | .validate => f.CarriesNoPointer symbols kind
  | .sandbox access => f.AccessOk symbols kind access

/-- The entry of an instruction in a plan, if it is an access. -/
def planned? (f : Func) (id : InstId) : Option Planned :=
  (f.inst? id).bind fun inst => inst.kind.access?.map fun access => { id, access }

theorem planned?_eq_some_iff {planned : Planned} :
    f.planned? id = some planned ↔ planned.id = id ∧
      ∃ inst, f.inst? id = some inst ∧ inst.kind.access? = some planned.access := by
  rw [planned?]
  rw [Option.bind_eq_some_iff]
  constructor
  · rintro ⟨inst, hi, h⟩
    rw [Option.map_eq_some_iff] at h
    obtain ⟨access, ha, rfl⟩ := h
    exact ⟨rfl, inst, hi, ha⟩
  · rintro ⟨rfl, inst, hi, ha⟩
    exact ⟨inst, hi, by rw [ha]; rfl⟩

theorem checkAccess_eq_ok_iff (hi : f.inst? id = some inst) {access : Access} :
    f.checkAccess symbols id access = .ok () ↔ f.AccessOk symbols inst.kind access := by
  rw [checkAccess]
  rw [hi]
  change (do
      access.pointers.forM fun slot => discard (f.slotPointee symbols id slot.index)
      access.length.forM fun slot => discard (f.slotBits symbols id slot)) = _ ↔ _
  rw [bind_eq_ok]
  constructor
  · rintro ⟨done, hp, hl⟩
    rw [forM_eq_ok] at hp
    rw [option_forM_eq_ok] at hl
    refine ⟨fun slot hslot => ?_, fun slot hslot => ?_⟩
    · obtain ⟨pointee, h⟩ := discard_eq_ok.mp (hp slot hslot)
      obtain ⟨v, hv, hty⟩ := slotPointee_eq_ok_iff.mp h
      exact ⟨v, pointee, (operand?_eq hi _).symm.trans hv, hty⟩
    · obtain ⟨bits, h⟩ := discard_eq_ok.mp (hl slot hslot)
      obtain ⟨v, hv, hty⟩ := slotBits_eq_ok_iff.mp h
      exact ⟨v, bits, (operand?_eq hi _).symm.trans hv, hty⟩
  · rintro ⟨hp, hl⟩
    refine ⟨(), forM_eq_ok.mpr fun slot hslot => ?_, option_forM_eq_ok.mpr fun slot hslot => ?_⟩
    · obtain ⟨v, pointee, hv, hty⟩ := hp slot hslot
      exact discard_eq_ok.mpr ⟨pointee,
        slotPointee_eq_ok_iff.mpr ⟨v, (operand?_eq hi _).trans hv, hty⟩⟩
    · obtain ⟨v, bits, hv, hty⟩ := hl slot hslot
      exact discard_eq_ok.mpr ⟨bits,
        slotBits_eq_ok_iff.mpr ⟨v, (operand?_eq hi _).trans hv, hty⟩⟩

theorem checkNoPointers_eq_ok_iff (hi : f.inst? id = some inst) {u : Unit} :
    f.checkNoPointers symbols id = .ok u ↔ f.CarriesNoPointer symbols inst.kind := by
  unfold checkNoPointers CarriesNoPointer
  rw [hi]
  change inst.kind.dataOperands.forM _ = _ ↔ _
  rw [forM_eq_ok]
  refine forall₂_congr fun v _ => ?_
  cases f.valueType symbols v with
  | error fault => simp
  | ok ty => cases h : ty.isPointer <;> simp [h]

theorem planInst_eq_ok_iff {plan : Plan} :
    f.planInst symbols id = .ok plan ↔
      (∀ inst, f.inst? id = some inst → f.Obeys symbols inst.kind) ∧
        plan = (f.planned? id).toList := by
  rw [planInst]
  cases hi : f.inst? id with
  | none =>
    simp [planned?, hi, eq_comm]
  | some inst =>
    have hentry : f.planned? id = inst.kind.access?.map fun access => { id, access } := by
      rw [planned?]
      rw [hi]
      rfl
    simp only [Option.some.injEq, forall_eq', hentry, Obeys, InstKind.access?]
    -- the three treatments are the three rules
    cases hr : inst.kind.route with
    | whitelisted => simp [eq_comm]
    | validate =>
      have hcheck : f.checkNoPointers symbols id = .ok () ↔ _ := checkNoPointers_eq_ok_iff hi
      cases hc : f.checkNoPointers symbols id with
      | ok u => simp [← hcheck, hc, Except.map, eq_comm]
      | error e => simp [← hcheck, hc, Except.map]
    | sandbox access =>
      have hcheck : f.checkAccess symbols id access = .ok () ↔ _ := checkAccess_eq_ok_iff hi
      cases hc : f.checkAccess symbols id access with
      | ok u => simp [← hcheck, hc, eq_comm]
      | error e => simp [← hcheck, hc]

theorem planInsts_eq_ok_iff {ids : List InstId} {plan : Plan} :
    f.planInsts symbols ids = .ok plan ↔
      (∀ id ∈ ids, ∀ inst, f.inst? id = some inst → f.Obeys symbols inst.kind) ∧
        plan = ids.filterMap f.planned? := by
  induction ids generalizing plan with
  | nil => simp [planInsts, eq_comm]
  | cons id ids ih =>
    rw [planInsts, bind_eq_ok, List.forall_mem_cons, List.filterMap_cons]
    constructor
    · rintro ⟨here, hhere, hrest⟩
      obtain ⟨rest, hids, hplan⟩ := bind_eq_ok.mp hrest
      obtain ⟨hobeys, rfl⟩ := planInst_eq_ok_iff.mp hhere
      obtain ⟨hall, rfl⟩ := ih.mp hids
      cases hplan
      refine ⟨⟨hobeys, hall⟩, ?_⟩
      cases f.planned? id <;> rfl
    · rintro ⟨⟨hobeys, hall⟩, rfl⟩
      refine ⟨_, planInst_eq_ok_iff.mpr ⟨hobeys, rfl⟩,
        bind_eq_ok.mpr ⟨_, ih.mpr ⟨hall, rfl⟩, ?_⟩⟩
      cases f.planned? id <;> rfl

/-- A function has a plan exactly when its listed instructions obey their rules, and the plan is made
of its accesses. -/
theorem plan_eq_ok_iff {plan : Plan} :
    f.plan symbols = .ok plan ↔
      (∀ id ∈ f.order, ∀ inst, f.inst? id = some inst → f.Obeys symbols inst.kind) ∧
        plan = f.order.filterMap f.planned? :=
  planInsts_eq_ok_iff

/-! ## What a plan says about the function -/

variable {plan : Plan}

/-- Every entry is a live access with addresses and lengths in its slots. -/
theorem accessOk_of_plan (h : f.plan symbols = .ok plan) {planned : Planned} (hp : planned ∈ plan) :
    ∃ inst, f.inst? planned.id = some inst ∧ inst.kind.access? = some planned.access ∧
      f.AccessOk symbols inst.kind planned.access := by
  obtain ⟨hobeys, rfl⟩ := plan_eq_ok_iff.mp h
  obtain ⟨id, hid, hentry⟩ := List.mem_filterMap.mp hp
  obtain ⟨rfl, inst, hi, ha⟩ := planned?_eq_some_iff.mp hentry
  refine ⟨inst, hi, ha, ?_⟩
  have hrule := hobeys planned.id hid inst hi
  rw [Obeys] at hrule
  rw [InstKind.access?] at ha
  cases hr : inst.kind.route with
  | sandbox access =>
    rw [hr] at hrule ha
    cases ha
    exact hrule
  | whitelisted =>
    rw [hr] at ha
    cases ha
  | validate =>
    rw [hr] at ha
    cases ha

/-- A listed access is an entry. -/
theorem mem_plan (h : f.plan symbols = .ok plan) (hid : id ∈ f.order) (hi : f.inst? id = some inst)
    {access : Access} (ha : inst.kind.access? = some access) :
    ({ id, access } : Planned) ∈ plan := by
  obtain ⟨-, rfl⟩ := plan_eq_ok_iff.mp h
  exact List.mem_filterMap.mpr ⟨id, hid, planned?_eq_some_iff.mpr ⟨rfl, inst, hi, ha⟩⟩

/-- Where nothing is planned, no listed instruction is an access. -/
theorem access?_eq_none_of_plan (h : f.plan symbols = .ok []) (hid : id ∈ f.order)
    (hi : f.inst? id = some inst) : inst.kind.access? = none := by
  cases ha : inst.kind.access? with
  | none => rfl
  | some access => exact absurd (mem_plan h hid hi ha) List.not_mem_nil

/-- A body without blocks has no access. -/
theorem blocks_ne_nil_of_plan (h : f.plan symbols = .ok plan) (hplan : plan ≠ []) :
    f.blocks ≠ [] := by
  intro hblocks
  obtain ⟨-, rfl⟩ := plan_eq_ok_iff.mp h
  rw [Func.order, hblocks] at hplan
  exact hplan rfl

/-- Without repetition in the program order there is none in the plan. -/
theorem nodup_plan (h : f.plan symbols = .ok plan) (ho : f.order.Nodup) :
    (plan.map (·.id)).Nodup := by
  obtain ⟨-, rfl⟩ := plan_eq_ok_iff.mp h
  -- the planned numbers are listed in the program order, some of them left out
  refine List.Nodup.sublist ?_ ho
  generalize f.order = ids
  induction ids with
  | nil => exact List.Sublist.slnil
  | cons id ids ih =>
    rw [List.filterMap_cons]
    split
    · exact ih.cons id
    · next planned hentry =>
      rw [List.map_cons, (planned?_eq_some_iff.mp hentry).1]
      exact ih.cons_cons id

/-- The operands of an instruction that must not carry addresses have types. -/
theorem carriesNoPointer_of_plan (h : f.plan symbols = .ok plan) (hid : id ∈ f.order)
    (hi : f.inst? id = some inst) (hr : inst.kind.route = .validate) :
    f.CarriesNoPointer symbols inst.kind := by
  have hrule := (plan_eq_ok_iff.mp h).1 id hid inst hi
  rw [Obeys] at hrule
  rw [hr] at hrule
  exact hrule

/-- A value that has a type names no instruction number that is still to be given out. -/
theorem lt_size_of_valueType {v : Value} {ty : Ty} (h : f.valueType symbols v = .ok ty)
    {other : InstId} (hv : v = .inst other) : other < f.cells.size := by
  subst hv
  rw [valueType] at h
  cases hi : f.inst? other with
  | none =>
    simp only [hi] at h
    cases h
  | some inst => exact lt_size_of_inst? hi

/-- The addresses of a planned access name no instruction number that is still to be given out. -/
theorem AccessOk.lt_size {kind : InstKind} {access : Access} (h : f.AccessOk symbols kind access)
    {slot : PointerSlot} (hslot : slot ∈ access.pointers) {other : InstId}
    (hv : kind.operand? slot.index = some (.inst other)) : other < f.cells.size := by
  obtain ⟨v, pointee, hv', hty⟩ := h.pointer slot hslot
  cases hv.symm.trans hv'
  exact lt_size_of_valueType hty rfl

end Confinement.Func
