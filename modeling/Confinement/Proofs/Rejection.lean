import Confinement.Proofs.Outcome

/-!
# Why a function is rejected

A function without a plan has an instruction that breaks its rule, and the error says what was met
first: the slots of an access are looked at in order, its length behind its addresses, the operands
of another instruction in order, and the instructions in program order. What can be met is a slot
that is missing, a value without a type, or a type that does not fit (`Func.Offends`). So a plan and
its error are known exactly from the live instructions, and a run ends in the error of the first
function without a plan, whatever else stands against it (`Func.plan_exact`).
-/

set_option autoImplicit false

namespace Confinement

/-! ## The first error -/

section Sequencing

variable {ε α β : Type} {e : ε}

theorem bind_eq_error {x : Except ε α} {g : α → Except ε β} :
    x >>= g = .error e ↔ x = .error e ∨ ∃ a, x = .ok a ∧ g a = .error e := by
  cases x with
  | ok a =>
    constructor
    · intro h
      exact Or.inr ⟨a, rfl, h⟩
    · rintro (h | ⟨a, h, hg⟩)
      · cases h
      · cases h
        exact hg
  | error e' =>
    constructor
    · intro h
      cases h
      exact Or.inl rfl
    · rintro (h | ⟨a, h, -⟩)
      · cases h
        rfl
      · cases h

theorem discard_eq_error {x : Except ε α} : discard x = .error e ↔ x = .error e := by
  cases x with
  | ok a =>
    constructor
    · intro h
      cases h
    · intro h
      cases h
  | error e' =>
    constructor
    · intro h
      cases h
      rfl
    · intro h
      cases h
      rfl

/-- The first entry of a list that does not fit, behind entries that do. -/
def FirstOf (fits misfits : α → Prop) (l : List α) : Prop :=
  ∃ before a after, l = before ++ a :: after ∧ (∀ b ∈ before, fits b) ∧ misfits a

theorem firstOf_nil {fits misfits : α → Prop} : ¬ FirstOf fits misfits [] := by
  rintro ⟨before, a, after, h, -⟩
  cases before <;> cases h

theorem firstOf_cons_iff {fits misfits : α → Prop} {a : α} {l : List α} :
    FirstOf fits misfits (a :: l) ↔ misfits a ∨ (fits a ∧ FirstOf fits misfits l) := by
  constructor
  · rintro ⟨before, b, after, h, hbefore, hb⟩
    cases before with
    | nil =>
      cases h
      exact Or.inl hb
    | cons first before =>
      cases h
      rw [List.forall_mem_cons] at hbefore
      exact Or.inr ⟨hbefore.1, before, b, after, rfl, hbefore.2, hb⟩
  · rintro (ha | ⟨ha, before, b, after, rfl, hbefore, hb⟩)
    · exact ⟨[], a, l, rfl, fun b hmem => absurd hmem List.not_mem_nil, ha⟩
    · exact ⟨a :: before, b, after, rfl, List.forall_mem_cons.mpr ⟨ha, hbefore⟩, hb⟩

theorem FirstOf.congr {fits fits' misfits misfits' : α → Prop} {l : List α}
    (hfits : ∀ a ∈ l, fits a ↔ fits' a) (hmisfits : ∀ a ∈ l, misfits a ↔ misfits' a) :
    FirstOf fits misfits l ↔ FirstOf fits' misfits' l := by
  induction l with
  | nil => exact ⟨fun h => absurd h firstOf_nil, fun h => absurd h firstOf_nil⟩
  | cons a l ih =>
    rw [List.forall_mem_cons] at hfits hmisfits
    rw [firstOf_cons_iff, firstOf_cons_iff, hfits.1, hmisfits.1, ih hfits.2 hmisfits.2]

/-- A check of a list fails at the first entry that does not pass. -/
theorem forM_eq_error {l : List α} {check : α → Except ε Unit} :
    l.forM check = .error e ↔ FirstOf (check · = .ok ()) (check · = .error e) l := by
  induction l with
  | nil => exact ⟨(fun h => by cases h), fun h => absurd h firstOf_nil⟩
  | cons a l ih =>
    show (check a >>= fun _ => l.forM check) = _ ↔ _
    rw [bind_eq_error, firstOf_cons_iff, ← ih]
    refine or_congr_right ⟨?_, ?_⟩
    · rintro ⟨done, ha, h⟩
      exact ⟨ha, h⟩
    · rintro ⟨ha, h⟩
      exact ⟨(), ha, h⟩

theorem option_forM_eq_error {o : Option α} {check : α → Except ε Unit} :
    o.forM check = .error e ↔ ∃ a, o = some a ∧ check a = .error e := by
  cases o with
  | none =>
    constructor
    · intro h
      cases h
    · rintro ⟨a, h, -⟩
      cases h
  | some a => simp

/-- Results are collected up to the first entry that has none. -/
theorem mapM_eq_error {l : List α} {g : α → Except ε β} :
    l.mapM g = .error e ↔ FirstOf (fun a => ∃ b, g a = .ok b) (g · = .error e) l := by
  induction l with
  | nil => exact ⟨(fun h => by cases h), fun h => absurd h firstOf_nil⟩
  | cons a l ih =>
    rw [List.mapM_cons, bind_eq_error, firstOf_cons_iff, ← ih]
    refine or_congr_right ⟨?_, ?_⟩
    · rintro ⟨b, hb, h⟩
      rcases bind_eq_error.mp h with h | ⟨bs, -, h⟩
      · exact ⟨⟨b, hb⟩, h⟩
      · cases h
    · rintro ⟨⟨b, hb⟩, h⟩
      exact ⟨b, hb, bind_eq_error.mpr (Or.inl h)⟩

end Sequencing

namespace Func

variable {f : Func} {symbols : SymbolTable} {id : InstId} {inst : Inst} {kind : InstKind}
  {slot : Nat} {e : Error} {fault : Fault}

/-! ## What can be met -/

/-- The slot of an address holds one. -/
def HoldsPointer (f : Func) (symbols : SymbolTable) (kind : InstKind) (slot : Nat) : Prop :=
  ∃ v pointee, kind.operand? slot = some v ∧ f.valueType symbols v = .ok (.ptr pointee)

/-- What is wrong with a slot in which a type with certain parts is wanted. -/
inductive SlotFault {α : Type} (f : Func) (symbols : SymbolTable) (id : InstId) (kind : InstKind)
    (slot : Nat) (parts : Ty → Option α) (unwanted : Fault) : Fault → Prop
  /-- The slot does not exist. -/
  | missing (hslot : kind.operand? slot = none) :
    SlotFault f symbols id kind slot parts unwanted (.noOperand f.name id slot)
  /-- What the slot holds has no type. -/
  | untyped {v : Value} {fault : Fault} (hslot : kind.operand? slot = some v)
      (htype : f.valueType symbols v = .error fault) :
    SlotFault f symbols id kind slot parts unwanted fault
  /-- What the slot holds has another type. -/
  | unwanted {v : Value} {ty : Ty} (hslot : kind.operand? slot = some v)
      (htype : f.valueType symbols v = .ok ty) (hty : parts ty = none) :
    SlotFault f symbols id kind slot parts unwanted unwanted

/-- What is wrong with the slot of an address. -/
def PointerFault (f : Func) (symbols : SymbolTable) (id : InstId) (kind : InstKind) (slot : Nat) :
    Fault → Prop :=
  f.SlotFault symbols id kind slot Ty.pointee? (.notPointer f.name id slot)

/-- What is wrong with the slot of a length. -/
def LengthFault (f : Func) (symbols : SymbolTable) (id : InstId) (kind : InstKind) (slot : Nat) :
    Fault → Prop :=
  f.SlotFault symbols id kind slot Ty.intBits? (.lengthNotInteger f.name id)

/-- What is wrong with a data operand of an instruction that must carry no address. -/
inductive DataFault (f : Func) (symbols : SymbolTable) (id : InstId) (v : Value) : Error → Prop
  /-- The operand has no type. -/
  | untyped {fault : Fault} (htype : f.valueType symbols v = .error fault) :
    DataFault f symbols id v (.malformed fault)
  /-- The operand is an address. -/
  | pointer {ty : Ty} (htype : f.valueType symbols v = .ok ty) (hty : ty.isPointer = true) :
    DataFault f symbols id v (.uncoveredPointer f.name (f.instText symbols id))

/-- How an instruction breaks its rule, with the error for what is met first. -/
inductive Offends (f : Func) (symbols : SymbolTable) (id : InstId) (kind : InstKind) : Error → Prop
  /-- A slot of an address, behind slots that hold addresses. -/
  | pointer {access : Access} {fault : Fault} (hroute : kind.route = .sandbox access)
      (hfirst : FirstOf (fun slot : PointerSlot => f.HoldsPointer symbols kind slot.index)
        (fun slot => f.PointerFault symbols id kind slot.index fault) access.pointers) :
    Offends f symbols id kind (.malformed fault)
  /-- The length, when the addresses are in order. -/
  | length {access : Access} {slot : Nat} {fault : Fault} (hroute : kind.route = .sandbox access)
      (hpointers : ∀ slot ∈ access.pointers, f.HoldsPointer symbols kind slot.index)
      (hlength : access.length = some slot) (hslot : f.LengthFault symbols id kind slot fault) :
    Offends f symbols id kind (.malformed fault)
  /-- A data operand, behind operands that are in order. -/
  | data {e : Error} (hroute : kind.route = .validate)
      (hfirst : FirstOf (f.HoldsData symbols) (f.DataFault symbols id · e) kind.dataOperands) :
    Offends f symbols id kind e

/-! ## The checks -/

theorem slotValue_eq_error_iff : f.slotValue id slot = .error fault ↔
    f.operand? id slot = none ∧ fault = .noOperand f.name id slot := by
  rw [slotValue]
  cases f.operand? id slot <;> simp [eq_comm]

/-- Reading a slot and taking its type apart fails with what is wrong with the slot. -/
theorem slot_bind_eq_error_iff {α : Type} {take : Ty → Except Fault α} {parts : Ty → Option α}
    {unwanted : Fault} (hi : f.inst? id = some inst)
    (htake : ∀ ty, take ty = .error fault ↔ parts ty = none ∧ fault = unwanted) :
    (f.slotValue id slot >>= fun v => f.valueType symbols v >>= take) = .error fault ↔
      f.SlotFault symbols id inst.kind slot parts unwanted fault := by
  simp only [bind_eq_error, slotValue_eq_ok_iff, slotValue_eq_error_iff, operand?_eq hi]
  constructor
  · rintro (⟨hv, rfl⟩ | ⟨v, hv, hty | ⟨ty, hty, hfault⟩⟩)
    · exact .missing hv
    · exact .untyped hv hty
    · obtain ⟨hnone, rfl⟩ := (htake ty).mp hfault
      exact .unwanted hv hty hnone
  · intro h
    cases h with
    | missing hv => exact Or.inl ⟨hv, rfl⟩
    | untyped hv hty => exact Or.inr ⟨_, hv, Or.inl hty⟩
    | unwanted hv hty hnone => exact Or.inr ⟨_, hv, Or.inr ⟨_, hty, (htake _).mpr ⟨hnone, rfl⟩⟩⟩

theorem slotPointee_eq_error_iff (hi : f.inst? id = some inst) :
    f.slotPointee symbols id slot = .error fault ↔
      f.PointerFault symbols id inst.kind slot fault := by
  apply slot_bind_eq_error_iff hi
  intro ty
  cases ty.pointee? <;> simp [pure, Except.pure, throw, throwThe, MonadExceptOf.throw, eq_comm]

theorem slotBits_eq_error_iff (hi : f.inst? id = some inst) :
    f.slotBits symbols id slot = .error fault ↔ f.LengthFault symbols id inst.kind slot fault := by
  apply slot_bind_eq_error_iff hi
  intro ty
  cases ty.intBits? <;> simp [pure, Except.pure, throw, throwThe, MonadExceptOf.throw, eq_comm]

theorem holdsPointer_iff (hi : f.inst? id = some inst) :
    discard (f.slotPointee symbols id slot) = .ok () ↔ f.HoldsPointer symbols inst.kind slot := by
  rw [discard_eq_ok]
  simp only [slotPointee_eq_ok_iff, operand?_eq hi]
  exact exists_comm

/-- An access is refused for its first slot that does not hold an address, or for its length. -/
theorem checkAccess_eq_error_iff {access : Access} (hi : f.inst? id = some inst) :
    f.checkAccess symbols id access = .error fault ↔
      FirstOf (fun slot : PointerSlot => f.HoldsPointer symbols inst.kind slot.index)
          (fun slot => f.PointerFault symbols id inst.kind slot.index fault) access.pointers ∨
        (∀ slot ∈ access.pointers, f.HoldsPointer symbols inst.kind slot.index) ∧
          ∃ slot, access.length = some slot ∧ f.LengthFault symbols id inst.kind slot fault := by
  rw [checkAccess]
  rw [hi]
  change (do
      access.pointers.forM fun slot => discard (f.slotPointee symbols id slot.index)
      access.length.forM fun slot => discard (f.slotBits symbols id slot)) = _ ↔ _
  simp only [bind_eq_error, forM_eq_error, forM_eq_ok, option_forM_eq_error, discard_eq_error,
    holdsPointer_iff hi, slotPointee_eq_error_iff hi, slotBits_eq_error_iff hi, exists_const]

theorem checkNoPointers_eq_error_iff (hi : f.inst? id = some inst) :
    f.checkNoPointers symbols id = .error e ↔
      FirstOf (f.HoldsData symbols) (f.DataFault symbols id · e) inst.kind.dataOperands := by
  rw [checkNoPointers]
  rw [hi]
  change inst.kind.dataOperands.forM _ = _ ↔ _
  rw [forM_eq_error]
  refine FirstOf.congr (fun v _ => ?_) fun v _ => ?_
  · show _ ↔ ∃ ty, f.valueType symbols v = .ok ty ∧ ty.isPointer = false
    cases f.valueType symbols v with
    | error fault => simp
    | ok ty => cases hty : ty.isPointer <;> simp [hty]
  · constructor
    · intro h
      cases hv : f.valueType symbols v with
      | error fault =>
        rw [hv] at h
        cases h
        exact .untyped hv
      | ok ty =>
        rw [hv] at h
        cases hty : ty.isPointer with
        | false => simp [hty] at h
        | true =>
          simp only [hty, if_true, Except.error.injEq] at h
          exact h ▸ .pointer hv hty
    · intro h
      cases h with
      | untyped hv => simp only [hv]
      | pointer hv hty => simp only [hv, hty, if_true]

/-- An access offends as its check says. -/
theorem offends_iff_checkAccess {access : Access} (hi : f.inst? id = some inst)
    (hr : inst.kind.route = .sandbox access) : f.Offends symbols id inst.kind e ↔
      ∃ fault, f.checkAccess symbols id access = .error fault ∧ .malformed fault = e := by
  simp only [checkAccess_eq_error_iff hi]
  constructor
  · intro h
    cases h with
    | pointer hroute hfirst =>
      cases hr.symm.trans hroute
      exact ⟨_, Or.inl hfirst, rfl⟩
    | length hroute hpointers hlength hslot =>
      cases hr.symm.trans hroute
      exact ⟨_, Or.inr ⟨hpointers, _, hlength, hslot⟩, rfl⟩
    | data hroute => cases hr.symm.trans hroute
  · rintro ⟨fault, hfirst | ⟨hpointers, slot, hlength, hslot⟩, rfl⟩
    · exact .pointer hr hfirst
    · exact .length hr hpointers hlength hslot

/-- So does an instruction that must carry no address. -/
theorem offends_iff_checkNoPointers (hi : f.inst? id = some inst)
    (hr : inst.kind.route = .validate) :
    f.Offends symbols id inst.kind e ↔ f.checkNoPointers symbols id = .error e := by
  rw [checkNoPointers_eq_error_iff hi]
  constructor
  · intro h
    cases h with
    | pointer hroute => cases hr.symm.trans hroute
    | length hroute => cases hr.symm.trans hroute
    | data hroute hfirst => exact hfirst
  · exact .data hr

/-- What may carry addresses never offends. -/
theorem not_offends (hr : kind.route = .whitelisted) : ¬ f.Offends symbols id kind e := by
  intro h
  cases h with
  | pointer hroute => cases hr.symm.trans hroute
  | length hroute => cases hr.symm.trans hroute
  | data hroute => cases hr.symm.trans hroute

theorem planInst_eq_error_iff : f.planInst symbols id = .error e ↔
    ∃ inst, f.inst? id = some inst ∧ f.Offends symbols id inst.kind e := by
  rw [planInst]
  cases hi : f.inst? id with
  | none => simp
  | some inst =>
    simp only [Option.some.injEq, exists_eq_left']
    cases hr : inst.kind.route with
    | whitelisted => simp [not_offends hr]
    | validate =>
      rw [offends_iff_checkNoPointers hi hr]
      cases f.checkNoPointers symbols id <;> simp [Except.map]
    | sandbox access =>
      rw [offends_iff_checkAccess hi hr]
      cases hc : f.checkAccess symbols id access <;> simp [hc]

/-- What offends breaks the rule. -/
theorem Offends.not_obeys (hi : f.inst? id = some inst) (h : f.Offends symbols id inst.kind e) :
    ¬ f.Obeys symbols inst.kind := by
  intro hobeys
  have herror : f.planInst symbols id = .error e := planInst_eq_error_iff.mpr ⟨inst, hi, h⟩
  have hok : f.planInst symbols id = .ok (f.planned? id).toList := by
    refine planInst_eq_ok_iff.mpr ⟨fun other hother => ?_, rfl⟩
    cases hi.symm.trans hother
    exact hobeys
  cases herror.symm.trans hok

/-! ## Plans -/

/-- What is listed under a number keeps its rule, if it is there at all. -/
def Conforms (f : Func) (symbols : SymbolTable) (id : InstId) : Prop :=
  ∀ inst, f.inst? id = some inst → f.Obeys symbols inst.kind

theorem planInsts_eq_error_iff {ids : List InstId} : f.planInsts symbols ids = .error e ↔
    FirstOf (f.Conforms symbols)
      (fun id => ∃ inst, f.inst? id = some inst ∧ f.Offends symbols id inst.kind e) ids := by
  induction ids with
  | nil => exact ⟨(fun h => by cases h), fun h => absurd h firstOf_nil⟩
  | cons id ids ih =>
    rw [planInsts, bind_eq_error, planInst_eq_error_iff, firstOf_cons_iff, ← ih]
    refine or_congr_right ⟨?_, ?_⟩
    · rintro ⟨here, hhere, h⟩
      rcases bind_eq_error.mp h with h | ⟨rest, -, h⟩
      · exact ⟨(planInst_eq_ok_iff.mp hhere).1, h⟩
      · cases h
    · rintro ⟨hconforms, h⟩
      exact ⟨_, planInst_eq_ok_iff.mpr ⟨hconforms, rfl⟩, bind_eq_error.mpr (Or.inl h)⟩

end Func

theorem InstKind.access?_eq_some_iff {kind : InstKind} {access : Access} :
    kind.access? = some access ↔ kind.route = .sandbox access := by
  rw [access?]
  cases kind.route <;> simp

/-- A run reports the first function without a plan, whatever else stands against the module, and
leaves the module alone. -/
theorem Pass.run_reports {pass : Pass} {m : Module} {before after : List Func} {f : Func}
    {e : Error} (hflag : m.hasFlag sandboxedFlag = false) (hm : m.functions = before ++ f :: after)
    (hbefore : ∀ g ∈ before, ∃ plan, g.plan m.symbols = .ok plan)
    (hf : f.plan m.symbols = .error e) : pass.run.run m = .error e m := by
  apply Pass.run_unplanned hflag
  rw [Module.plans, mapM_eq_error]
  exact ⟨before, f, after, hm, hbefore, hf⟩

/-- A function has a plan exactly when each of its live instructions obeys its rule. A plan lists
the live accesses in program order, each once and with its slots. An error is that of the first
instruction in program order that breaks its rule, and a run of the module reports it when the
functions ahead have plans. -/
theorem Func.plan_exact {f : Func} (hf : f.Placed) (symbols : SymbolTable) :
    ((∃ plan, f.plan symbols = .ok plan) ↔
        ∀ id inst, f.inst? id = some inst → f.Obeys symbols inst.kind) ∧
      (∀ plan, f.plan symbols = .ok plan →
        plan = f.order.filterMap f.planned? ∧ (plan.map (·.id)).Nodup ∧
          ∀ planned, planned ∈ plan ↔
            ∃ inst, f.inst? planned.id = some inst ∧ inst.kind.route = .sandbox planned.access) ∧
      (∀ e, f.plan symbols = .error e ↔ ∃ before id after inst, f.order = before ++ id :: after ∧
        (∀ earlier ∈ before, f.Conforms symbols earlier) ∧ f.inst? id = some inst ∧
          ¬ f.Obeys symbols inst.kind ∧ f.Offends symbols id inst.kind e) ∧
      ∀ (pass : Pass) (m : Module) (before after : List Func) (e : Error), m.symbols = symbols →
        m.hasFlag sandboxedFlag = false → m.functions = before ++ f :: after →
        (∀ g ∈ before, ∃ plan, g.plan symbols = .ok plan) → f.plan symbols = .error e →
          pass.run.run m = .error e m := by
  refine ⟨⟨?_, ?_⟩, ?_, ?_, ?_⟩
  · rintro ⟨plan, hplan⟩ id inst hi
    exact (plan_eq_ok_iff.mp hplan).1 id (hf.mem_order.mpr ⟨inst, hi⟩) inst hi
  · intro hall
    exact ⟨_, plan_eq_ok_iff.mpr ⟨fun id _ => hall id, rfl⟩⟩
  · intro plan hplan
    refine ⟨(plan_eq_ok_iff.mp hplan).2, nodup_plan hplan hf.nodup_order, fun planned => ⟨?_, ?_⟩⟩
    · intro hmem
      obtain ⟨inst, hi, ha, -⟩ := accessOk_of_plan hplan hmem
      exact ⟨inst, hi, InstKind.access?_eq_some_iff.mp ha⟩
    · rintro ⟨inst, hi, hroute⟩
      exact mem_plan hplan (hf.mem_order.mpr ⟨inst, hi⟩) hi
        (InstKind.access?_eq_some_iff.mpr hroute)
  · intro e
    rw [plan, planInsts_eq_error_iff]
    constructor
    · rintro ⟨before, id, after, horder, hbefore, inst, hi, hoffends⟩
      exact ⟨before, id, after, inst, horder, hbefore, hi, hoffends.not_obeys hi, hoffends⟩
    · rintro ⟨before, id, after, inst, horder, hbefore, hi, -, hoffends⟩
      exact ⟨before, id, after, horder, hbefore, inst, hi, hoffends⟩
  · rintro pass m before after e rfl hflag hm hbefore he
    exact Pass.run_reports hflag hm hbefore he

/-- A function that reads memory at a number and returns an address. -/
def leak : Func :=
  [.addBlock "entry",
    .append 0 (.load (.arg 1)) (.int 8),
    .append 0 (.ret (some (.arg 0))) .void].foldl Operation.apply
    (.declare "leak" [.ptr (.int 8), .int 32] (.ptr (.int 8)))

/-- Two functions that are in order around one that is not, in a module that defines a symbol of the
region itself. -/
def leakyModule : Module where
  name := "leaky"
  layout := {}
  functions := [foldedLoad, leak, foldedLoad]
  globals := [Width.full.global]
  flags := []

theorem leakyModule_rejected : ¬ leakyModule.AdmitsRegion ∧
    Pass.default.run.run leakyModule =
      .error (.malformed (.notPointer "leak" 0 0)) leakyModule := by
  have hplaced : leak.Placed := ((Func.Built.declare _ _ _).history _).placed
  have hbefore : ∀ g ∈ [foldedLoad], ∃ plan, g.plan leakyModule.symbols = .ok plan := by
    intro g hg
    rw [List.mem_singleton.mp hg]
    exact ⟨_, rfl⟩
  obtain ⟨-, -, -, hrun⟩ := leak.plan_exact hplaced leakyModule.symbols
  exact ⟨by decide +kernel, hrun Pass.default leakyModule [foldedLoad] [foldedLoad] _ rfl rfl rfl
    hbefore rfl⟩

end Confinement
