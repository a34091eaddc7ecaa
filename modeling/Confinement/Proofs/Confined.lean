import Confinement.Proofs.Bodies
import Confinement.Proofs.Runs
import Confinement.Proofs.Typing

/-!
# Confinement

After a successful run every access of every body goes through addresses that were computed for it.
Whatever the parameters, the symbols, the results of the original instructions and the base may be,
such an address is the base plus the low bits of the address that the program had, or plus those of an
index and a small constant, in which case the access ends inside the guard region
(`Pass.run_confines`).
-/

set_option autoImplicit false

namespace Confinement

open Func

/-! ## Values in a sandboxed body -/

/-- The constant of a fold leaves an access of its size inside the guard region. -/
theorem Func.offset_of_fold? {f : Func} {address : Value} {size subspace : Nat} {fold : Fold}
    (h : f.fold? address size subspace = some fold) : fold.offset + size ≤ subspace := by
  obtain ⟨-, -, -, -, offset, -, -, -, -, -, -, hguard, hfold⟩ := Func.fold?_eq_some_iff.mp h
  obtain ⟨-, hsize, hoffset⟩ := hguard
  omega

/-- The constant is its own signed reading in 64 bits. -/
theorem Func.offset_lt_of_fold? {f : Func} {address : Value} {size : Nat} {width : Width}
    {fold : Fold} (h : f.fold? address size width.size = some fold) :
    fold.offset < 0x8000000000000000 := by
  have := offset_of_fold? h
  have := width.size_le
  omega

/-- It was recognised as one that stays in the guard region. -/
theorem Func.staysInGuard_of_fold? {f : Func} {address : Value} {size subspace : Nat} {fold : Fold}
    (h : f.fold? address size subspace = some fold) : StaysInGuard fold.offset size subspace := by
  have := offset_of_fold? h
  exact ⟨Int.natCast_nonneg _, by omega, by omega⟩

/-- Where narrow additions add narrow operands, the index of a fold has 32 bits. -/
theorem Func.index_lt_of_fold? {f : Func} {m : Module} {address : Value}
    {size subspace : Nat} {fold : Fold} {ρ : Valuation}
    (hadds : ∀ id inst, f.inst? id = some inst → f.narrowAdd m.symbols inst = true)
    (h : f.fold? address size subspace = some fold) (hρ : ρ.Fits f) :
    ρ.value fold.index < 2 ^ 32 := by
  obtain ⟨-, -, addInst, c, offset, -, -, hadd, haddTy, haddKind, -⟩ :=
    Func.fold?_eq_some_iff.mp h
  obtain ⟨hindex, -⟩ := narrowAdd_binary (hadds fold.add addInst hadd) haddKind haddTy
  exact Valuation.value_lt hρ hindex

namespace Func

variable {f g : Func} {cx : Context} {base : Option InstId} {symbols table : SymbolTable}
  {plan : Plan} {id b q : InstId} {inst : Inst} {access : Access} {slot : PointerSlot}
  {address : Value}

/-- A treated access is one of the plan. -/
theorem Treated.accessOk {planned : Planned} (ht : f.Treated g cx base planned) (hf : f.Placed)
    (hplan : f.plan symbols = .ok plan) :
    ∃ inst, f.inst? planned.id = some inst ∧ f.AccessOk symbols inst.kind planned.access := by
  obtain ⟨old, -, hold, -, ha, -⟩ := ht.live
  have hmem := mem_plan hplan (hf.mem_order.mpr ⟨old, hold⟩) hold ha
  obtain ⟨inst, hi, -, hok⟩ := accessOk_of_plan hplan hmem
  exact ⟨inst, hi, hok⟩

/-- The load of the base has any result. -/
theorem Inserted.result_load {n : Nat} {ptr : Value} {ty : Ty} (hb : g.Inserted n b (.load ptr) ty)
    (ρ : Valuation) : (ρ.after g table n).result b = ρ.result b := by
  obtain ⟨-, inst, hi, hkind, -⟩ := hb
  refine Valuation.result_after hi fun σ => ?_
  rw [Valuation.eval?, hkind]

/-- What lands is converted to an address. -/
theorem Lands.inserted {n : Nat} {width : Width} {ty : Ty} {landing : Landing}
    (hl : g.Lands n width b ty landing q) : ∃ sum, g.Inserted n q (.cast .inttoptr sum) ty := by
  cases hl with
  | plain _ _ hpointer => exact ⟨_, hpointer⟩
  | folded _ _ hpointer => exact ⟨_, hpointer⟩

/-- A confined address, for every valuation. -/
theorem Sandboxed.result_eq (hs : f.Sandboxed g cx (some b)) (hground : f.Grounded)
    {pointee : Ty} {landing : Landing}
    (hlands : g.Lands f.cells.size cx.region.width b (.ptr pointee) landing q)
    (htakes : landing.Takes f cx.layout cx.region.width slot address pointee)
    (haddress : ∀ other, address = .inst other → other < f.cells.size) (ρ : Valuation) :
    (ρ.after g table f.cells.size).result q =
      (ρ.result b + landing.offset cx.region.width ρ) % 2 ^ 64 := by
  -- the constant of a fold is small, so it is stored as what it is
  have hsmall : ∀ fold, landing = .folded fold → fold.offset < 0x8000000000000000 := by
    rintro fold rfl
    exact offset_lt_of_fold? htakes.2
  have hsolves : (ρ.after g table f.cells.size).SolvesFrom g table f.cells.size :=
    Valuation.after_solvesFrom hs.older
  have hresult := hlands.result_eq hsolves hsmall
  -- the operands of the landing belong to the body, whose values are the given ones
  have hoffset : landing.offset cx.region.width (ρ.after g table f.cells.size) =
      landing.offset cx.region.width ρ := by
    refine Landing.offset_after ?_ ?_
    · rintro found rfl
      rw [htakes]
      exact haddress
    · rintro fold rfl
      exact index_of_fold? hground htakes.2
  rw [hresult, hoffset, (hs.load b rfl).result_load]

/-- A length that is read, for every valuation. -/
theorem Sandboxed.length_eq {width : Width} {old new : Value}
    (hs : f.Sandboxed g cx base) (hcaps : g.Caps f.cells.size width old new)
    (hold : ∀ other, old = .inst other → other < f.cells.size) :
    (width.mask? = none ∧ new = old) ∨ ∃ mask bits, width.mask? = some mask ∧
      ∀ ρ : Valuation, (ρ.after g table f.cells.size).value new =
        ρ.value old &&& (mask % 2 ^ bits) := by
  cases hcaps with
  | whole hmask => exact Or.inl ⟨hmask, rfl⟩
  | @masked mask bits kept hmask hkept =>
    refine Or.inr ⟨mask, bits, hmask, fun ρ => ?_⟩
    -- the old length belongs to the body too
    have hsolves : (ρ.after g table f.cells.size).SolvesFrom g table f.cells.size :=
      Valuation.after_solvesFrom hs.older
    rw [hkept.value_and hsolves hmask, Valuation.value_after hold]

end Func

/-! ## Confinement of a run -/

/-- The load of the base, where there is one, was inserted into `f` and reads the base symbol. -/
def Func.LoadsBase (f g : Func) (m : Module) (base : Option InstId) : Prop :=
  ∀ b, base = some b → ∃ symbol, m.globalNamed? baseSymbol = some symbol ∧
    g.Inserted f.cells.size b (.load (.global symbol)) (.int 64)

/-- What the accesses of `g` read in place of what those of `f` read, the load `base` of the region
apart: addresses that land on the base plus an offset, and masked lengths. -/
structure Func.Rebased (f g : Func) (m m' : Module) (width : Width) (base : Option InstId) :
    Prop where
  load : f.LoadsBase g m' base
  pointer : ∀ id inst access slot, g.inst? id = some inst → base ≠ some id →
    inst.kind.access? = some access → slot ∈ access.pointers →
    ∃ b address target q pointee landing, base = some b ∧
      f.operand? id slot.index = some address ∧ f.HasType m.symbols address (.ptr target) ∧
      inst.kind.operand? slot.index = some (.inst q) ∧
      g.Lands f.cells.size width b (.ptr pointee) landing q ∧
      landing.Takes f m'.layout width slot address pointee ∧
      ∀ ρ : Valuation, (ρ.after g m'.symbols f.cells.size).result q =
        (ρ.result b + landing.offset width ρ) % 2 ^ 64
  length : ∀ id inst access slot, g.inst? id = some inst → base ≠ some id →
    inst.kind.access? = some access → access.length = some slot →
    ∃ old new bits, f.operand? id slot = some old ∧ f.HasType m.symbols old (.int bits) ∧
      inst.kind.operand? slot = some new ∧ g.Caps f.cells.size width old new ∧
      ((width.mask? = none ∧ new = old) ∨ ∃ mask kept, width.mask? = some mask ∧
        ∀ ρ : Valuation, (ρ.after g m'.symbols f.cells.size).value new =
          ρ.value old &&& (mask % 2 ^ kept))

/-- A declaration has no instruction. -/
theorem Func.Placed.inst?_eq_none {f : Func} (hf : f.Placed) (hd : f.isDeclaration = true)
    (id : InstId) : f.inst? id = none := by
  cases hi : f.inst? id with
  | none => rfl
  | some inst =>
    have hsome := hf.block id inst hi
    rw [Func.block?] at hsome
    rw [Func.isDeclaration_iff.mp hd] at hsome
    cases hsome

section Run

variable {pass : Pass} {m m' : Module} {report : Report}

/-- A successful run rebases every function. -/
theorem Pass.run_rebases (hm : m.Built) (h : pass.run.run m = .ok report m') :
    List.Forall₂ (fun f g => f ∈ m.functions ∧ ∃ base, f.Rebased g m m' pass.width base)
      m.functions m'.functions := by
  obtain ⟨cx, hwidth, hlayout, hlayout', hnamed, hall⟩ := Pass.run_bodies h
  refine hall.imp fun f g hfg => ?_
  obtain ⟨hmem, hfg⟩ := hfg
  have hf := (hm f hmem).placed
  refine ⟨hmem, ?_⟩
  rcases hfg with ⟨hdecl, rfl⟩ | ⟨plan, body, hplan, hrun⟩
  · -- a declaration has no access
    have hnone := hf.inst?_eq_none hdecl
    refine ⟨none, ?_, ?_, ?_⟩
    · intro b hb
      cases hb
    · intro id inst access slot hi
      rw [hnone id] at hi
      cases hi
    · intro id inst access slot hi
      rw [hnone id] at hi
      cases hi
  obtain ⟨base, hs⟩ := Edit.confineBody_sandboxed hf hplan hrun
  have hground := hf.grounded hplan
  have hsame : m'.layout = cx.layout := hlayout'.trans hlayout.symm
  rw [← hwidth]
  refine ⟨base, fun b hb => ⟨cx.region.memoryBase, hnamed, hs.load b hb⟩, ?_, ?_⟩
  · intro id inst access slot hi hbase ha hslot
    have ht := (hs.access id inst access hi ha).resolve_left hbase
    -- the plan was made for the body, where the slot held an address
    obtain ⟨b, address, q, rfl, haddress, hq, pointee, landing, hlands, htakes⟩ :=
      ht.pointers slot hslot
    obtain ⟨old, hold, hok⟩ := ht.accessOk hf hplan
    obtain ⟨v, target, hv, hty⟩ := hok.pointer slot hslot
    rw [← operand?_eq hold] at hv
    cases haddress.symm.trans hv
    exact ⟨b, address, target, q, pointee, landing, rfl, haddress, hty,
      (operand?_eq hi _).symm.trans hq, hlands, by rw [hsame]; exact htakes,
      hs.result_eq hground hlands htakes fun other he => lt_size_of_valueType hty he⟩
  · intro id inst access slot hi hbase ha hslot
    have ht := (hs.access id inst access hi ha).resolve_left hbase
    obtain ⟨old, new, hold, hnew, hcaps⟩ := ht.length slot hslot
    obtain ⟨before, hbefore, hok⟩ := ht.accessOk hf hplan
    obtain ⟨v, bits, hv, hty⟩ := hok.length slot hslot
    rw [← operand?_eq hbefore] at hv
    cases hold.symm.trans hv
    exact ⟨old, new, bits, hold, hty, (operand?_eq hi _).symm.trans hnew, hcaps,
      hs.length_eq hcaps fun other he => lt_size_of_valueType hty he⟩

/-- In place of `address`, a slot reads what an `inttoptr` makes of the base plus the low bits of the
address, or plus the low bits of an index and a constant whose sum is the address; then the access
ends before twice the size of the subspace. The values of `f` are any, as long as they fit where an
index is read. -/
def Func.ConfinedSlot (f g : Func) (symbols : SymbolTable) (layout : DataLayout) (width : Width)
    (base : InstId) (slot : PointerSlot) (address : Value) (pointer : InstId) : Prop :=
  ∃ pointee, (∃ sum, g.Inserted f.cells.size pointer (.cast .inttoptr sum) (.ptr pointee)) ∧
    ((∀ ρ : Valuation, (ρ.after g symbols f.cells.size).result pointer =
        (ρ.result base + ρ.value address % width.size) % 2 ^ 64) ∨
      ∃ fold, slot.firstClass = true ∧
        f.fold? address (layout.storeSize pointee) width.size = some fold ∧
        ∀ ρ : Valuation, ρ.Fits f →
          (ρ.after g symbols f.cells.size).result pointer =
            (ρ.result base + (ρ.value fold.index % width.size + fold.offset)) % 2 ^ 64 ∧
          ρ.value fold.index % width.size + fold.offset + layout.storeSize pointee ≤
            2 * width.size)

/-- Every access of `g` but the load of the base reads confined addresses. -/
def Func.ConfinedBy (f g : Func) (m : Module) (width : Width) (base : Option InstId) : Prop :=
  f.LoadsBase g m base ∧
  ∀ id inst access slot, g.inst? id = some inst → base ≠ some id →
    inst.kind.access? = some access → slot ∈ access.pointers →
    ∃ b address pointer, base = some b ∧ f.operand? id slot.index = some address ∧
      inst.kind.operand? slot.index = some (.inst pointer) ∧
      f.ConfinedSlot g m.symbols m.layout width b slot address pointer

/-- A successful run confines every access of every body. -/
theorem Pass.run_confines (hm : m.Built) (hadds : m.NarrowAdds)
    (h : pass.run.run m = .ok report m') :
    List.Forall₂ (fun f g => ∃ base, f.ConfinedBy g m' pass.width base)
      m.functions m'.functions := by
  refine (Pass.run_rebases hm h).imp fun f g hfg => ?_
  obtain ⟨hmem, base, hrebased⟩ := hfg
  refine ⟨base, hrebased.load, ?_⟩
  intro id inst access slot hi hbase ha hslot
  obtain ⟨b, address, target, q, pointee, landing, hb, haddress, -, hq, hlands, htakes, hresult⟩ :=
    hrebased.pointer id inst access slot hi hbase ha hslot
  refine ⟨b, address, q, hb, haddress, hq, pointee, hlands.inserted, ?_⟩
  cases landing with
  | plain found =>
    obtain rfl : found = address := htakes
    exact Or.inl fun ρ => (hresult ρ).trans (by rw [Landing.offset_plain])
  | folded fold =>
    obtain ⟨hfirst, hfold⟩ := htakes
    refine Or.inr ⟨fold, hfirst, hfold, fun ρ hρ => ?_⟩
    have hindex := index_lt_of_fold? (hadds f hmem) hfold hρ
    have hoffset : (Landing.folded fold).offset pass.width ρ =
        ρ.value fold.index % pass.width.size + fold.offset :=
      Landing.offset_folded fun _ => hindex
    have hguard := offset_of_fold? hfold
    have hlow := Nat.mod_lt (ρ.value fold.index) pass.width.size_pos
    refine ⟨(hresult ρ).trans (by rw [hoffset]), by omega⟩

end Run

/-! ## A folded access and a plain one -/

/-- A function that loads through the sum of a parameter and 4, and stores through a parameter. -/
def foldedLoad : Func :=
  [.addBlock "entry",
    .append 0 (.binary .add (.arg 0) (.int 32 4)) (.int 32),
    .append 0 (.cast .inttoptr (.inst 0)) (.ptr (.int 32)),
    .append 0 (.load (.inst 1)) (.int 32),
    .append 0 (.store (.inst 2) (.arg 1)) .void,
    .append 0 (.ret none) .void].foldl Operation.apply
    (.declare "folded" [.int 32, .ptr (.int 32)] .void)

/-- A module of this function alone. -/
def foldedLoadModule : Module where
  name := "folded"
  layout := {}
  functions := [foldedLoad]
  globals := []
  flags := []

/-- A subspace of 8 bits, worked on side by side and audited. -/
def Pass.narrow : Pass where
  width := ⟨8, by decide, by decide⟩
  parallel := true
  verify := true

theorem foldedLoadModule_built : foldedLoadModule.Built :=
  Module.built_of_functions_eq rfl ((Func.Built.declare _ _ _).history _)

theorem foldedLoadModule_narrowAdds : foldedLoadModule.NarrowAdds := by
  intro f hf
  rw [List.mem_singleton.mp hf]
  exact forall_inst?_of_all (p := fun _ => foldedLoad.narrowAdd foldedLoadModule.symbols)
    (by decide +kernel)

theorem foldedLoadModule_succeeds :
    Pass.narrow.succeeds foldedLoadModule (fun report _ => report.tally.folded == 1) = true := by
  decide +kernel

theorem foldedLoadModule_confined : ∃ report m',
    Pass.narrow.run.run foldedLoadModule = .ok report m' ∧ report.tally.folded = 1 ∧
      List.Forall₂ (fun f g => ∃ base, f.ConfinedBy g m' Pass.narrow.width base)
        foldedLoadModule.functions m'.functions := by
  obtain ⟨report, m', hrun, hfolded⟩ := Pass.run_of_succeeds foldedLoadModule_succeeds
  exact ⟨report, m', hrun, eq_of_beq hfolded,
    Pass.run_confines foldedLoadModule_built foldedLoadModule_narrowAdds hrun⟩

end Confinement
