import Confinement.Proofs.Confined
import Confinement.Proofs.Progress

/-!
# Folded addresses and plain ones

An address of the form `index + constant` can be confined in two ways. As it is, its low bits are
added to the base. As a fold, the low bits of the index are, and then the constant, so that the sum is
not reduced again. The two agree as long as the sum stays in the subspace; beyond it, the folded address
lies higher by the size of the subspace, which is in the guard region, and the access still ends before
that does (`Func.reach_of_fold?`). The values of the emitted instructions are these offsets from the
base, and where the subspace and its guard region fit into the 64-bit addresses behind the base, no
addition wraps around (`Edit.emitFolded_agrees`).
-/

set_option autoImplicit false

namespace Confinement

open Func

/-! ## Offsets -/

/-- The distance from the base to a folded address with an index. -/
def Fold.reach (fold : Fold) (width : Width) (index : Nat) : Nat :=
  index % width.size + fold.offset

/-- The distance from the base to the same address, confined as it is. -/
def Fold.wrapped (fold : Fold) (width : Width) (index : Nat) : Nat :=
  (index + fold.offset) % 2 ^ 32 % width.size

theorem Width.size_dvd (width : Width) : width.size ∣ 2 ^ 32 := by
  rw [Width.size_eq]
  exact Nat.pow_dvd_pow 2 width.le

/-- Reducing twice is reducing once. -/
theorem Fold.wrapped_eq (fold : Fold) (width : Width) (index : Nat) :
    fold.wrapped width index = fold.reach width index % width.size := by
  rw [wrapped, reach, Nat.mod_mod_of_dvd _ width.size_dvd, Nat.mod_add_mod]

/-- A folded address lies below the end of the guard region. -/
theorem Func.reach_lt_of_fold? {f : Func} {address : Value} {size : Nat} {width : Width}
    {fold : Fold} (h : f.fold? address size width.size = some fold) (index : Nat) :
    fold.reach width index < 2 * width.size := by
  have hguard := offset_of_fold? h
  have hlow := Nat.mod_lt index width.size_pos
  rw [Fold.reach]
  omega

/-- The two ways of confining an address agree in the subspace; beyond it they differ by its size, and
the access stays in the guard region. -/
theorem Func.reach_of_fold? {f : Func} {address : Value} {size : Nat} {width : Width} {fold : Fold}
    (h : f.fold? address size width.size = some fold) (index : Nat) :
    (fold.reach width index < width.size →
        fold.reach width index = fold.wrapped width index) ∧
      (width.size ≤ fold.reach width index →
        fold.reach width index = fold.wrapped width index + width.size) ∧
      fold.reach width index + size ≤ 2 * width.size := by
  have htwice := reach_lt_of_fold? h index
  rw [Fold.wrapped_eq]
  refine ⟨fun hlt => (Nat.mod_eq_of_lt hlt).symm, fun hle => ?_, ?_⟩
  · rw [Nat.mod_eq_sub_mod hle, Nat.mod_eq_of_lt (by omega)]
    omega
  · have hguard := offset_of_fold? h
    have hlow := Nat.mod_lt index width.size_pos
    rw [Fold.reach]
    omega

/-! ## The value of a folded address -/

/-- The constant of an addition of 32 bits is worth its signed reading, up to 32 bits. -/
theorem Constant.word_of_signed? {c : Constant} {offset : Int} (hty : c.ty = .int 32)
    (hsigned : c.signed? = some offset) (hpos : 0 ≤ offset) (ρ : Valuation) :
    ρ.constant c = offset.toNat % 2 ^ 32 := by
  cases c with
  | int bits value =>
    cases hty
    cases hsigned
    obtain ⟨n, rfl⟩ := Int.eq_ofNat_of_zero_le hpos
    show Constant.word 32 n = _
    rw [Constant.word_eq_of_le (by decide)]
    omega
  | null ty => cases hsigned
  | undef ty => cases hsigned

section Value

variable {f : Func} {m : Module} {address : Value} {size : Nat} {width : Width} {fold : Fold}
  {ρ : Valuation}

/-- Where the addition adds 32-bit integers, the index is one, and so is the constant. -/
theorem Func.narrow_of_fold? {subspace : Nat}
    (hfold : f.fold? address size subspace = some fold)
    (hadd : ∀ inst, f.inst? fold.add = some inst → f.narrowAdd m.symbols inst = true) :
    f.HasType m.symbols fold.index (.int 32) ∧ ∃ addInst c, f.inst? fold.add = some addInst ∧
      addInst.ty = .int 32 ∧ addInst.kind = .binary .add fold.index (.const c) ∧
      ∀ ρ : Valuation, ρ.constant c = fold.offset % 2 ^ 32 := by
  obtain ⟨-, castInst, addInst, c, offset, -, -, hi, hty, hkind, hsigned, ⟨hpos, -⟩, hoffset⟩ :=
    fold?_eq_some_iff.mp hfold
  obtain ⟨hindex, hconst⟩ := narrowAdd_binary (hadd addInst hi) hkind hty
  refine ⟨hindex, addInst, c, hi, hty, hkind, fun ρ => ?_⟩
  rw [hoffset]
  exact Constant.word_of_signed? (Except.ok.inj hconst) hsigned hpos ρ

/-- A folded address is worth the sum of its index and its constant. -/
theorem Func.value_of_fold? (hfold : f.fold? address size width.size = some fold)
    (hadd : ∀ inst, f.inst? fold.add = some inst → f.narrowAdd m.symbols inst = true)
    (hsolves : ρ.Solves f m.symbols) :
    ρ.value address = (ρ.value fold.index + fold.offset) % 2 ^ 32 := by
  obtain ⟨-, addInst, c, hi, hty, hkind, hword⟩ := narrow_of_fold? hfold hadd
  obtain ⟨⟨castInst, hcast, hcastKind⟩, -⟩ := parts_of_fold? hfold
  have hsum : ρ.result fold.add = (ρ.value fold.index + fold.offset) % 2 ^ 32 := by
    refine hsolves fold.add addInst _ (Nat.zero_le _) hi ?_
    rw [Valuation.eval?, hkind, hty]
    show some ((ρ.value fold.index + ρ.constant c) % 2 ^ 32) = _
    rw [hword, Nat.add_mod_mod]
  have hvalue : ρ.result fold.cast = ρ.result fold.add := by
    refine hsolves fold.cast castInst _ (Nat.zero_le _) hcast ?_
    rw [Valuation.eval?, hcastKind]
    rfl
  rw [(fold?_eq_some_iff.mp hfold).1]
  exact hvalue.trans hsum

/-- The parts of a fold were given out: its index, and what the address names. -/
theorem Func.lt_size_of_fold? {subspace : Nat}
    (hfold : f.fold? address size subspace = some fold)
    (hadd : ∀ inst, f.inst? fold.add = some inst → f.narrowAdd m.symbols inst = true) :
    (∀ other, fold.index = .inst other → other < f.cells.size) ∧
      ∀ other, address = .inst other → other < f.cells.size := by
  obtain ⟨hindex, -⟩ := narrow_of_fold? hfold hadd
  obtain ⟨castInst, hcast, -⟩ := part_of_fold? hfold (Or.inl rfl)
  refine ⟨fun _ he => lt_size_of_valueType hindex he, ?_⟩
  rintro other rfl
  cases (fold?_eq_some_iff.mp hfold).1
  exact lt_size_of_inst? hcast

/-- While more is computed, a folded address stays `reach` beyond the base. -/
theorem Func.offset_folded_after (hfold : f.fold? address size width.size = some fold)
    (hadd : ∀ inst, f.inst? fold.add = some inst → f.narrowAdd m.symbols inst = true)
    (hfits : ρ.Fits f) (g : Func) :
    (Landing.folded fold).offset width (ρ.after g m.symbols f.cells.size) =
      fold.reach width (ρ.value fold.index) := by
  obtain ⟨hindex, -⟩ := narrow_of_fold? hfold hadd
  obtain ⟨hgiven, -⟩ := lt_size_of_fold? hfold hadd
  refine (Landing.offset_after (by rintro _ he; cases he)
    (by rintro _ he; cases he; exact hgiven)).trans ?_
  exact Landing.offset_folded fun _ => Valuation.value_lt hfits hindex

/-- While more is computed, the address as it is stays `wrapped` beyond the base. -/
theorem Func.offset_plain_after (hfold : f.fold? address size width.size = some fold)
    (hadd : ∀ inst, f.inst? fold.add = some inst → f.narrowAdd m.symbols inst = true)
    (hsolves : ρ.Solves f m.symbols) (g : Func) :
    (Landing.plain address).offset width (ρ.after g m.symbols f.cells.size) =
      fold.wrapped width (ρ.value fold.index) := by
  obtain ⟨-, hgiven⟩ := lt_size_of_fold? hfold hadd
  refine (Landing.offset_after (by rintro _ he; cases he; exact hgiven)
    (by rintro _ he; cases he)).trans ?_
  rw [Landing.offset_plain, value_of_fold? hfold hadd hsolves]
  rfl

end Value

/-! ## Additions that do not wrap around -/

/-- No addition of 64 bits that `g` has beyond `f` wraps around. -/
def Func.Unwrapped (f g : Func) (σ : Valuation) : Prop :=
  ∀ id inst lhs rhs, f.cells.size ≤ id → g.inst? id = some inst →
    inst.kind = .binary .add lhs rhs → inst.ty = .int 64 → σ.value lhs + σ.value rhs < 2 ^ 64

namespace Func.Unwrapped

variable {f g h k : Func} {σ : Valuation} {symbols : SymbolTable} {n : Nat} {width : Width}
  {base anchor sum pointer id : InstId} {kind : InstKind} {ty : Ty} {low address : Value}

theorem refl (f : Func) (σ : Valuation) : f.Unwrapped f σ :=
  fun _ _ _ _ hid hi => absurd (lt_size_of_inst? hi) (Nat.not_lt.mpr hid)

/-- One more instruction is inserted. -/
theorem insertBefore (hfg : f.Unwrapped g σ)
    (hrun : (Edit.insertBefore anchor kind ty).run g = .ok id h)
    (hkind : ∀ lhs rhs, kind = .binary .add lhs rhs → σ.value lhs + σ.value rhs < 2 ^ 64) :
    f.Unwrapped h σ := by
  obtain ⟨-, -, b, hinst⟩ := Edit.inst?_insertBefore hrun
  intro other inst lhs rhs hother hi hadd hty
  rw [hinst] at hi
  split at hi
  · cases hi
    exact hkind lhs rhs hadd
  · exact hfg other inst lhs rhs hother hi hadd hty

/-- The only addition of a sum is that to the base. -/
theorem emitSum (hfg : f.Unwrapped g σ)
    (hrun : (Edit.emitSum width base anchor low).run g = .ok sum h)
    (hs : k.Sums n width base low sum) (hkeep : h.Keeps n k) (hσ : σ.SolvesFrom k symbols n)
    (hbound : σ.result base + width.confine (σ.value low) < 2 ^ 64) : f.Unwrapped h σ := by
  obtain ⟨kept, mid, wide, last, hkept, hwide, hsum⟩ := Edit.emitSum_eq_ok hrun
  have hmid : f.Unwrapped mid σ := by
    rcases hkept with ⟨-, -, rfl⟩ | ⟨mask, masked, -, -, hand⟩
    · exact hfg
    · exact hfg.insertBefore hand fun _ _ he => nomatch he
  refine (hmid.insertBefore hwide fun _ _ he => nomatch he).insertBefore hsum ?_
  rintro lhs rhs he
  cases he
  -- the sum is still this addition in the end, so what was widened has the value that it has there
  obtain ⟨wide', ⟨hn, found, hfound, hkind, -⟩, hvalue⟩ := hs.exists_wide hσ
  obtain ⟨-, -, b, hinst⟩ := Edit.inst?_insertBefore hsum
  obtain ⟨later, hlater, hsame, -⟩ := hkeep sum _ hn (by rw [hinst, if_pos rfl])
  cases hfound.symm.trans hlater
  cases hkind.symm.trans hsame
  show σ.result base + σ.result wide < 2 ^ 64
  rw [hvalue]
  exact hbound

/-- No addition for a plain address wraps around. -/
theorem emitPlain (hrun : (Edit.emitPlain width base anchor address ty).run f = .ok pointer g)
    (hbase : base < f.cells.size)
    (haddress : ∀ other, address = .inst other → other < f.cells.size)
    (hσ : σ.SolvesFrom g symbols f.cells.size)
    (hbound : σ.result base + (Landing.plain address).offset width σ < 2 ^ 64) :
    f.Unwrapped g σ := by
  obtain ⟨low, mid, sum, last, hlow, hsum, hcast⟩ := Edit.emitPlain_eq_ok hrun
  obtain ⟨he, hlowIn, hlt⟩ :=
    emits_insertBefore hlow (Nat.le_refl _) (InstKind.older_cast haddress) rfl
  obtain ⟨he', hsumIn, hlt'⟩ := emits_emitSum hsum he.size_le
    (Nat.lt_of_lt_of_le hbase he.size_le) (Value.inst_older hlt)
  obtain ⟨he'', -, -⟩ := emits_insertBefore hcast (Nat.le_trans he.size_le he'.size_le)
    (InstKind.older_cast (Value.inst_older hlt')) rfl
  have hvalue : σ.value (.inst low) = σ.value address % 2 ^ 32 :=
    (hlowIn.keep ((he'.trans he'').keeps _)).result_ptrtoint hσ
  have hmid := (refl f σ).insertBefore hlow fun _ _ he => nomatch he
  have hlast := hmid.emitSum hsum (hsumIn.keep (he''.keeps _)) (he''.keeps _) hσ <| by
    rw [hvalue]
    exact hbound
  exact hlast.insertBefore hcast fun _ _ he => nomatch he

/-- No addition for a folded address wraps around. -/
theorem emitFolded {fold : Fold} {successors : Edit.Successors}
    (hrun : (Edit.emitFolded width base anchor fold ty).run f = .ok successors g)
    (hbase : base < f.cells.size)
    (hindex : ∀ other, fold.index = .inst other → other < f.cells.size)
    (hsmall : fold.offset < 0x8000000000000000) (hσ : σ.SolvesFrom g symbols f.cells.size)
    (hbound : σ.result base + (Landing.folded fold).offset width σ < 2 ^ 64) :
    f.Unwrapped g σ := by
  obtain ⟨sum, mid, last, hsum, hadd, hcast⟩ := Edit.emitFolded_eq_ok hrun
  obtain ⟨he, hsumIn, hlt⟩ := emits_emitSum hsum (Nat.le_refl _) hbase hindex
  obtain ⟨he', -, hlt'⟩ := emits_insertBefore hadd he.size_le
    (InstKind.older_binary (Value.inst_older hlt) Value.int_older) rfl
  obtain ⟨he'', -, -⟩ := emits_insertBefore hcast (Nat.le_trans he.size_le he'.size_le)
    (InstKind.older_cast (Value.inst_older hlt')) rfl
  have hsumIn := hsumIn.keep ((he'.trans he'').keeps _)
  -- the sum does not wrap around, so the constant is added to what it is
  change σ.result base + (width.confine (σ.value fold.index) + fold.offset) < 2 ^ 64 at hbound
  have hvalue := hsumIn.result_eq hσ
  rw [Nat.mod_eq_of_lt (by omega)] at hvalue
  have hword : σ.value (.int 64 fold.offset) = fold.offset % 2 ^ 64 :=
    Constant.word_ofInt hsmall 64
  have hmid := (refl f σ).emitSum hsum hsumIn ((he'.trans he'').keeps _) hσ (by omega)
  refine (hmid.insertBefore hadd ?_).insertBefore hcast fun _ _ he => nomatch he
  rintro lhs rhs he
  cases he
  show σ.result sum + σ.value (.int 64 fold.offset) < 2 ^ 64
  omega

end Func.Unwrapped

/-! ## Both ways of confining an address -/

/-- Wherever an address folds and its addition adds 32-bit integers, the folded address lies `reach`
beyond the base, and the address as it is would have been confined to `wrapped`. These agree in the
subspace; beyond it the folded one is higher by the size of the subspace, and the access stays in the
guard region. If the base leaves room for the subspace and the guard region, no addition of either way
wraps around. -/
theorem Edit.emitFolded_agrees {f g h : Func} {m : Module} {width : Width} {address : Value}
    {size : Nat} {fold : Fold} {base anchor pointer : InstId} {ty : Ty}
    {successors : Edit.Successors} {ρ : Valuation}
    (hfold : f.fold? address size width.size = some fold)
    (hadd : ∀ inst, f.inst? fold.add = some inst → f.narrowAdd m.symbols inst = true)
    (hbase : base < f.cells.size)
    (hfolded : (Edit.emitFolded width base anchor fold ty).run f = .ok successors g)
    (hplain : (Edit.emitPlain width base anchor address ty).run f = .ok pointer h)
    (hfits : ρ.Fits f) (hsolves : ρ.Solves f m.symbols) :
    (ρ.after g m.symbols f.cells.size).result successors.cast =
        (ρ.result base + fold.reach width (ρ.value fold.index)) % 2 ^ 64 ∧
      (ρ.after h m.symbols f.cells.size).result pointer =
        (ρ.result base + fold.wrapped width (ρ.value fold.index)) % 2 ^ 64 ∧
      (fold.reach width (ρ.value fold.index) < width.size →
        fold.reach width (ρ.value fold.index) = fold.wrapped width (ρ.value fold.index)) ∧
      (width.size ≤ fold.reach width (ρ.value fold.index) →
        fold.reach width (ρ.value fold.index) =
          fold.wrapped width (ρ.value fold.index) + width.size) ∧
      fold.reach width (ρ.value fold.index) + size ≤ 2 * width.size ∧
      (ρ.result base + 2 * width.size ≤ 2 ^ 64 →
        f.Unwrapped g (ρ.after g m.symbols f.cells.size) ∧
          f.Unwrapped h (ρ.after h m.symbols f.cells.size)) := by
  obtain ⟨hgivenIndex, hgivenAddress⟩ := lt_size_of_fold? hfold hadd
  obtain ⟨hbelow, hbeyond, hguard⟩ := reach_of_fold? hfold (ρ.value fold.index)
  have hsmall : fold.offset < 0x8000000000000000 := by
    have := offset_of_fold? hfold
    have := width.size_le
    omega
  have hreach := offset_folded_after hfold hadd hfits g
  have hwrapped := offset_plain_after hfold hadd hsolves h
  have hkept : ∀ g : Func, (ρ.after g m.symbols f.cells.size).result base = ρ.result base :=
    fun g => Valuation.value_after (v := .inst base) (Value.inst_older hbase)
  have holder : f.ReadsOlder f.cells.size := fun id inst hid hi =>
    absurd (lt_size_of_inst? hi) (Nat.not_lt.mpr hid)
  obtain ⟨heg, hlands, -, -⟩ := emits_emitFolded hfolded (Nat.le_refl _) hbase hgivenIndex
  obtain ⟨heh, hlands'⟩ := emits_emitPlain hplain (Nat.le_refl _) hbase hgivenAddress
  have hsolvesG : (ρ.after g m.symbols f.cells.size).SolvesFrom g m.symbols f.cells.size :=
    Valuation.after_solvesFrom (heg.readsOlder holder)
  have hsolvesH : (ρ.after h m.symbols f.cells.size).SolvesFrom h m.symbols f.cells.size :=
    Valuation.after_solvesFrom (heh.readsOlder holder)
  refine ⟨?_, ?_, hbelow, hbeyond, hguard, fun hroom => ⟨?_, ?_⟩⟩
  · rw [hlands.result_eq hsolvesG (by rintro _ he; cases he; exact hsmall), hreach, hkept]
  · rw [hlands'.result_eq hsolvesH (by rintro _ he; cases he), hwrapped, hkept]
  · refine .emitFolded hfolded hbase hgivenIndex hsmall hsolvesG ?_
    have htwice := reach_lt_of_fold? hfold (ρ.value fold.index)
    rw [hreach, hkept]
    omega
  · refine .emitPlain hplain hbase hgivenAddress hsolvesH ?_
    rw [hwrapped, hkept]
    have := Nat.mod_lt ((ρ.value fold.index + fold.offset) % 2 ^ 32) width.size_pos
    rw [Fold.wrapped]
    omega

/-- A function that loads the base, and then through the sum of a parameter and 4. -/
def indexedLoad : Func :=
  [.addBlock "entry",
    .append 0 (.load (.global 0)) (.int 64),
    .append 0 (.binary .add (.arg 0) (.int 32 4)) (.int 32),
    .append 0 (.cast .inttoptr (.inst 1)) (.ptr (.int 32)),
    .append 0 (.load (.inst 2)) (.int 32),
    .append 0 (.ret none) .void].foldl Operation.apply
    (.declare "indexed" [.int 32] .void)

/-- A module of this function and of the base of the region. -/
def indexedLoadModule : Module where
  name := "indexed"
  layout := {}
  functions := [indexedLoad]
  globals := [{ name := baseSymbol, ty := .int 64, linkage := .external, isConstant := false,
                init := none }]
  flags := []

/-- The address that it loads from. -/
def indexedLoadFold : Fold where
  index := .arg 0
  offset := 4
  cast := 2
  add := 1

/-- A run of the function whose index is two below the highest, so that the addition wraps around. -/
def indexedLoadValuation : Valuation where
  arg := fun _ => 0xFFFFFFFE
  global := fun _ => 0
  func := fun _ => 0
  undef := fun _ => 0
  result := fun id => if id = 0 then 0x10000 else if id < 3 then 2 else 0

theorem indexedLoadValuation_fits : indexedLoadValuation.Fits indexedLoad where
  arg := by
    intro index bits hp
    match index, hp with
    | 0, hp =>
      obtain rfl : 32 = bits := Ty.int.inj (Option.some.inj hp)
      decide +kernel
  undef := fun bits => Nat.two_pow_pos bits
  result := by
    intro id inst bits hi hty
    have hall := forall_inst?_of_all (f := indexedLoad)
      (p := fun id inst => inst.ty.intBits?.all (indexedLoadValuation.result id < 2 ^ ·))
      (by decide +kernel) id inst hi
    rw [hty] at hall
    exact of_decide_eq_true hall

theorem indexedLoadValuation_solves :
    indexedLoadValuation.Solves indexedLoad indexedLoadModule.symbols := by
  intro id inst value _ hi he
  have hall := forall_inst?_of_all (f := indexedLoad)
    (p := fun id inst => (indexedLoadValuation.eval? indexedLoad indexedLoadModule.symbols inst).all
      (indexedLoadValuation.result id = ·))
    (by decide +kernel) id inst hi
  rw [he] at hall
  exact of_decide_eq_true hall

/-- In a subspace of 8 bits the folded address lies 258 bytes beyond the base, and the address as it is
would have been confined to 2 bytes beyond it. -/
theorem indexedLoad_agrees : ∃ successors g pointer h,
    (Edit.emitFolded Pass.narrow.width 0 3 indexedLoadFold (.ptr (.int 32))).run indexedLoad =
        .ok successors g ∧
      (Edit.emitPlain Pass.narrow.width 0 3 (.inst 2) (.ptr (.int 32))).run indexedLoad =
        .ok pointer h ∧
      (indexedLoadValuation.after g indexedLoadModule.symbols indexedLoad.cells.size).result
        successors.cast = 0x10000 + 258 ∧
      (indexedLoadValuation.after h indexedLoadModule.symbols indexedLoad.cells.size).result
        pointer = 0x10000 + 2 ∧
      indexedLoad.Unwrapped g
        (indexedLoadValuation.after g indexedLoadModule.symbols indexedLoad.cells.size) ∧
      indexedLoad.Unwrapped h
        (indexedLoadValuation.after h indexedLoadModule.symbols indexedLoad.cells.size) := by
  have hfold : indexedLoad.fold? (.inst 2) 4 Pass.narrow.width.size = some indexedLoadFold := by
    decide +kernel
  have hadd := forall_inst?_of_all (f := indexedLoad)
    (p := fun _ => indexedLoad.narrowAdd indexedLoadModule.symbols) (by decide +kernel)
    indexedLoadFold.add
  have hresolves : ∀ id < 5, indexedLoad.Resolves (.inst id) := by
    rintro id hid _ he
    cases he
    exact Option.isSome_iff_exists.mp ((by decide +kernel :
      ∀ id < 5, (indexedLoad.inst? id).isSome = true) id hid)
  have hanchors : indexedLoad.Anchors (some 0) 3 :=
    ⟨((Func.Built.declare _ _ _).history _).placed, hresolves 3 (by decide) 3 rfl, by decide⟩
  have hindex : indexedLoad.Resolves indexedLoadFold.index := fun _ he => nomatch he
  obtain ⟨successors, g, hfolded, -⟩ := Edit.emitFolded_grows hanchors (hresolves 0 (by decide))
    hindex Pass.narrow.width (.ptr (.int 32))
  obtain ⟨pointer, h, hplain, -⟩ := Edit.emitPlain_grows hanchors (hresolves 0 (by decide))
    (hresolves 2 (by decide)) Pass.narrow.width (.ptr (.int 32))
  obtain ⟨hcast, hpointer, -, -, -, hunwrapped⟩ := Edit.emitFolded_agrees hfold hadd
    (by decide +kernel) hfolded hplain indexedLoadValuation_fits indexedLoadValuation_solves
  exact ⟨successors, g, pointer, h, hfolded, hplain, hcast.trans (by decide +kernel),
    hpointer.trans (by decide +kernel), hunwrapped (by decide +kernel)⟩

end Confinement
