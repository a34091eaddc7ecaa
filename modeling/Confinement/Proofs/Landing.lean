import Confinement.Address.Confine
import Confinement.Proofs.Valuation

/-!
# What a rewritten slot reads

The instructions that take the place of an address come in two shapes, one for each of the ways in
which an address is confined (`Func.Lands`), and so does what takes the place of a length
(`Func.Caps`). Each shape is a statement about the function that is left in the end; a valuation that
solves the equations of the inserted instructions gives the new address the base plus an offset in
the region (`Lands.result_eq`), and the new length the low bits of the old one (`Inserted.value_and`).
-/

set_option autoImplicit false

namespace Confinement

/-! ## Inserted instructions -/

/-- The number is `n` or higher and belongs to a live instruction of a kind and a type. -/
def Func.Inserted (g : Func) (n : Nat) (id : InstId) (kind : InstKind) (ty : Ty) : Prop :=
  n ≤ id ∧ ∃ inst, g.inst? id = some inst ∧ inst.kind = kind ∧ inst.ty = ty

/-- Everything from number `n` on stays live and keeps its kind and its type. -/
def Func.Keeps (n : Nat) (g h : Func) : Prop :=
  ∀ id inst, n ≤ id → g.inst? id = some inst →
    ∃ later, h.inst? id = some later ∧ later.kind = inst.kind ∧ later.ty = inst.ty

namespace Func

variable {g h k : Func} {n : Nat} {id : InstId} {kind : InstKind} {ty : Ty}

theorem Keeps.refl (n : Nat) (g : Func) : g.Keeps n g :=
  fun _ inst _ hi => ⟨inst, hi, rfl, rfl⟩

theorem Keeps.trans (hgh : Keeps n g h) (hhk : Keeps n h k) : Keeps n g k := by
  intro id inst hid hi
  obtain ⟨mid, hmid, hkind, hty⟩ := hgh id inst hid hi
  obtain ⟨last, hlast, hkind', hty'⟩ := hhk id mid hid hmid
  exact ⟨last, hlast, hkind'.trans hkind, hty'.trans hty⟩

theorem Inserted.keep (hi : g.Inserted n id kind ty) (hk : Keeps n g h) :
    h.Inserted n id kind ty := by
  obtain ⟨hid, inst, hi, hkind, hty⟩ := hi
  obtain ⟨later, hlater, hkind', hty'⟩ := hk id inst hid hi
  exact ⟨hid, later, hlater, hkind'.trans hkind, hty'.trans hty⟩

/-- An inserted instruction that computes has the result that it computes. -/
theorem Inserted.result_eq (hi : g.Inserted n id kind ty) {σ : Valuation} {symbols : SymbolTable}
    (hσ : σ.SolvesFrom g symbols n) {value : Nat}
    (he : ∀ inst : Inst, inst.kind = kind → inst.ty = ty → σ.eval? g symbols inst = some value) :
    σ.result id = value := by
  obtain ⟨hid, inst, hi, hkind, hty⟩ := hi
  exact hσ id inst value hid hi (he inst hkind hty)

end Func

/-! ## The shapes -/

/-- How an address is confined. -/
inductive Landing where
  /-- Its low bits are kept. -/
  | plain (address : Value)
  /-- It is an index, whose low bits are kept, and a constant. -/
  | folded (fold : Fold)
  deriving DecidableEq

/-- The number of bytes from the base to a confined address. -/
def Landing.offset (width : Width) (ρ : Valuation) : Landing → Nat
  | .plain address => width.confine (ρ.value address % 2 ^ 32)
  | .folded fold => width.confine (ρ.value fold.index) + fold.offset

namespace Landing

variable {width : Width} {ρ : Valuation}

/-- The low bits of an address are those that the width keeps. -/
theorem offset_plain (address : Value) :
    (plain address).offset width ρ = ρ.value address % width.size := by
  -- the subspace divides what 32 bits can name
  have hdvd : width.size ∣ 2 ^ 32 := by
    rw [Width.size_eq]
    exact Nat.pow_dvd_pow 2 width.le
  show width.confine (ρ.value address % 2 ^ 32) = ρ.value address % width.size
  have hlt : ρ.value address % 2 ^ 32 < 0x100000000 := Nat.mod_lt _ (Nat.two_pow_pos 32)
  rw [Width.confine_eq_mod width hlt, Nat.mod_mod_of_dvd _ hdvd]

/-- So are those of an index, if there is a mask or if it has 32 bits. -/
theorem offset_folded {fold : Fold}
    (h : width.mask? = none → ρ.value fold.index < 0x100000000) :
    (folded fold).offset width ρ = ρ.value fold.index % width.size + fold.offset := by
  show width.confine (ρ.value fold.index) + fold.offset = _
  cases hmask : width.mask? with
  | none => rw [Width.confine_eq_mod width (h hmask)]
  | some mask => rw [Width.confine, hmask, ← Width.and_mask hmask]

/-- An offset depends on the value of the address or the index alone. -/
theorem offset_congr {σ : Valuation} {landing : Landing}
    (hplain : ∀ address, landing = .plain address → ρ.value address = σ.value address)
    (hfolded : ∀ fold, landing = .folded fold → ρ.value fold.index = σ.value fold.index) :
    landing.offset width ρ = landing.offset width σ := by
  cases landing with
  | plain address => rw [offset, offset, hplain address rfl]
  | folded fold => rw [offset, offset, hfolded fold rfl]

/-- It does not change when later instructions than these are computed. -/
theorem offset_after {g : Func} {symbols : SymbolTable} {n : Nat} {landing : Landing}
    (hplain : ∀ address, landing = .plain address → ∀ other, address = .inst other → other < n)
    (hfolded : ∀ fold, landing = .folded fold → ∀ other, fold.index = .inst other → other < n) :
    landing.offset width (ρ.after g symbols n) = landing.offset width ρ :=
  offset_congr (fun address he => Valuation.value_after (hplain address he)) fun fold he =>
    Valuation.value_after (hfolded fold he)

end Landing

namespace Func

variable (g : Func) (n : Nat) (width : Width)

/-- An instruction computes the base plus what the width keeps of a 32-bit value. -/
inductive Sums (base : InstId) (low : Value) : InstId → Prop
  | whole {wide sum : InstId} (hmask : width.mask? = none)
      (hwide : g.Inserted n wide (.cast .zext low) (.int 64))
      (hsum : g.Inserted n sum (.binary .add (.inst base) (.inst wide)) (.int 64)) :
      Sums base low sum
  | masked {mask : Nat} {kept wide sum : InstId} (hmask : width.mask? = some mask)
      (hkept : g.Inserted n kept (.binary .and low (.int 32 mask)) (.int 32))
      (hwide : g.Inserted n wide (.cast .zext (.inst kept)) (.int 64))
      (hsum : g.Inserted n sum (.binary .add (.inst base) (.inst wide)) (.int 64)) :
      Sums base low sum

/-- An instruction computes a confined address of a type. -/
inductive Lands (base : InstId) (ty : Ty) : Landing → InstId → Prop
  | plain {address : Value} {low sum pointer : InstId}
      (hlow : g.Inserted n low (.cast .ptrtoint address) (.int 32))
      (hsum : g.Sums n width base (.inst low) sum)
      (hpointer : g.Inserted n pointer (.cast .inttoptr (.inst sum)) ty) :
      Lands base ty (.plain address) pointer
  | folded {fold : Fold} {sum total pointer : InstId}
      (hsum : g.Sums n width base fold.index sum)
      (htotal : g.Inserted n total (.binary .add (.inst sum) (.int 64 fold.offset)) (.int 64))
      (hpointer : g.Inserted n pointer (.cast .inttoptr (.inst total)) ty) :
      Lands base ty (.folded fold) pointer

/-- A value is what the width keeps of a length. -/
inductive Caps (length : Value) : Value → Prop
  | whole (hmask : width.mask? = none) : Caps length length
  | masked {mask bits : Nat} {kept : InstId} (hmask : width.mask? = some mask)
      (hkept : g.Inserted n kept (.binary .and length (.int bits mask)) (.int bits)) :
      Caps length (.inst kept)

end Func

/-! ## They stay -/

namespace Func

variable {g h : Func} {n : Nat} {width : Width} {base pointer sum : InstId} {low length v : Value}
  {ty : Ty} {landing : Landing}

theorem Sums.keep (hs : g.Sums n width base low sum) (hk : Keeps n g h) :
    h.Sums n width base low sum := by
  cases hs with
  | whole hmask hwide hsum => exact .whole hmask (hwide.keep hk) (hsum.keep hk)
  | masked hmask hkept hwide hsum =>
    exact .masked hmask (hkept.keep hk) (hwide.keep hk) (hsum.keep hk)

theorem Lands.keep (hl : g.Lands n width base ty landing pointer) (hk : Keeps n g h) :
    h.Lands n width base ty landing pointer := by
  cases hl with
  | plain hlow hsum hpointer => exact .plain (hlow.keep hk) (hsum.keep hk) (hpointer.keep hk)
  | folded hsum htotal hpointer =>
    exact .folded (hsum.keep hk) (htotal.keep hk) (hpointer.keep hk)

theorem Caps.keep (hc : g.Caps n width length v) (hk : Keeps n g h) : h.Caps n width length v := by
  cases hc with
  | whole hmask => exact .whole hmask
  | masked hmask hkept => exact .masked hmask (hkept.keep hk)

/-! ## Their values -/

section Values

variable {σ : Valuation} {symbols : SymbolTable}

/-- The constant of a mask keeps what the width keeps, in every integer type that holds it. -/
theorem value_mask {mask : Nat} (hmask : width.mask? = some mask) (bits : Nat) :
    σ.value (.int bits mask) = mask % 2 ^ bits := by
  obtain ⟨-, rfl⟩ := Width.mask?_eq_some_iff.mp hmask
  have := width.size_le
  exact Constant.word_ofInt (by omega) bits

/-- What is added to the base is what the width keeps. -/
theorem Sums.exists_wide (hs : g.Sums n width base low sum) (hσ : σ.SolvesFrom g symbols n) :
    ∃ wide, g.Inserted n sum (.binary .add (.inst base) (.inst wide)) (.int 64) ∧
      σ.result wide = width.confine (σ.value low) := by
  cases hs with
  | @whole wide _ hmask hwide hsum =>
    refine ⟨wide, hsum, hwide.result_eq hσ fun inst hkind hty => ?_⟩
    rw [Valuation.eval?, hkind, hty]
    show some (σ.value low) = _
    rw [Width.confine, hmask]
  | @masked mask kept wide _ hmask hkept hwide hsum =>
    have hk : σ.result kept = width.confine (σ.value low) := by
      refine hkept.result_eq hσ fun inst hkind hty => ?_
      rw [Valuation.eval?, hkind, hty]
      show some (σ.value low &&& σ.value (.int 32 mask)) = _
      have hsmall : mask < 2 ^ 32 := by
        have := width.size_le
        have := width.size_pos
        obtain ⟨-, rfl⟩ := Width.mask?_eq_some_iff.mp hmask
        omega
      rw [value_mask hmask, Nat.mod_eq_of_lt hsmall, Width.confine, hmask]
    refine ⟨wide, hsum, hwide.result_eq hσ fun inst hkind hty => ?_⟩
    rw [Valuation.eval?, hkind, hty]
    exact congrArg some hk

/-- The base plus what the width keeps. -/
theorem Sums.result_eq (hs : g.Sums n width base low sum) (hσ : σ.SolvesFrom g symbols n) :
    σ.result sum = (σ.result base + width.confine (σ.value low)) % 2 ^ 64 := by
  obtain ⟨wide, hsum, hw⟩ := hs.exists_wide hσ
  refine hsum.result_eq hσ fun inst hkind hty => ?_
  rw [Valuation.eval?, hkind, hty]
  show some ((σ.result base + σ.result wide) % 2 ^ 64) = _
  rw [hw]

/-- The narrowing of an address keeps 32 bits, of which the width keeps its own. -/
theorem Inserted.result_ptrtoint {address : Value} {id : InstId}
    (hlow : g.Inserted n id (.cast .ptrtoint address) (.int 32)) (hσ : σ.SolvesFrom g symbols n) :
    σ.result id = σ.value address % 2 ^ 32 := by
  refine hlow.result_eq hσ fun inst hkind hty => ?_
  rw [Valuation.eval?, hkind, hty]
  rfl

/-- A confined address is the base plus its offset. -/
theorem Lands.result_eq (hl : g.Lands n width base ty landing pointer)
    (hσ : σ.SolvesFrom g symbols n)
    (hsmall : ∀ fold, landing = .folded fold → fold.offset < 0x8000000000000000) :
    σ.result pointer = (σ.result base + landing.offset width σ) % 2 ^ 64 := by
  cases hl with
  | @plain address low sum _ hlow hsum hpointer =>
    have hs : σ.result sum = (σ.result base + width.confine (σ.result low)) % 2 ^ 64 :=
      hsum.result_eq hσ
    rw [hlow.result_ptrtoint hσ] at hs
    refine hpointer.result_eq hσ fun inst hkind hty => ?_
    rw [Valuation.eval?, hkind, hty]
    exact congrArg some hs
  | @folded fold sum total _ hsum htotal hpointer =>
    have hs := hsum.result_eq hσ
    have hword : σ.value (.int 64 fold.offset) = fold.offset % 2 ^ 64 :=
      Constant.word_ofInt (hsmall fold rfl) 64
    have ht : σ.result total = (σ.result base +
        (width.confine (σ.value fold.index) + fold.offset)) % 2 ^ 64 := by
      refine htotal.result_eq hσ fun inst hkind hty => ?_
      rw [Valuation.eval?, hkind, hty]
      show some ((σ.result sum + σ.value (.int 64 fold.offset)) % 2 ^ 64) = _
      -- two sums modulo 2 ^ 64 are one
      rw [hs, hword, Nat.mod_add_mod, Nat.add_mod_mod, Nat.add_assoc]
    refine hpointer.result_eq hσ fun inst hkind hty => ?_
    rw [Valuation.eval?, hkind, hty]
    exact congrArg some ht

/-- A masked length keeps bits of the old one. -/
theorem Inserted.value_and {mask bits : Nat} {kept : InstId}
    (hkept : g.Inserted n kept (.binary .and length (.int bits mask)) (.int bits))
    (hσ : σ.SolvesFrom g symbols n) (hmask : width.mask? = some mask) :
    σ.value (.inst kept) = σ.value length &&& (mask % 2 ^ bits) := by
  refine hkept.result_eq hσ fun inst hkind hty => ?_
  rw [Valuation.eval?, hkind, hty]
  show some (σ.value length &&& σ.value (.int bits mask)) = _
  rw [value_mask hmask]

end Values

end Func

end Confinement
