import Confinement.Proofs.Confined

/-!
# How far accesses reach

The region takes up twice the size of its subspace. A single value that is accessed through an
address whose low bits are kept ends there exactly when it ends there from the last byte of the
subspace (`Pass.run_value_reserved`): the size of the access is looked at for a fold, and not
otherwise. Behind a fold it ends there when the index is masked, or has at most 32 bits; at the full
width a wider index is read as it is, and what counts is the highest sum (`Fold.highest`). A bulk
operation ends there when its length is masked, and else exactly when its length fits behind the last
byte of the subspace (`Pass.run_bulk_reserved`): at the full width a length is left alone, however
many bits it has.

Both are stated for all valuations at once. That a bound fails is shown by a single valuation, in
which everything has a value for its type (`Valuation.ofTypes`): that every integer and every address
is as high as it can be (`Valuation.highest`), or that a sum goes as far as it does not wrap
(`Fold.exists_highest`).
-/

set_option autoImplicit false

namespace Confinement

open Func

/-! ## Distances -/

/-- The number of bytes from the base of the region up to an address, in 64 bits. -/
def bytesFrom (base address : Nat) : Nat :=
  (address + (2 ^ 64 - base % 2 ^ 64)) % 2 ^ 64

theorem bytesFrom_add (base offset : Nat) :
    bytesFrom base ((base + offset) % 2 ^ 64) = offset % 2 ^ 64 := by
  rw [bytesFrom]
  omega

/-! ## The highest values -/

/-- The value of a constant that has one; an undefined constant has many. -/
def Value.fixed? : Value → Option Nat
  | .const (.int bits value) => some (Constant.word bits value)
  | .const (.null _) => some 0
  | _ => none

/-- The highest value of a type. Of an address only the low bits count. -/
def Ty.highest (width : Width) : Ty → Nat
  | .int bits => 2 ^ bits - 1
  | _ => width.size - 1

/-- The highest value of an operand of a type. -/
def Value.highest (width : Width) (ty : Ty) (v : Value) : Nat :=
  v.fixed?.getD (ty.highest width)

/-- What is not fixed has the value that `number` gives to its type; what has no type is taken for
`void`. -/
def Valuation.ofTypes (f : Func) (symbols : SymbolTable) (number : Ty → Nat) : Valuation :=
  let given v := number ((f.valueType symbols v).toOption.getD .void)
  { arg := fun index => given (.arg index)
    global := fun id => given (.global id)
    func := fun id => given (.func id)
    undef := number
    result := fun id => given (.inst id) }

/-- Everything is as high as it can be. -/
def Valuation.highest (f : Func) (symbols : SymbolTable) (width : Width) : Valuation :=
  .ofTypes f symbols (Ty.highest width)

namespace Valuation

variable {ρ : Valuation} {f : Func} {m : Module} {symbols : SymbolTable} {number : Ty → Nat}
  {width : Width} {v : Value} {ty target : Ty} {bits value : Nat}

theorem ofTypes_fits (h : ∀ bits, number (.int bits) < 2 ^ bits) :
    (ofTypes f symbols number).Fits f where
  arg := by
    intro index bits hp
    have hty : f.valueType symbols (.arg index) = .ok (.int bits) := by
      simp only [valueType, hp]
    show number ((f.valueType symbols (.arg index)).toOption.getD .void) < 2 ^ bits
    rw [hty]
    exact h bits
  undef := h
  result := by
    rintro id inst bits hi hinst
    have hty : f.valueType symbols (.inst id) = .ok (.int bits) := by
      simp only [valueType, hi, hinst]
    show number ((f.valueType symbols (.inst id)).toOption.getD .void) < 2 ^ bits
    rw [hty]
    exact h bits

theorem value_ofTypes (h : v.fixed? = none) : (ofTypes f symbols number).value v =
    number ((f.valueType symbols v).toOption.getD .void) := by
  cases v with
  | const c =>
    cases c with
    | int bits value => cases h
    | null found => cases h
    | undef found => rfl
  | _ => rfl

theorem value_of_fixed? (h : v.fixed? = some value) : ρ.value v = value := by
  cases v with
  | const c =>
    cases c with
    | int bits found => exact Option.some.inj h
    | null found => exact Option.some.inj h
    | undef found => cases h
  | _ => cases h

theorem highest_fits (f : Func) (symbols : SymbolTable) (width : Width) :
    (highest f symbols width).Fits f :=
  ofTypes_fits fun bits => Nat.sub_lt (Nat.two_pow_pos bits) Nat.one_pos

/-- Operands take their highest values at once. -/
theorem value_highest (h : f.HasType symbols v ty) :
    (highest f symbols width).value v = v.highest width ty := by
  rw [Value.highest]
  cases hfixed : v.fixed? with
  | some value => exact value_of_fixed? hfixed
  | none =>
    rw [highest, value_ofTypes hfixed, h]
    rfl

/-- No integer is higher. -/
theorem value_le_highest (hρ : ρ.Fits f) (h : f.HasType m.symbols v (.int bits)) :
    ρ.value v ≤ v.highest width (.int bits) := by
  rw [Value.highest]
  cases hfixed : v.fixed? with
  | some value => exact Nat.le_of_eq (value_of_fixed? hfixed)
  | none => exact Nat.le_sub_one_of_lt (value_lt hρ h)

/-- The low bits of no address are higher. -/
theorem value_mod_le_highest (ρ : Valuation) (width : Width) (v : Value) (target : Ty) :
    ρ.value v % width.size ≤ v.highest width (.ptr target) := by
  rw [Value.highest]
  cases hfixed : v.fixed? with
  | some value =>
    rw [value_of_fixed? hfixed]
    exact Nat.mod_le value width.size
  | none => exact Nat.le_sub_one_of_lt (Nat.mod_lt (ρ.value v) width.size_pos)

/-- An address that is as high as it can be lies in the subspace. -/
theorem highest_ptr_lt (h : f.HasType symbols v (.ptr target)) :
    v.highest width (.ptr target) < width.size := by
  have hlt := Nat.sub_lt width.size_pos Nat.one_pos
  cases v with
  | const c =>
    cases c with
    | int n value => cases h
    | null found => exact width.size_pos
    | undef found => exact hlt
  | _ => exact hlt

end Valuation

/-! ## The highest sum of a fold -/

/-- The number `most`, or the highest value of an integer type that does not go so far. -/
def Ty.upTo (most : Nat) : Ty → Nat
  | .int bits => min most (2 ^ bits - 1)
  | _ => most

/-- The highest sum, in 64 bits, of the constant of a fold and its index read as it is. Nothing is
known of an index that is no integer. -/
def Fold.highest (f : Func) (symbols : SymbolTable) (fold : Fold) : Nat :=
  match fold.index.fixed?, Valuation.operandBits f symbols fold.index with
  | some value, _ => (value + fold.offset) % 2 ^ 64
  | none, some bits => min (2 ^ bits - 1 + fold.offset) (2 ^ 64 - 1)
  | none, none => 2 ^ 64 - 1

section Fold

variable {ρ : Valuation} {f : Func} {m : Module} {symbols : SymbolTable} {v : Value} {bits : Nat}

theorem Valuation.hasType_of_operandBits (h : operandBits f symbols v = some bits) :
    f.HasType symbols v (.int bits) := by
  rw [operandBits] at h
  cases hty : f.valueType symbols v with
  | error fault =>
    rw [hty] at h
    cases h
  | ok ty =>
    rw [hty] at h
    exact hty.trans (congrArg _ (Ty.intBits?_eq_some_iff.mp h))

/-- No sum is higher. -/
theorem Fold.le_highest (fold : Fold) (hρ : ρ.Fits f) :
    (ρ.value fold.index + fold.offset) % 2 ^ 64 ≤ fold.highest f m.symbols := by
  have hlt : (ρ.value fold.index + fold.offset) % 2 ^ 64 ≤ 2 ^ 64 - 1 :=
    Nat.le_sub_one_of_lt (Nat.mod_lt _ (Nat.two_pow_pos 64))
  rw [highest]
  split
  · next value _ hfixed =>
    rw [Valuation.value_of_fixed? hfixed]
  · next bits _ hbits =>
    have hindex := Valuation.value_lt hρ (Valuation.hasType_of_operandBits hbits)
    have hmod := Nat.mod_le (ρ.value fold.index + fold.offset) (2 ^ 64)
    omega
  · exact hlt

/-- Some values make the sum as high. -/
theorem Fold.exists_highest (fold : Fold) (f : Func) (symbols : SymbolTable)
    (h : fold.offset < 2 ^ 64) : ∃ ρ : Valuation, ρ.Fits f ∧
      (ρ.value fold.index + fold.offset) % 2 ^ 64 = fold.highest f symbols := by
  -- the index is as high as it can be without a wrap of the sum
  refine ⟨.ofTypes f symbols (Ty.upTo (2 ^ 64 - 1 - fold.offset)),
    Valuation.ofTypes_fits fun bits => ?_, ?_⟩
  · have hpow := Nat.two_pow_pos bits
    show min _ (2 ^ bits - 1) < 2 ^ bits
    omega
  · rw [highest]
    split
    · next value _ hfixed => rw [Valuation.value_of_fixed? hfixed]
    · next bits hfixed hbits =>
      have hty : f.valueType symbols fold.index = .ok (.int bits) :=
        Valuation.hasType_of_operandBits hbits
      rw [Valuation.value_ofTypes hfixed, hty]
      show (min (2 ^ 64 - 1 - fold.offset) (2 ^ bits - 1) + fold.offset) % 2 ^ 64 = _
      rw [Nat.mod_eq_of_lt (by omega)]
      omega
    · next hfixed hbits =>
      have hmost : Ty.upTo (2 ^ 64 - 1 - fold.offset)
          ((f.valueType symbols fold.index).toOption.getD .void) = 2 ^ 64 - 1 - fold.offset := by
        rw [Valuation.operandBits] at hbits
        cases hty : f.valueType symbols fold.index with
        | error fault => rfl
        | ok ty =>
          rw [hty] at hbits
          cases ty with
          | int bits => cases hbits
          | _ => rfl
      rw [Valuation.value_ofTypes hfixed, hmost, Nat.mod_eq_of_lt (by omega)]
      omega

end Fold

/-! ## Room behind an address -/

/-- Whatever the values that fit are, as many bytes as `size` says from an address on lie in the
region. -/
def Func.Reserves (f g : Func) (symbols : SymbolTable) (width : Width) (b q : InstId)
    (size : Valuation → Nat) : Prop :=
  ∀ ρ : Valuation, ρ.Fits f →
    bytesFrom (ρ.result b) ((ρ.after g symbols f.cells.size).result q) + size ρ ≤ 2 * width.size

/-- What keeps a single value of `size` bytes in the region. A fold is measured when it is made, which
is enough for an index that is masked; at the full width an index is read as it is. -/
def Landing.Stays (f : Func) (symbols : SymbolTable) (width : Width) (target : Ty) (size : Nat) :
    Landing → Prop
  | .plain address => address.highest width (.ptr target) + size ≤ 2 * width.size
  | .folded fold => width.bits < 32 ∨ fold.highest f symbols + size ≤ 2 * width.size

namespace Func

variable {f g : Func} {m : Module} {symbols : SymbolTable} {width : Width} {b q : InstId}
  {address : Value} {target : Ty} {size : Nat}

/-- Behind a plain landing there is room for what fits behind the low bits of the address. -/
theorem reserves_iff_of_plain {sizes : Valuation → Nat}
    (hresult : ∀ ρ : Valuation, (ρ.after g symbols f.cells.size).result q =
      (ρ.result b + (Landing.plain address).offset width ρ) % 2 ^ 64) :
    f.Reserves g symbols width b q sizes ↔
      ∀ ρ : Valuation, ρ.Fits f → ρ.value address % width.size + sizes ρ ≤ 2 * width.size := by
  have hbytes : ∀ ρ : Valuation, bytesFrom (ρ.result b)
      ((ρ.after g symbols f.cells.size).result q) = ρ.value address % width.size := by
    intro ρ
    have hlow := Nat.mod_lt (ρ.value address) width.size_pos
    have hwidth := width.size_le
    rw [hresult, bytesFrom_add, Landing.offset_plain]
    exact Nat.mod_eq_of_lt (by omega)
  constructor
  · intro h ρ hρ
    rw [← hbytes]
    exact h ρ hρ
  · intro h ρ hρ
    rw [hbytes]
    exact h ρ hρ

/-- A single value has room exactly when it has room behind the highest address. -/
theorem reserves_plain_iff (hty : f.HasType m.symbols address (.ptr target))
    (hresult : ∀ ρ : Valuation, (ρ.after g symbols f.cells.size).result q =
      (ρ.result b + (Landing.plain address).offset width ρ) % 2 ^ 64) :
    f.Reserves g symbols width b q (fun _ => size) ↔
      (Landing.plain address).Stays f m.symbols width target size := by
  rw [reserves_iff_of_plain hresult]
  constructor
  · intro h
    -- at the highest values, the bound is the one to be shown
    have htop := h _ (Valuation.highest_fits f m.symbols width)
    rw [Valuation.value_highest hty, Nat.mod_eq_of_lt (Valuation.highest_ptr_lt hty)] at htop
    exact htop
  · intro h ρ _
    have hle : ρ.value address % width.size ≤ address.highest width (.ptr target) :=
      Valuation.value_mod_le_highest ρ width address target
    have hstays : address.highest width (.ptr target) + size ≤ 2 * width.size := h
    omega

/-- A single value has room behind a fold when the index is masked, and else exactly when it has room
behind the highest sum. -/
theorem reserves_folded_iff {fold : Fold} (hfold : f.fold? address size width.size = some fold)
    (hresult : ∀ ρ : Valuation, (ρ.after g symbols f.cells.size).result q =
      (ρ.result b + (Landing.folded fold).offset width ρ) % 2 ^ 64) :
    f.Reserves g symbols width b q (fun _ => size) ↔
      (Landing.folded fold).Stays f m.symbols width target size := by
  have hguard := offset_of_fold? hfold
  have hwidth := width.size_le
  cases hmask : width.mask? with
  | some mask =>
    -- the index stays in the subspace, and the constant leaves room in the guard region
    have hbits := (Width.mask?_eq_some_iff.mp hmask).1
    refine iff_of_true (fun ρ _ => ?_) (Or.inl hbits)
    have hlow := Nat.mod_lt (ρ.value fold.index) width.size_pos
    have hoffset : (Landing.folded fold).offset width ρ =
        ρ.value fold.index % width.size + fold.offset :=
      Landing.offset_folded fun hnone => by rw [hmask] at hnone; cases hnone
    rw [hresult, bytesFrom_add, hoffset, Nat.mod_eq_of_lt (by omega)]
    show ρ.value fold.index % width.size + fold.offset + size ≤ 2 * width.size
    omega
  | none =>
    have hbits := Width.not_lt_of_mask?_eq_none hmask
    have hbytes : ∀ ρ : Valuation, bytesFrom (ρ.result b)
        ((ρ.after g symbols f.cells.size).result q) =
        (ρ.value fold.index + fold.offset) % 2 ^ 64 := by
      intro ρ
      rw [hresult, bytesFrom_add, Landing.offset, Width.confine, hmask]
    constructor
    · intro h
      obtain ⟨ρ, hρ, htop⟩ := fold.exists_highest f m.symbols (by omega)
      have hstays := h ρ hρ
      rw [hbytes, htop] at hstays
      exact Or.inr hstays
    · intro h ρ hρ
      have hle : (ρ.value fold.index + fold.offset) % 2 ^ 64 ≤ fold.highest f m.symbols :=
        fold.le_highest hρ
      have hstays := h.resolve_left hbits
      rw [hbytes]
      show (ρ.value fold.index + fold.offset) % 2 ^ 64 + size ≤ 2 * width.size
      omega

/-- The guard region takes up what an index of at most 32 bits and the constant of a fold come to. -/
theorem stays_of_narrow {fold : Fold} {bits : Nat}
    (hfold : f.fold? address size width.size = some fold)
    (hty : f.HasType m.symbols fold.index (.int bits)) (hbits : bits ≤ 32) :
    (Landing.folded fold).Stays f m.symbols width target size := by
  rcases width.lt_or_size_eq with hwidth | hsize
  · exact Or.inl hwidth
  · have hguard := offset_of_fold? hfold
    obtain ⟨ρ, hρ, htop⟩ := fold.exists_highest f m.symbols (by omega)
    have hindex := Valuation.value_lt hρ hty
    have hpow : 2 ^ bits ≤ 2 ^ 32 := Nat.pow_le_pow_right (by omega) hbits
    have hmod := Nat.mod_le (ρ.value fold.index + fold.offset) (2 ^ 64)
    exact Or.inr (by omega)

/-- A length has room behind a plain landing when it is masked, and else exactly when the highest
length has room behind the highest address. -/
theorem reserves_length_iff {old new : Value} {bits : Nat}
    (hty : f.HasType m.symbols address (.ptr target))
    (hresult : ∀ ρ : Valuation, (ρ.after g symbols f.cells.size).result q =
      (ρ.result b + (Landing.plain address).offset width ρ) % 2 ^ 64)
    (hold : f.HasType m.symbols old (.int bits))
    (hlength : (width.mask? = none ∧ new = old) ∨ ∃ mask kept, width.mask? = some mask ∧
      ∀ ρ : Valuation, (ρ.after g symbols f.cells.size).value new =
        ρ.value old &&& (mask % 2 ^ kept)) :
    f.Reserves g symbols width b q (fun ρ => (ρ.after g symbols f.cells.size).value new) ↔
      width.bits < 32 ∨ address.highest width (.ptr target) + old.highest width (.int bits) ≤
        2 * width.size := by
  rw [reserves_iff_of_plain hresult]
  rcases hlength with ⟨hmask, rfl⟩ | ⟨mask, kept, hmask, hvalue⟩
  · have hbits := Width.not_lt_of_mask?_eq_none hmask
    have hafter : ∀ ρ : Valuation,
        (ρ.after g symbols f.cells.size).value new = ρ.value new := fun ρ =>
      Valuation.value_after fun other he => lt_size_of_valueType hold he
    constructor
    · intro h
      -- address and length are as high as they can be at once
      have htop := h _ (Valuation.highest_fits f m.symbols width)
      rw [hafter, Valuation.value_highest hty, Valuation.value_highest hold,
        Nat.mod_eq_of_lt (Valuation.highest_ptr_lt hty)] at htop
      exact Or.inr htop
    · intro h ρ hρ
      have haddress : ρ.value address % width.size ≤ address.highest width (.ptr target) :=
        Valuation.value_mod_le_highest ρ width address target
      have hlen : ρ.value new ≤ new.highest width (.int bits) :=
        Valuation.value_le_highest hρ hold
      have hstays := h.resolve_left hbits
      rw [hafter]
      omega
  · -- both are smaller than the subspace
    obtain ⟨hbits, hmask⟩ := Width.mask?_eq_some_iff.mp hmask
    refine iff_of_true (fun ρ _ => ?_) (Or.inl hbits)
    have hlow := Nat.mod_lt (ρ.value address) width.size_pos
    have hlen : ρ.value old &&& (mask % 2 ^ kept) ≤ mask :=
      Nat.le_trans Nat.and_le_right (Nat.mod_le mask (2 ^ kept))
    rw [hvalue]
    omega

/-- A length of at most 32 bits has room behind every address. -/
theorem highest_length_le {length : Value} {bits : Nat}
    (hty : f.HasType m.symbols address (.ptr target))
    (hlength : f.HasType m.symbols length (.int bits)) (hbits : bits ≤ 32) :
    width.bits < 32 ∨ address.highest width (.ptr target) + length.highest width (.int bits) ≤
      2 * width.size := by
  rcases width.lt_or_size_eq with hwidth | hsize
  · exact Or.inl hwidth
  · have haddress : address.highest width (.ptr target) < width.size :=
      Valuation.highest_ptr_lt hty
    have hlen := Valuation.value_lt (Valuation.highest_fits f m.symbols width) hlength
    rw [Valuation.value_highest hlength] at hlen
    have hpow : 2 ^ bits ≤ 2 ^ 32 := Nat.pow_le_pow_right (by omega) hbits
    exact Or.inr (by omega)

/-- With the highest values, there is no room for as many bytes as `size` says. -/
def overruns (f g : Func) (symbols : SymbolTable) (width : Width) (b q : InstId)
    (size : Valuation → Nat) : Bool :=
  let ρ := Valuation.highest f symbols width
  2 * width.size <
    bytesFrom (ρ.result b) ((ρ.after g symbols f.cells.size).result q) + size ρ

theorem not_reserves_of_overruns {sizes : Valuation → Nat}
    (h : f.overruns g symbols width b q sizes = true) : ¬ f.Reserves g symbols width b q sizes := by
  intro hreserves
  have htop := hreserves _ (Valuation.highest_fits f symbols width)
  exact absurd (of_decide_eq_true h) (Nat.not_lt.mpr htop)

end Func

/-! ## Single values -/

/-- The accesses of single values that `g` makes in place of those of `f` stay in the region exactly
as far as their landings do. A folded access does so whenever its index has at most 32 bits. -/
def Func.ReservesValues (f g : Func) (m m' : Module) (width : Width) (base : Option InstId) :
    Prop :=
  f.LoadsBase g m' base ∧
  ∀ id inst access slot, g.inst? id = some inst → base ≠ some id →
    inst.kind.access? = some access → slot ∈ access.pointers → slot.firstClass = true →
    ∃ b address target q pointee landing, base = some b ∧
      f.operand? id slot.index = some address ∧ f.HasType m.symbols address (.ptr target) ∧
      inst.kind.operand? slot.index = some (.inst q) ∧
      g.Lands f.cells.size width b (.ptr pointee) landing q ∧
      landing.Takes f m'.layout width slot address pointee ∧
      (f.Reserves g m'.symbols width b q (fun _ => m'.layout.storeSize pointee) ↔
        landing.Stays f m.symbols width target (m'.layout.storeSize pointee)) ∧
      ∀ fold bits, landing = .folded fold → f.HasType m.symbols fold.index (.int bits) →
        bits ≤ 32 → f.Reserves g m'.symbols width b q (fun _ => m'.layout.storeSize pointee)

/-- After a successful run, an access of a single value stays in the region for all values exactly
when its landing leaves room for it, which a fold of an index of at most 32 bits does. -/
theorem Pass.run_value_reserved {pass : Pass} {m m' : Module} {report : Report} (hm : m.Built)
    (h : pass.run.run m = .ok report m') :
    List.Forall₂ (fun f g => ∃ base, f.ReservesValues g m m' pass.width base)
      m.functions m'.functions := by
  refine (Pass.run_rebases hm h).imp fun f g hfg => ?_
  obtain ⟨-, base, hrebased⟩ := hfg
  refine ⟨base, hrebased.load, ?_⟩
  intro id inst access slot hi hbase ha hslot _
  obtain ⟨b, address, target, q, pointee, landing, hb, haddress, hty, hq, hlands, htakes, hresult⟩ :=
    hrebased.pointer id inst access slot hi hbase ha hslot
  refine ⟨b, address, target, q, pointee, landing, hb, haddress, hty, hq, hlands, htakes, ?_⟩
  cases landing with
  | plain found =>
    obtain rfl : found = address := htakes
    refine ⟨reserves_plain_iff hty hresult, ?_⟩
    intro fold bits hlanding
    cases hlanding
  | folded fold =>
    have hstays : f.Reserves g m'.symbols pass.width b q (fun _ => m'.layout.storeSize pointee) ↔
        (Landing.folded fold).Stays f m.symbols pass.width target (m'.layout.storeSize pointee) :=
      reserves_folded_iff htakes.2 hresult
    refine ⟨hstays, ?_⟩
    intro same bits hlanding hindex hbits
    cases hlanding
    exact hstays.mpr (stays_of_narrow htakes.2 hindex hbits)

/-- A function that loads 8 bytes through a parameter. -/
def wideLoad : Func :=
  [.addBlock "entry",
    .append 0 (.load (.arg 0)) (.int 64),
    .append 0 (.ret none) .void].foldl Operation.apply
    (.declare "wide" [.ptr (.int 64)] .void)

/-- A module of this function alone. -/
def wideLoadModule : Module where
  name := "wide"
  layout := {}
  functions := [wideLoad]
  globals := []
  flags := []

/-- A subspace of 2 bytes, worked on in order and audited. -/
def Pass.oneBit : Pass where
  width := ⟨1, by decide, by decide⟩
  parallel := false
  verify := true

theorem wideLoadModule_built : wideLoadModule.Built :=
  Module.built_of_functions_eq rfl ((Func.Built.declare _ _ _).history _)

/-- Does instruction 0 load 8 bytes through instruction 7 from where they overrun the region at the
base that instruction 2 loads? -/
def wideLoadOverruns (m' : Module) (g : Func) : Bool :=
  (g.inst? 0).map (·.kind) = some (.load (.inst 7)) ∧
    g.HasType m'.symbols (.inst 7) (.ptr (.int 64)) ∧
    (g.inst? 2).map (·.kind) = some (.load (.global 0)) ∧
    m'.globalNamed? baseSymbol = some 0 ∧
    wideLoad.overruns g m'.symbols Pass.oneBit.width 2 7 (fun _ => m'.layout.storeSize (.int 64))

theorem wideLoadModule_succeeds : Pass.oneBit.succeeds wideLoadModule
    (fun _ m' => m'.functions.any (wideLoadOverruns m')) = true := by
  decide +kernel

/-- The loaded bytes are not all in the region, though the run succeeds. -/
theorem wideLoadModule_overruns : ∃ report m' g,
    Pass.oneBit.run.run wideLoadModule = .ok report m' ∧ g ∈ m'.functions ∧
      (g.inst? 0).map (·.kind) = some (.load (.inst 7)) ∧
      g.HasType m'.symbols (.inst 7) (.ptr (.int 64)) ∧
      (g.inst? 2).map (·.kind) = some (.load (.global 0)) ∧
      m'.globalNamed? baseSymbol = some 0 ∧
      ¬ wideLoad.Reserves g m'.symbols Pass.oneBit.width 2 7
        (fun _ => m'.layout.storeSize (.int 64)) := by
  obtain ⟨report, m', hrun, hany⟩ := Pass.run_of_succeeds wideLoadModule_succeeds
  obtain ⟨g, hg, hcheck⟩ := List.any_eq_true.mp hany
  obtain ⟨hload, hty, hbase, hsymbol, hoverruns⟩ := of_decide_eq_true hcheck
  exact ⟨report, m', g, hrun, hg, hload, hty, hbase, hsymbol, not_reserves_of_overruns hoverruns⟩

theorem wideLoadModule_reserved : ∃ report m',
    Pass.oneBit.run.run wideLoadModule = .ok report m' ∧
      List.Forall₂ (fun f g => ∃ base, f.ReservesValues g wideLoadModule m' Pass.oneBit.width base)
        wideLoadModule.functions m'.functions := by
  obtain ⟨report, m', hrun, -⟩ := Pass.run_of_succeeds wideLoadModule_succeeds
  exact ⟨report, m', hrun, Pass.run_value_reserved wideLoadModule_built hrun⟩

/-! ## Bulk operations -/

/-- The bulk operations that `g` makes in place of those of `f` stay in the region, as far as the
lengths that they read say, exactly when the lengths are masked or the highest length has room behind
the highest address. A length of at most 32 bits has room. -/
def Func.ReservesBulk (f g : Func) (m m' : Module) (width : Width) (base : Option InstId) : Prop :=
  f.LoadsBase g m' base ∧
  ∀ id inst access slot length, g.inst? id = some inst → base ≠ some id →
    inst.kind.access? = some access → slot ∈ access.pointers → access.length = some length →
    ∃ b address target q old bits new, base = some b ∧
      f.operand? id slot.index = some address ∧ f.HasType m.symbols address (.ptr target) ∧
      inst.kind.operand? slot.index = some (.inst q) ∧
      f.operand? id length = some old ∧ f.HasType m.symbols old (.int bits) ∧
      inst.kind.operand? length = some new ∧
      (f.Reserves g m'.symbols width b q
          (fun ρ => (ρ.after g m'.symbols f.cells.size).value new) ↔
        width.bits < 32 ∨ address.highest width (.ptr target) + old.highest width (.int bits) ≤
          2 * width.size) ∧
      (bits ≤ 32 → f.Reserves g m'.symbols width b q
        (fun ρ => (ρ.after g m'.symbols f.cells.size).value new))

/-- After a successful run, a bulk operation stays in the region for all values exactly when its
length is masked or fits behind its address at the worst, as every length of at most 32 bits does. -/
theorem Pass.run_bulk_reserved {pass : Pass} {m m' : Module} {report : Report} (hm : m.Built)
    (h : pass.run.run m = .ok report m') :
    List.Forall₂ (fun f g => ∃ base, f.ReservesBulk g m m' pass.width base)
      m.functions m'.functions := by
  refine (Pass.run_rebases hm h).imp fun f g hfg => ?_
  obtain ⟨-, base, hrebased⟩ := hfg
  refine ⟨base, hrebased.load, ?_⟩
  intro id inst access slot length hi hbase ha hslot hlength
  obtain ⟨b, address, target, q, pointee, landing, hb, haddress, hty, hq, -, htakes, hresult⟩ :=
    hrebased.pointer id inst access slot hi hbase ha hslot
  obtain ⟨old, new, bits, hold, holdTy, hnew, -, hvalue⟩ :=
    hrebased.length id inst access length hi hbase ha hlength
  refine ⟨b, address, target, q, old, bits, new, hb, haddress, hty, hq, hold, holdTy, hnew, ?_⟩
  cases landing with
  | plain found =>
    obtain rfl : found = address := htakes
    have hroom := reserves_length_iff hty hresult holdTy hvalue
    exact ⟨hroom, fun hbits => hroom.mpr (highest_length_le hty holdTy hbits)⟩
  | folded fold =>
    -- only single values are folded
    have hsingle : slot.firstClass = true := htakes.1
    rw [Access.bulk ha hlength slot hslot] at hsingle
    cases hsingle

/-- A function that fills bytes through a parameter, as many as a parameter of 64 bits says. -/
def wideFill : Func :=
  [.addBlock "entry",
    .append 0 (.intrinsic .memset [.arg 0, .int 8 0, .arg 1]) .void,
    .append 0 (.ret none) .void].foldl Operation.apply
    (.declare "fill" [.ptr (.int 8), .int 64] .void)

/-- A module of this function alone. -/
def wideFillModule : Module where
  name := "fill"
  layout := {}
  functions := [wideFill]
  globals := []
  flags := []

theorem wideFillModule_built : wideFillModule.Built :=
  Module.built_of_functions_eq rfl ((Func.Built.declare _ _ _).history _)

/-- Does instruction 0 fill from where instruction 6 says, as many bytes as parameter 1 says, and do
these overrun the region at the base that instruction 2 loads? -/
def wideFillOverruns (m' : Module) (g : Func) : Bool :=
  (g.inst? 0).map (·.kind) = some (.intrinsic .memset [.inst 6, .int 8 0, .arg 1]) ∧
    (g.inst? 2).map (·.kind) = some (.load (.global 0)) ∧
    m'.globalNamed? baseSymbol = some 0 ∧
    wideFill.overruns g m'.symbols Pass.default.width 2 6
      (fun ρ => (ρ.after g m'.symbols wideFill.cells.size).value (.arg 1))

theorem wideFillModule_succeeds : Pass.default.succeeds wideFillModule
    (fun _ m' => m'.functions.any (wideFillOverruns m')) = true := by
  decide +kernel

/-- The filled bytes are not all in the region, though the run succeeds. -/
theorem wideFillModule_overruns : ∃ report m' g,
    Pass.default.run.run wideFillModule = .ok report m' ∧ g ∈ m'.functions ∧
      (g.inst? 0).map (·.kind) = some (.intrinsic .memset [.inst 6, .int 8 0, .arg 1]) ∧
      (g.inst? 2).map (·.kind) = some (.load (.global 0)) ∧
      m'.globalNamed? baseSymbol = some 0 ∧
      ¬ wideFill.Reserves g m'.symbols Pass.default.width 2 6
        (fun ρ => (ρ.after g m'.symbols wideFill.cells.size).value (.arg 1)) := by
  obtain ⟨report, m', hrun, hany⟩ := Pass.run_of_succeeds wideFillModule_succeeds
  obtain ⟨g, hg, hcheck⟩ := List.any_eq_true.mp hany
  obtain ⟨hfill, hbase, hsymbol, hoverruns⟩ := of_decide_eq_true hcheck
  exact ⟨report, m', g, hrun, hg, hfill, hbase, hsymbol, not_reserves_of_overruns hoverruns⟩

theorem wideFillModule_reserved : ∃ report m',
    Pass.default.run.run wideFillModule = .ok report m' ∧
      List.Forall₂ (fun f g => ∃ base, f.ReservesBulk g wideFillModule m' Pass.default.width base)
        wideFillModule.functions m'.functions := by
  obtain ⟨report, m', hrun, -⟩ := Pass.run_of_succeeds wideFillModule_succeeds
  exact ⟨report, m', hrun, Pass.run_bulk_reserved wideFillModule_built hrun⟩

end Confinement
