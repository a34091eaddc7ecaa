import Confinement.Constant
import Confinement.Width
import Mathlib.Algebra.Group.Nat.Even

/-!
# The words that constants stand for

An integer constant of `bits` bits stands for the low `bits` bits of its 64-bit reading, which is
extended by its sign when the constant is wider (`Constant.word`). A mask built in any integer type
keeps what the type holds of it (`word_ofInt`), and a constant whose unsigned reading is a mask is
worth that mask (`word_eq_of_unsigned?`).
-/

set_option autoImplicit false

namespace Confinement

/-- The number of 64-bit words. -/
def wordCount : Nat := 0x10000000000000000

theorem wordCount_eq : wordCount = 2 ^ 64 := by decide

namespace Constant

/-- The unsigned value of an integer constant of a width with a stored reading. -/
def word (bits : Nat) (value : Int) : Nat :=
  (value.bmod wordCount % (2 ^ bits : Nat)).toNat

theorem word_lt (bits : Nat) (value : Int) : word bits value < 2 ^ bits := by
  have hpos : (0 : Int) < (2 ^ bits : Nat) := Int.natCast_pos.mpr (Nat.two_pow_pos bits)
  have hlt := Int.emod_lt_of_pos (value.bmod wordCount) hpos
  have hle := Int.emod_nonneg (value.bmod wordCount) (Int.ne_of_gt hpos)
  rw [word]
  omega

/-- Up to 64 bits only the low bits of the stored reading count. -/
theorem word_eq_of_le {bits : Nat} (h : bits ≤ 64) (value : Int) :
    word bits value = (value % (2 ^ bits : Nat)).toNat := by
  have hdvd : ((2 ^ bits : Nat) : Int) ∣ (wordCount : Nat) := by
    rw [wordCount_eq]
    exact Int.natCast_dvd_natCast.mpr (Nat.pow_dvd_pow 2 h)
  rw [word]
  rw [← Int.emod_emod_of_dvd _ hdvd, Int.bmod_emod, Int.emod_emod_of_dvd _ hdvd]

/-- A number that 63 bits hold reads as itself. -/
theorem bmod_natCast {value : Nat} (h : value < 0x8000000000000000) :
    (value : Int).bmod wordCount = value := by
  have he : (value : Int) % wordCount = value := by
    apply Int.emod_eq_of_lt
    · omega
    · rw [wordCount]
      omega
  rw [Int.bmod_eq_emod_of_lt, he]
  rw [he]
  rw [wordCount]
  omega

/-- A reading that 63 bits hold is kept at every width. -/
theorem word_natCast {value : Nat} (h : value < 0x8000000000000000) (bits : Nat) :
    word bits value = value % 2 ^ bits := by
  rw [word]
  rw [bmod_natCast h, ← Int.natCast_mod]
  exact Int.toNat_natCast _

/-- A constant of 64 bits reads as the number that it was built from. -/
theorem signed?_ofInt_natCast {value : Nat} (h : value < 0x8000000000000000) :
    (ofInt 64 value).signed? = some (value : Int) := by
  have hcount : Nat.pow 2 (storedBits 64) = wordCount := by decide
  rw [signed?_ofInt, hcount, bmod_natCast h]

/-- A constant that holds all of a small number reads as that number. -/
theorem unsigned?_ofInt_natCast {bits value : Nat} (hsmall : value < 0x8000000000000000)
    (hbits : value < 2 ^ bits) : (ofInt bits value).unsigned? = some value := by
  have hdvd : (2 ^ min bits 64 : Nat) ∣ 2 ^ storedBits bits := by
    apply Nat.pow_dvd_pow
    rw [storedBits]
    split <;> omega
  have hlt : value < 2 ^ min bits 64 := by
    rcases Nat.le_total bits 64 with hle | hle
    · rw [Nat.min_eq_left hle]
      exact hbits
    · rw [Nat.min_eq_right hle]
      omega
  show some (((value : Int).bmod (2 ^ storedBits bits : Nat)) % (2 ^ min bits 64 : Nat)).toNat = _
  rw [← Int.emod_emod_of_dvd _ (Int.natCast_dvd_natCast.mpr hdvd), Int.bmod_emod,
    Int.emod_emod_of_dvd _ (Int.natCast_dvd_natCast.mpr hdvd), ← Int.natCast_mod,
    Nat.mod_eq_of_lt hlt, Int.toNat_natCast]

/-- A constant built in a type is worth what the type holds of the number. -/
theorem word_ofInt {value : Nat} (h : value < 0x8000000000000000) (bits : Nat) :
    word bits ((value : Int).bmod (Nat.pow 2 (storedBits bits))) = value % 2 ^ bits := by
  by_cases hs : bits = 0 ∨ 64 ≤ bits
  · have e : Nat.pow 2 (storedBits bits) = wordCount := by
      rw [storedBits, if_pos hs, wordCount_eq]
      rfl
    rw [e, ← word_natCast h bits]
    unfold word
    rw [Int.bmod_bmod]
  · have e : storedBits bits = bits := if_neg hs
    rw [e, word_eq_of_le (by omega)]
    show ((value : Int).bmod (2 ^ bits) % (2 ^ bits : Nat)).toNat = value % 2 ^ bits
    rw [Int.bmod_emod, ← Int.natCast_mod]
    exact Int.toNat_natCast _

/-- A constant that reads as a small number is worth that number. -/
theorem word_eq_of_unsigned? {bits n : Nat} {value : Int} (hn : n < 0x8000000000000000)
    (h : (Constant.int bits value).unsigned? = some n) : word bits value = n := by
  have h' : (value % (Nat.pow 2 (min bits 64) : Nat)).toNat = n := Option.some.inj h
  by_cases hb : bits ≤ 64
  · rw [Nat.min_eq_left hb] at h'
    rw [word_eq_of_le hb]
    exact h'
  · have hw : Nat.pow 2 (min bits 64) = wordCount := by
      rw [Nat.min_eq_right (by omega), wordCount_eq]
      rfl
    rw [hw] at h'
    have he : value % (wordCount : Nat) = n := by
      have := Int.emod_nonneg value (b := (wordCount : Nat)) (by unfold wordCount; omega)
      omega
    have hb' : value.bmod wordCount = n := by
      rw [Int.bmod_eq_emod_of_lt, he]
      rw [he]
      rw [wordCount]
      omega
    rw [word]
    rw [hb', ← Int.natCast_mod, Int.toNat_natCast]
    refine Nat.mod_eq_of_lt (Nat.lt_of_lt_of_le hn ?_)
    calc 0x8000000000000000 = 2 ^ 63 := by decide
      _ ≤ 2 ^ bits := Nat.pow_le_pow_right (by omega) (by omega)

end Constant

/-! ## Masks -/

namespace Width

theorem size_eq (w : Width) : w.size = 2 ^ w.bits := rfl

theorem size_pos (w : Width) : 0 < w.size := Nat.two_pow_pos w.bits

theorem size_le (w : Width) : w.size ≤ 0x100000000 :=
  calc w.size = 2 ^ w.bits := rfl
    _ ≤ 2 ^ 32 := Nat.pow_le_pow_right (by omega) w.le
    _ = 0x100000000 := by decide

/-- The mask is one less than the size, and there is one below 32 bits only. -/
theorem mask?_eq_some_iff {w : Width} {mask : Nat} :
    w.mask? = some mask ↔ w.bits < 32 ∧ mask = w.size - 1 := by
  rw [mask?]
  split
  · next h => simp [h, eq_comm]
  · next h => simp [h]

theorem mask?_eq_none_iff {w : Width} : w.mask? = none ↔ w.bits = 32 := by
  have := w.le
  rw [mask?]
  split
  · next h =>
    simp only [reduceCtorEq, false_iff]
    omega
  · next h =>
    simp only [true_iff]
    omega

/-- Without a mask every 32-bit number is inside the subspace. -/
theorem size_of_mask?_eq_none {w : Width} (h : w.mask? = none) : w.size = 0x100000000 := by
  rw [size_eq, mask?_eq_none_iff.mp h]
  decide

theorem not_lt_of_mask?_eq_none {w : Width} (h : w.mask? = none) : ¬ w.bits < 32 := by
  rw [mask?_eq_none_iff.mp h]
  exact Nat.lt_irrefl 32

/-- A width leaves bits out, or its subspace is what 32 bits can name. -/
theorem lt_or_size_eq (w : Width) : w.bits < 32 ∨ w.size = 0x100000000 := by
  rcases Nat.lt_or_ge w.bits 32 with hlt | hge
  · exact Or.inl hlt
  · exact Or.inr (size_of_mask?_eq_none (mask?_eq_none_iff.mpr (Nat.le_antisymm w.le hge)))

theorem and_mask {w : Width} {mask : Nat} (h : w.mask? = some mask) (n : Nat) :
    n &&& mask = n % w.size := by
  rw [(mask?_eq_some_iff.mp h).2, size_eq]
  exact Nat.and_two_pow_sub_one_eq_mod n w.bits

end Width

end Confinement
