import Confinement.Constant
import Mathlib.Data.Int.ModEq

/-!
# The two readings of an integer constant

Numbers that agree in their low bits make the same constant, and no others do. The signed reading is
the one number of the width that agrees with what the constant was built from (`SignedLow`), the
unsigned reading is the remainder, and each of the two leads back to the constant
(`Constant.ofInt_canonical`). On 64-bit words the readings are shifts and masks, at every width
(`Constant.ofInt_toInt`, `Constant.unsigned?_int_toInt`).
-/

set_option autoImplicit false

namespace Confinement

/-- `s` is a signed number of `bits` bits that agrees with `value` in all of them. -/
structure SignedLow (bits : Nat) (value s : Int) : Prop where
  congruent : s ≡ value [ZMOD 2 ^ bits]
  least : -2 ^ (bits - 1) ≤ s
  most : s < 2 ^ (bits - 1)

section Remainders

variable {bits : Nat} {value s : Int}

theorem natCast_two_pow_half (h : 1 ≤ bits) : ((2 ^ bits : Nat) : Int) = 2 * 2 ^ (bits - 1) := by
  have hsucc : bits = (bits - 1) + 1 := by omega
  rw [hsucc, Nat.pow_succ, Nat.mul_comm, Nat.add_sub_cancel]
  push_cast
  rfl

/-- The balanced remainder is the signed number of the low bits, and the only one. -/
theorem bmod_eq_iff_signedLow (h : 1 ≤ bits) :
    value.bmod (2 ^ bits) = s ↔ SignedLow bits value s := by
  have hhalf := natCast_two_pow_half h
  have hpow : ((2 ^ bits : Nat) : Int) = 2 ^ bits := Int.natCast_pow 2 bits
  rw [Int.bmod_eq_iff (Nat.two_pow_pos bits)]
  constructor
  · rintro ⟨hleast, hmost, hdvd⟩
    rw [hpow] at hdvd
    exact ⟨(Int.modEq_iff_dvd.mpr hdvd).symm, by omega, by omega⟩
  · rintro ⟨hcongruent, hleast, hmost⟩
    have hdvd := Int.modEq_iff_dvd.mp hcongruent.symm
    rw [hpow]
    exact ⟨by omega, by omega, hdvd⟩

theorem bmod_eq_bmod_iff_modEq {v w : Int} :
    v.bmod (2 ^ bits) = w.bmod (2 ^ bits) ↔ v ≡ w [ZMOD 2 ^ bits] := by
  rw [Int.bmod_eq_bmod_iff_bmod_sub_eq_zero, ← Int.dvd_iff_bmod_eq_zero, Int.natCast_pow,
    Int.modEq_comm, Int.modEq_iff_dvd]
  rfl

end Remainders

/-! ## Words -/

/-- The low `bits` bits of a word with their sign: the other ones are shifted out at the top, and
copies of the sign come in when they are shifted back. -/
def lowSigned (bits : Nat) (x : BitVec 64) : BitVec 64 :=
  if bits = 0 ∨ 64 ≤ bits then x else (x <<< (64 - bits)).sshiftRight (64 - bits)

/-- The low `bits` bits of a word without a sign: the other ones are masked. -/
def lowUnsigned (bits : Nat) (x : BitVec 64) : BitVec 64 :=
  if bits < 64 then x &&& (1#64 <<< bits - 1#64) else x

/-- Shifting a word up and back down reduces it. -/
theorem toInt_sshiftRight_shiftLeft {bits : Nat} (hpos : 1 ≤ bits) (hle : bits ≤ 64)
    (x : BitVec 64) :
    ((x <<< (64 - bits)).sshiftRight (64 - bits)).toInt = x.toInt.bmod (2 ^ bits) := by
  have hsplit : 2 ^ 64 = 2 ^ (64 - bits) * 2 ^ bits := by
    rw [← Nat.pow_add, Nat.sub_add_cancel hle]
  have heven : 2 ∣ 2 ^ bits := dvd_pow_self 2 (by omega)
  have hup : (x <<< (64 - bits)).toInt =
      (2 ^ (64 - bits) : Nat) * (x.toNat : Int).bmod (2 ^ bits) := by
    rw [← Int.mod_bmod_mul_of_pos _ _ (Nat.two_pow_pos (64 - bits)) heven, ← hsplit,
      BitVec.toInt_shiftLeft, Nat.shiftLeft_eq, Nat.mul_comm, Int.natCast_mul]
  have hunit : ((2 ^ (64 - bits) : Nat) : Int) ≠ 0 :=
    Int.natCast_ne_zero.mpr (Nat.ne_of_gt (Nat.two_pow_pos (64 - bits)))
  calc ((x <<< (64 - bits)).sshiftRight (64 - bits)).toInt
      = (x <<< (64 - bits)).toInt / (2 ^ (64 - bits) : Nat) := by
        rw [BitVec.toInt_sshiftRight, Int.shiftRight_eq_div_pow]
    _ = (x.toNat : Int).bmod (2 ^ bits) := by
        rw [hup, Int.mul_ediv_cancel_left _ hunit]
    _ = x.toInt.bmod (2 ^ bits) := by
        rw [BitVec.toInt_eq_toNat_bmod, Int.bmod_bmod_of_dvd (Nat.pow_dvd_pow 2 hle)]

/-- The mask of a width below 64 has a one for each of its bits. -/
theorem toNat_lowMask {bits : Nat} (h : bits < 64) :
    (1#64 <<< bits - 1#64).toNat = 2 ^ bits - 1 := by
  have hone : (1#64 <<< bits).toNat = 2 ^ bits := by
    rw [BitVec.toNat_shiftLeft, Nat.shiftLeft_eq]
    have hlt : 2 ^ bits < 2 ^ 64 := Nat.pow_lt_pow_right (by omega) h
    show 1 * 2 ^ bits % 2 ^ 64 = 2 ^ bits
    rw [Nat.one_mul, Nat.mod_eq_of_lt hlt]
  have hpos : 1#64 ≤ 1#64 <<< bits := by
    rw [BitVec.le_def, hone]
    exact Nat.two_pow_pos bits
  rw [BitVec.toNat_sub_of_le hpos, hone]
  rfl

/-- A constant holds the low bits of the word that it is built from, with their sign. -/
theorem Constant.ofInt_toInt (bits : Nat) (x : BitVec 64) :
    ofInt bits x.toInt = .int bits (lowSigned bits x).toInt := by
  rw [ofInt, storedBits, lowSigned]
  congr 1
  split
  · -- a width that is read as 64 keeps the word
    rw [BitVec.toInt_eq_toNat_bmod]
    exact Int.bmod_bmod
  · next h => exact (toInt_sshiftRight_shiftLeft (by omega) (by omega) x).symm

/-- The unsigned reading of a stored word is its low bits without a sign. -/
theorem Constant.unsigned?_int_toInt (bits : Nat) (x : BitVec 64) :
    (int bits x.toInt).unsigned? = some (lowUnsigned bits x).toNat := by
  have hdvd : (2 ^ min bits 64 : Nat) ∣ 2 ^ 64 := Nat.pow_dvd_pow 2 (Nat.min_le_right bits 64)
  have hread : (int bits x.toInt).unsigned? = some (x.toNat % 2 ^ min bits 64) := by
    show some (x.toInt % (2 ^ min bits 64 : Nat)).toNat = _
    rw [BitVec.toInt_eq_toNat_bmod, ← Int.emod_emod_of_dvd _ (Int.natCast_dvd_natCast.mpr hdvd),
      Int.bmod_emod, Int.emod_emod_of_dvd _ (Int.natCast_dvd_natCast.mpr hdvd), ← Int.natCast_mod,
      Int.toNat_natCast]
  rw [hread, lowUnsigned]
  split
  · next h =>
    rw [Nat.min_eq_left (by omega), BitVec.toNat_and, toNat_lowMask h,
      Nat.and_two_pow_sub_one_eq_mod]
  · next h =>
    rw [Nat.min_eq_right (by omega), Nat.mod_eq_of_lt x.isLt]

/-! ## Constants -/

namespace Constant

/-- What makes `c` the constant of `bits` bits for the number `value`. -/
structure Canonical (bits : Nat) (value : Int) (c : Constant) : Prop where
  /-- It has the type of the width. -/
  typed : c.ty = .int bits
  /-- It reads as the one signed number of the width that agrees with `value`. -/
  signed : ∃ s, c.signed? = some s ∧ SignedLow bits value s ∧
    ∀ t, SignedLow bits value t → t = s
  /-- Without a sign it reads as the remainder of `value`. -/
  unsigned : ∃ u : Nat, c.unsigned? = some u ∧ (u : Int) = value % 2 ^ bits
  /-- The signed reading makes the same constant. -/
  ofSigned : ∀ s, c.signed? = some s → ofInt bits s = c
  /-- The word of the unsigned reading makes the same constant. -/
  ofUnsigned : ∀ u, c.unsigned? = some u → ofInt bits (BitVec.ofNat 64 u).toInt = c
  /-- If `value` is a word, shifts make the stored word of it, and a mask makes the unsigned reading
  of the stored word. -/
  ofWord : ∀ x : BitVec 64, x.toInt = value → c = .int bits (lowSigned bits x).toInt ∧
    c.unsigned? = some (lowUnsigned bits (lowSigned bits x)).toNat

variable {bits : Nat}

/-- Up to 64 bits all that counts is the remainder. -/
theorem ofInt_eq (hpos : 1 ≤ bits) (hle : bits ≤ 64) (value : Int) :
    ofInt bits value = .int bits (value.bmod (2 ^ bits)) := by
  have hstored : storedBits bits = bits := by
    rw [storedBits]
    split <;> omega
  rw [ofInt, hstored]
  rfl

theorem ofInt_eq_ofInt_iff (hpos : 1 ≤ bits) (hle : bits ≤ 64) {v w : Int} :
    ofInt bits v = ofInt bits w ↔ v ≡ w [ZMOD 2 ^ bits] := by
  rw [ofInt_eq hpos hle, ofInt_eq hpos hle, int.injEq, bmod_eq_bmod_iff_modEq]
  exact and_iff_right rfl

/-- The signed reading agrees with what the constant was built from. -/
theorem signedLow_ofInt (hpos : 1 ≤ bits) (hle : bits ≤ 64) (value : Int) :
    ∃ s, (ofInt bits value).signed? = some s ∧ SignedLow bits value s := by
  rw [ofInt_eq hpos hle]
  exact ⟨_, rfl, (bmod_eq_iff_signedLow hpos).mp rfl⟩

theorem unsigned?_ofInt (hpos : 1 ≤ bits) (hle : bits ≤ 64) (value : Int) :
    ∃ u : Nat, (ofInt bits value).unsigned? = some u ∧ (u : Int) = value % 2 ^ bits := by
  have hnonneg : 0 ≤ value % 2 ^ bits := Int.emod_nonneg _ (pow_ne_zero bits two_ne_zero)
  refine ⟨(value % 2 ^ bits).toNat, ?_, Int.toNat_of_nonneg hnonneg⟩
  rw [ofInt_eq hpos hle]
  show some ((value.bmod (2 ^ bits)) % (2 ^ min bits 64 : Nat)).toNat = _
  rw [Nat.min_eq_left hle, Int.bmod_emod, Int.natCast_pow]
  rfl

/-- A word agrees in its bits with the number that it is cut from. -/
theorem toInt_ofNat_modEq (hle : bits ≤ 64) (u : Nat) :
    (BitVec.ofNat 64 u).toInt ≡ (u : Int) [ZMOD 2 ^ bits] := by
  rw [← bmod_eq_bmod_iff_modEq, BitVec.toInt_ofNat', Int.bmod_bmod_of_dvd (Nat.pow_dvd_pow 2 hle)]

/-- Constants are canonical. From 1 to 64 bits, a constant has the type of its width, it reads
as the one signed number of the width and as the remainder that agree with what it was built from,
both readings lead back to it, and two numbers make the same constant exactly when they agree in the
bits of the width. -/
theorem ofInt_canonical (hpos : 1 ≤ bits) (hle : bits ≤ 64) (v w : Int) :
    (ofInt bits v).Canonical bits v ∧ (ofInt bits v = ofInt bits w ↔ v ≡ w [ZMOD 2 ^ bits]) := by
  obtain ⟨s, hs, hlow⟩ := signedLow_ofInt hpos hle v
  obtain ⟨u, hu, hrem⟩ := unsigned?_ofInt hpos hle v
  refine ⟨{ typed := rfl, signed := ⟨s, hs, hlow, ?unique⟩, unsigned := ⟨u, hu, hrem⟩,
            ofSigned := ?ofSigned, ofUnsigned := ?ofUnsigned, ofWord := ?ofWord },
    ofInt_eq_ofInt_iff hpos hle⟩
  case unique =>
    intro t ht
    rw [← bmod_eq_iff_signedLow hpos] at ht hlow
    exact ht.symm.trans hlow
  case ofSigned =>
    intro s' hs'
    cases hs.symm.trans hs'
    exact (ofInt_eq_ofInt_iff hpos hle).mpr hlow.congruent
  case ofUnsigned =>
    intro u' hu'
    cases hu.symm.trans hu'
    have hagree : (u : Int) ≡ v [ZMOD 2 ^ bits] := by
      rw [hrem]
      exact Int.mod_modEq v (2 ^ bits)
    -- as a word the remainder may turn negative, but its low bits stay
    exact (ofInt_eq_ofInt_iff hpos hle).mpr ((toInt_ofNat_modEq hle u).trans hagree)
  case ofWord =>
    rintro x rfl
    refine ⟨ofInt_toInt bits x, ?_⟩
    rw [ofInt_toInt, unsigned?_int_toInt]

/-- The 32 low bits of the largest 33-bit number are all ones, as those of -1 are. -/
theorem ofInt_canonical_ones : (1 ≤ 32 ∧ 32 ≤ 64) ∧
    (ofInt 32 0x1ffffffff).Canonical 32 0x1ffffffff ∧ ofInt 32 0x1ffffffff = ofInt 32 (-1) ∧
      (ofInt 32 0x1ffffffff).signed? = some (-1) ∧
      (ofInt 32 0x1ffffffff).unsigned? = some 0xffffffff := by
  obtain ⟨hcanonical, hsame⟩ := @ofInt_canonical 32 (by decide) (by decide) 0x1ffffffff (-1)
  exact ⟨by decide, hcanonical, hsame.mpr (by decide), by decide, by decide⟩

end Constant

end Confinement
