/-!
# Subspace widths

Sandboxed code addresses a subspace of `2 ^ bits` bytes, followed in memory by a guard region of the
same size. A width of less than 32 bits is enforced by masking the low bits of an address; at 32
bits an address already fits, and there is no mask.
-/

set_option autoImplicit false

namespace Confinement

/-- How many low bits of an address count inside the sandbox. -/
structure Width where
  bits : Nat
  /-- There is something to address. -/
  pos : 0 < bits
  /-- An address has 32 bits. -/
  le : bits ≤ 32
  deriving DecidableEq

namespace Width

/-- The width of a full 32-bit subspace. -/
def full : Width := ⟨32, by decide, by decide⟩

instance : Inhabited Width := ⟨full⟩

/-- The width of a number of bits from 1 to 32. -/
def ofBits? (bits : Nat) : Option Width :=
  if h : 0 < bits ∧ bits ≤ 32 then some ⟨bits, h.1, h.2⟩ else none

/-- Bytes in the subspace. -/
def size (w : Width) : Nat :=
  Nat.pow 2 w.bits

/-- The mask that keeps the low bits of an address; none when every bit is kept. -/
def mask? (w : Width) : Option Nat :=
  if w.bits < 32 then some (w.size - 1) else none

/-- The offset in the subspace that a 32-bit address stands for. -/
def confine (w : Width) (address : Nat) : Nat :=
  match w.mask? with
  | some mask => address &&& mask
  | none => address

theorem ofBits?_bits (w : Width) : ofBits? w.bits = some w := by
  simp [ofBits?, w.pos, w.le]

theorem ofBits?_eq_none_iff {bits : Nat} : ofBits? bits = none ↔ bits = 0 ∨ 32 < bits := by
  unfold ofBits?
  split <;> simp <;> omega

/-- Masking is reduction modulo the size. -/
theorem confine_eq_mod (w : Width) {address : Nat} (h : address < 0x100000000) :
    w.confine address = address % w.size := by
  unfold confine mask? size
  by_cases hw : w.bits < 32
  · rw [if_pos hw]
    exact Nat.and_two_pow_sub_one_eq_mod address w.bits
  · have e : w.bits = 32 := by have := w.le; omega
    rw [if_neg hw, e]
    exact (Nat.mod_eq_of_lt h).symm

end Width

/-- An access of `size` bytes that starts `offset` bytes beyond an address of a subspace stays inside
the subspace and its guard region. An access wider than the subspace never does. -/
def StaysInGuard (offset : Int) (size subspace : Nat) : Prop :=
  0 ≤ offset ∧ size ≤ subspace ∧ offset.toNat ≤ subspace - size

instance (offset : Int) (size subspace : Nat) : Decidable (StaysInGuard offset size subspace) :=
  inferInstanceAs (Decidable (_ ∧ _ ∧ _))

end Confinement
