import Confinement.Function
import Confinement.Width

/-!
# Addresses of the form `index + constant`

An address that is converted from the 32-bit sum of an index and a small constant needs no second
conversion to an integer: the index alone is confined, and the constant is added again in 64 bits.
The guard region takes up what the sum reaches beyond the subspace.
-/

set_option autoImplicit false

namespace Confinement

/-- An address recognised as the sum of an index and a constant. -/
structure Fold where
  /-- The 32-bit index. -/
  index : Value
  /-- The constant, not negative. -/
  offset : Nat
  /-- The conversion of the sum to an address. -/
  cast : InstId
  /-- The addition. -/
  add : InstId
  deriving DecidableEq, Inhabited

/-- Recognises the address of an access of `size` bytes as an index plus a constant that leaves the
access inside the guard region. Only the second summand is looked at. -/
def Func.fold? (f : Func) (address : Value) (size subspace : Nat) : Option Fold := do
  let cast ← address.inst?
  let .cast .inttoptr sum := (← f.inst? cast).kind | none
  let add ← sum.inst?
  let inst ← f.inst? add
  let .binary .add index constant := inst.kind | none
  let offset ← constant.const?.bind (·.signed?)
  if inst.ty.isInt 32 ∧ StaysInGuard offset size subspace then
    some { index, offset := offset.toNat, cast, add }
  else none

/-- An address folds exactly when it is converted from a 32-bit addition whose second summand is a
constant that leaves the access inside the guard region; the fold then names these parts. -/
theorem Func.fold?_eq_some_iff {f : Func} {address : Value} {size subspace : Nat} {fold : Fold} :
    f.fold? address size subspace = some fold ↔
      address = .inst fold.cast ∧
      ∃ castInst addInst c offset,
        f.inst? fold.cast = some castInst ∧
        castInst.kind = .cast .inttoptr (.inst fold.add) ∧
        f.inst? fold.add = some addInst ∧
        addInst.ty = .int 32 ∧
        addInst.kind = .binary .add fold.index (.const c) ∧
        c.signed? = some offset ∧
        StaysInGuard offset size subspace ∧
        fold.offset = offset.toNat := by
  constructor
  · intro h
    unfold Func.fold? at h
    simp only [Option.bind_eq_bind, Option.bind_eq_some_iff] at h
    obtain ⟨cast, hcast, castInst, hcastInst, h⟩ := h
    split at h
    · next sum hkind =>
      simp only [Option.bind_eq_some_iff] at h
      obtain ⟨add, hadd, addInst, haddInst, h⟩ := h
      split at h
      · next index constant haddKind =>
        simp only [Option.bind_eq_some_iff] at h
        obtain ⟨offset, ⟨c, hc, hoffset⟩, h⟩ := h
        split at h
        · next hguard =>
          rw [Value.inst?_eq_some_iff] at hcast hadd
          rw [Value.const?_eq_some_iff] at hc
          rw [Ty.isInt_iff] at hguard
          cases h
          subst hadd hc
          exact ⟨hcast, castInst, addInst, c, offset, hcastInst, hkind, haddInst, hguard.1,
            haddKind, hoffset, hguard.2, rfl⟩
        · cases h
      · cases h
    · cases h
  · rintro ⟨rfl, castInst, addInst, c, offset, hcastInst, hkind, haddInst, hty, haddKind, hoffset,
      hguard, hfold⟩
    obtain ⟨index, n, cast, add⟩ := fold
    subst hfold
    simp [Func.fold?, Value.inst?, Value.const?, Ty.isInt, hcastInst, hkind, haddInst, hty, haddKind,
      hoffset, hguard]

end Confinement
