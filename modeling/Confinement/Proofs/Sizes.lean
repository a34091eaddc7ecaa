import Confinement.Proofs.Word
import Confinement.Ty.Size
import Mathlib.Algebra.Group.Int.Defs

/-!
# Sizes without a largest one

Store sizes stop at `maxSize`, and they stop at every level of an array, so one could fear that a
size which stopped further in is taken for a small one further out. It is not: cutting a factor off
at the largest size changes no product that is cut off there too (`min_mul_min`), so a store size is
the exact size cut off once (`DataLayout.storeSize_eq`). The exact size is defined over all natural
numbers, and what fits a subspace is far below the largest size, so an offset is in bounds exactly
when it is for the exact size (`DataLayout.storeSize_exact`).
-/

set_option autoImplicit false

namespace Confinement

/-- Cutting a factor off changes nothing behind a cut of the product at the same number. -/
theorem min_mul_min (a n cap : Nat) : min (min a cap * n) cap = min (a * n) cap := by
  rcases Nat.le_total a cap with ha | ha
  · rw [Nat.min_eq_left ha]
  · rw [Nat.min_eq_right ha]
    cases n with
    | zero => simp
    | succ n =>
      -- both products have reached the cap
      have hcap : cap ≤ cap * (n + 1) := Nat.le_mul_of_pos_right cap n.succ_pos
      have hprod : cap ≤ a * (n + 1) := Nat.le_trans hcap (Nat.mul_le_mul_right (n + 1) ha)
      rw [Nat.min_eq_right hcap, Nat.min_eq_right hprod]

namespace DataLayout

/-- Bytes that a value of a type takes, however many these are. A rest of bits takes another byte. -/
def exactSize (layout : DataLayout) : Ty → Nat
  | .void => 0
  | .int n => n / 8 + if n % 8 = 0 then 0 else 1
  | .ptr _ => layout.pointerBytes
  | .array n t => n * layout.exactSize t
  | .func _ _ => 0

/-- A store size is the exact size, cut off once. -/
theorem storeSize_eq (layout : DataLayout) (t : Ty) :
    layout.storeSize t = min (layout.exactSize t) maxSize := by
  induction t using Ty.induct with
  | void => simp [storeSize, exactSize]
  | int n =>
    have hceil : (n + 7) / 8 = n / 8 + if n % 8 = 0 then 0 else 1 := by
      split <;> omega
    rw [storeSize, exactSize, hceil]
  | ptr t => rw [storeSize, exactSize]
  | array n t ih => rw [storeSize, exactSize, ih, min_mul_min, Nat.mul_comm]
  | func r ps => simp [storeSize, exactSize]

/-- A size that is cut off beyond a subspace stays in the guard region when it does so uncut. -/
theorem staysInGuard_min_iff {offset : Int} {size subspace cap : Nat} (hcap : subspace < cap) :
    StaysInGuard offset (min size cap) subspace ↔ 0 ≤ offset ∧ offset + size ≤ subspace := by
  rw [StaysInGuard]
  constructor
  · rintro ⟨hpos, hsize, hoffset⟩
    -- a size that was cut off would be larger than the subspace
    have huncut : min size cap = size := by omega
    rw [huncut] at hsize hoffset
    exact ⟨hpos, by omega⟩
  · rintro ⟨hpos, hsum⟩
    have huncut : min size cap = size := by omega
    rw [huncut]
    exact ⟨hpos, by omega, by omega⟩

/-- The bound of a fold is exact, though sizes are cut off. A store size is the exact size cut
off at the largest 64-bit number, and an offset is in bounds exactly when the access behind it, at
its exact size, ends inside a subspace. -/
theorem storeSize_exact (layout : DataLayout) (t : Ty) :
    layout.storeSize t = min (layout.exactSize t) (2 ^ 64 - 1) ∧
      ∀ (w : Width) (offset : Int), StaysInGuard offset (layout.storeSize t) w.size ↔
        0 ≤ offset ∧ offset + layout.exactSize t ≤ 2 ^ w.bits := by
  have hmax : maxSize = 2 ^ 64 - 1 := by decide
  refine ⟨hmax ▸ layout.storeSize_eq t, fun w offset => ?_⟩
  have hcap : w.size < maxSize := Nat.lt_of_le_of_lt w.size_le (by decide)
  rw [storeSize_eq, staysInGuard_min_iff hcap, Width.size_eq, Int.natCast_pow]
  rfl

/-- An array that holds nothing has no size, whatever was cut off inside it. -/
example (layout : DataLayout) :
    let huge := Ty.array (2 ^ 63) (.array 2 (.int 8))
    layout.storeSize huge = 2 ^ 64 - 1 ∧ layout.storeSize (.array 0 huge) = 0 := by
  simp [storeSize, maxSize]

end DataLayout

end Confinement
