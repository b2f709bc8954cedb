import Spork.Lib.CInt
import Spork.Unroll.BatchGuard

/-!
# The batch factor in a narrow index type

A batch is accepted when its size is at most `SporkMaxBatch`, whatever the width of the
index. The size is then used twice: the handler converts the published constant to the
index type, and the guard of the batch adds one less than it as a constant of that type.
Both conversions truncate.

## Main definitions

* `predicate`, `inc_i` — the exit compare of an index type, and the handler's increment.
* `FactorSurvives` — neither conversion loses the batch.
* `factorSurvives_iff`.
-/
namespace Spork.Unroll

open CInt LLVM

/-- The exit compare of a loop on an index type. -/
def predicate (ty : IntTy) : Pred := if ty.signed then .slt else .ult

/-- `idx inc_i = __spork_get_unroll_factor(&unroll_site)`. -/
def inc_i (ty : IntTy) (factor : ℕ) : ℤ := ty.wrap factor

/-- The handler reserves a whole batch, and the guard lets a batch start only when all its
indices are below the bound. -/
structure FactorSurvives (ty : IntTy) (K : ℕ) : Prop where
  inc_i_eq : inc_i ty K = K
  in_bounds : ∀ base bound : BitVec ty.bits,
    createBatchGuard (.direct (predicate ty)) base K bound = true →
      ∀ n < K, (predicate ty).val base + n < (predicate ty).val bound

/-- The compare reads the values of the index type. -/
theorem maxVal_predicate (ty : IntTy) : (predicate ty).maxVal ty.bits = ty.max := by
  rw [predicate, IntTy.max]
  split <;> rfl

/-- **The batch factor survives an index type exactly when the type can hold it.** -/
theorem factorSurvives_iff (ty : IntTy) (K : ℕ) (hK : 2 ≤ K) :
    FactorSurvives ty K ↔ (K : ℤ) ≤ ty.max := by
  constructor
  · intro h
    have hrange := ty.wrap_inRange K
    have heq : ty.wrap K = K := h.inc_i_eq
    rw [heq] at hrange
    exact hrange.2
  · intro h
    constructor
    · apply IntTy.wrap_of_inRange
      have hmin := (ty.inRange_small le_rfl (by norm_num)).1
      exact ⟨by omega, h⟩
    · intro base bound hguard n hn
      rw [createBatchGuard_iff _ _ _ (by omega) (by rwa [maxVal_predicate])] at hguard
      omega

/-- The largest batch of `int8_t`. -/
theorem factorSurvives_int8 : FactorSurvives ⟨8, true, .inl rfl⟩ 127 :=
  Iff.mpr (factorSurvives_iff _ 127 (by decide)) (by decide)

/-- A batch of 256 on `int8_t`: the handler reserves nothing, and the guard lets the batch
from 10 start under the bound 100. -/
theorem factorSurvives_fails_at_int8 :
    inc_i ⟨8, true, .inl rfl⟩ 256 = 0 ∧
      createBatchGuard (.direct .slt) (10 : BitVec 8) 256 100 = true ∧
      ¬FactorSurvives ⟨8, true, .inl rfl⟩ 256 := by
  refine ⟨by decide, by decide, fun h => ?_⟩
  have := h.inc_i_eq
  revert this
  decide

end Spork.Unroll
