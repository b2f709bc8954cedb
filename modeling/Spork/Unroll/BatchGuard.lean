import Spork.Lib.LLVMInt

/-!
# The exit test of a marked loop and the batch guard

The part of a matched loop that decides whether it goes on: the predicate of its exit
compare, and the integer casts between the induction, the bound load and the compare.
`createBatchGuard` rebuilds that test for a batch of `count` iterations, guarding the
addition that finds the last index of the batch against overflow.

## Main definitions

* `ExitTest`, `ExitTest.direct` — the exit compare, with and without casts.
* `createBatchGuard`.
* `createBatchGuard_iff` — over the integers the guard asks for the whole batch.
-/
namespace Spork.Unroll

open LLVM

variable {w bw cw : ℕ}

/-- Predicate and cast chains of the exit compare. -/
structure ExitTest (w bw cw : ℕ) where
  predicate : Pred
  nextCasts : BitVec w → BitVec cw
  boundCasts : BitVec bw → BitVec cw

/-- The compare uses the induction and the bound load directly. -/
def ExitTest.direct (p : Pred) : ExitTest w w w := ⟨p, id, id⟩

/-- `!(overflow(base + (count - 1))) && casts(base + count - 1) < casts(bound)`. -/
def createBatchGuard (t : ExitTest w bw cw) (base : BitVec w) (count : ℕ)
    (bound : BitVec bw) : Bool :=
  if count > 1 then
    let offset := BitVec.ofNat w (count - 1)
    let last := base + offset
    let overflow :=
      if t.predicate.isSigned then base.saddOverflow offset else base.uaddOverflow offset
    !overflow && t.predicate.lt (t.nextCasts last) (t.boundCasts bound)
  else
    t.predicate.lt (t.nextCasts base) (t.boundCasts bound)

/-- The overflow bit of the guard, read over the integers. -/
theorem guard_overflow_iff (p : Pred) (base : BitVec w) {n : ℕ} (hn : (n : ℤ) ≤ p.maxVal w) :
    (if p.isSigned then base.saddOverflow (BitVec.ofNat w n)
      else base.uaddOverflow (BitVec.ofNat w n)) = false ↔ p.val base + n ≤ p.maxVal w := by
  have hoff : p.val (BitVec.ofNat w n) = n := p.val_ofNat hn
  have hmin := p.minVal_le_val base
  cases p
  · have hn' : (BitVec.ofNat w n).toInt = n := hoff
    simp only [Pred.isSigned, if_true, BitVec.saddOverflow, hn', Pred.val, Pred.maxVal,
      Pred.minVal, Bool.or_eq_false_iff, decide_eq_false_iff_not] at *
    omega
  · have hn' : (BitVec.ofNat w n).toNat = n := Int.ofNat_inj.mp hoff
    have h2 : ((2 ^ w : ℕ) : ℤ) = 2 ^ w := by push_cast; rfl
    simp only [Pred.isSigned, Bool.false_eq_true, if_false, BitVec.uaddOverflow, hn', Pred.val,
      Pred.maxVal, decide_eq_false_iff_not]
    omega

/-- **The batch guard.** On a direct compare, and for a batch that the index type can
count, the guard holds exactly when the last index of the batch is below the bound. -/
theorem createBatchGuard_iff (p : Pred) (base bound : BitVec w) {count : ℕ}
    (h₁ : 1 ≤ count) (hc : (count : ℤ) ≤ p.maxVal w) :
    createBatchGuard (.direct p) base count bound = true ↔
      p.val base + count ≤ p.val bound := by
  have hb := p.val_le_maxVal bound
  rw [createBatchGuard, ExitTest.direct]
  by_cases hcount : count > 1
  · obtain ⟨n, rfl⟩ : ∃ n, count = n + 1 := ⟨count - 1, by omega⟩
    have hov := guard_overflow_iff p base (n := n) (by push_cast at hc; omega)
    simp only [if_pos hcount, Nat.add_sub_cancel, id, Bool.and_eq_true, Bool.not_eq_true', hov,
      Pred.lt_iff]
    push_cast
    constructor
    · rintro ⟨hfit, hlt⟩
      rw [p.val_add_ofNat base n hfit] at hlt
      omega
    · intro h
      have hfit : p.val base + n ≤ p.maxVal w := by omega
      rw [p.val_add_ofNat base n hfit]
      omega
  · have : count = 1 := by omega
    subst this
    simp only [if_neg hcount, id, Pred.lt_iff]
    push_cast
    omega

end Spork.Unroll
