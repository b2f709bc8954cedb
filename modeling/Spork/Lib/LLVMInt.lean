import Mathlib.Tactic.Common
import Mathlib.Tactic.NormNum
import Mathlib.Tactic.Ring

/-!
# LLVM integers: wrap flags and less-than predicates

Addition and subtraction of `w`-bit values with the flags `nuw` and `nsw`, a violated
flag giving poison, and the two less-than predicates of an `icmp`. A predicate fixes
how its operands are read as integers; `Pred.val` is that reading, and the lemmas
below move between the machine operations and the integers it stands for.
-/
namespace Spork.LLVM

variable {w : ℕ}

/-- The no-wrap flags of an addition or a subtraction. -/
structure Flags where
  nuw : Bool
  nsw : Bool
  deriving DecidableEq, Repr

/-- `add` with flags; `none` is poison. -/
def add (f : Flags) (x y : BitVec w) : Option (BitVec w) :=
  if f.nuw && x.uaddOverflow y || f.nsw && x.saddOverflow y then none else some (x + y)

/-- `sub` with flags; `none` is poison. -/
def sub (f : Flags) (x y : BitVec w) : Option (BitVec w) :=
  if f.nuw && x.usubOverflow y || f.nsw && x.ssubOverflow y then none else some (x - y)

/-- The predicates of a less-than comparison. -/
inductive Pred
  | slt
  | ult
  deriving DecidableEq, Repr

namespace Pred

/-- `ICmpInst::isSigned`. -/
def isSigned : Pred → Bool
  | slt => true
  | ult => false

/-- The comparison. -/
def lt : Pred → BitVec w → BitVec w → Bool
  | slt, x, y => x.slt y
  | ult, x, y => x.ult y

/-- The integer a value stands for in the comparison. -/
def val : Pred → BitVec w → ℤ
  | slt, x => x.toInt
  | ult, x => x.toNat

/-- Smallest integer of the reading. -/
def minVal : Pred → ℕ → ℤ
  | slt, w => -2 ^ (w - 1)
  | ult, _ => 0

/-- Largest integer of the reading. -/
def maxVal : Pred → ℕ → ℤ
  | slt, w => 2 ^ (w - 1) - 1
  | ult, w => 2 ^ w - 1

theorem lt_iff (p : Pred) (x y : BitVec w) : p.lt x y = true ↔ p.val x < p.val y := by
  cases p
  · simp only [lt, val, BitVec.slt, decide_eq_true_eq]
  · simp only [lt, val, BitVec.ult, decide_eq_true_eq]; omega

theorem val_injective (p : Pred) {x y : BitVec w} (h : p.val x = p.val y) : x = y := by
  cases p
  · exact BitVec.eq_of_toInt_eq h
  · exact BitVec.eq_of_toNat_eq (by simpa [val] using h)

theorem ofInt_val (p : Pred) (x : BitVec w) : BitVec.ofInt w (p.val x) = x := by
  cases p
  · exact BitVec.ofInt_toInt
  · rw [val, BitVec.ofInt_natCast, BitVec.ofNat_toNat, BitVec.setWidth_eq]

theorem val_le_maxVal (p : Pred) (x : BitVec w) : p.val x ≤ p.maxVal w := by
  cases p
  · have := BitVec.two_mul_toInt_lt (x := x)
    cases w with
    | zero => simp [val, maxVal, BitVec.of_length_zero]
    | succ w => simp only [val, maxVal, Nat.add_sub_cancel, pow_succ] at *; omega
  · have := x.isLt
    have h2 : ((2 ^ w : ℕ) : ℤ) = 2 ^ w := by push_cast; rfl
    simp only [val, maxVal]
    omega

theorem minVal_le_val (p : Pred) (x : BitVec w) : p.minVal w ≤ p.val x := by
  cases p
  · have := BitVec.le_two_mul_toInt (x := x)
    cases w with
    | zero => simp [val, minVal, BitVec.of_length_zero]
    | succ w => simp only [val, minVal, Nat.add_sub_cancel, pow_succ] at *; omega
  · simp only [val, minVal]; omega

/-- Advancing an index by `n` adds `n` to what it stands for, short of the largest value. -/
theorem val_add_ofNat (p : Pred) (x : BitVec w) (n : ℕ) (h : p.val x + n ≤ p.maxVal w) :
    p.val (x + BitVec.ofNat w n) = p.val x + n := by
  cases p
  · have hx := BitVec.le_two_mul_toInt (x := x)
    simp only [val, maxVal] at *
    rw [BitVec.toInt_add, BitVec.toInt_ofNat', Int.add_bmod_bmod]
    cases w with
    | zero => simp [BitVec.of_length_zero] at *; omega
    | succ w =>
      simp only [Nat.add_sub_cancel, pow_succ] at *
      rw [Int.bmod_eq_of_le] <;> push_cast <;> omega
  · have h2 : ((2 ^ w : ℕ) : ℤ) = 2 ^ w := by push_cast; rfl
    simp only [val, maxVal, BitVec.toNat_add, BitVec.toNat_ofNat, Nat.add_mod_mod] at *
    rw [Nat.mod_eq_of_lt (by omega)]
    push_cast
    rfl

theorem val_zero (p : Pred) : p.val (0 : BitVec w) = 0 := by
  cases p <;> simp [val]

theorem minVal_nonpos (p : Pred) (w : ℕ) : p.minVal w ≤ 0 := by
  have : (0 : ℤ) < 2 ^ (w - 1) := by positivity
  cases p <;> simp only [minVal] <;> omega

/-- The signed reading has the smaller largest value. -/
theorem maxVal_slt_le (p : Pred) (w : ℕ) : maxVal slt w ≤ p.maxVal w := by
  have : (2 : ℤ) ^ (w - 1) ≤ 2 ^ w := by gcongr <;> omega
  cases p <;> simp only [maxVal] <;> omega

/-- A count that the reading can hold stands for itself. -/
theorem val_ofNat (p : Pred) {n : ℕ} (h : (n : ℤ) ≤ p.maxVal w) :
    p.val (BitVec.ofNat w n) = n := by
  have h' := p.val_add_ofNat (0 : BitVec w) n (by rw [val_zero]; omega)
  rw [val_zero] at h'
  simpa using h'

theorem val_one (p : Pred) (hw : 2 ≤ w) : p.val (1 : BitVec w) = 1 := by
  have h2 : (2 : ℤ) ≤ 2 ^ (w - 1) := by
    calc (2 : ℤ) = 2 ^ 1 := by norm_num
      _ ≤ 2 ^ (w - 1) := by gcongr <;> omega
  have hle : 2 ^ (w - 1) - 1 ≤ p.maxVal w := p.maxVal_slt_le w
  simpa using p.val_ofNat (w := w) (n := 1) (by push_cast; omega)

/-- A difference that does not wrap is the difference of the integers. -/
theorem val_sub (p : Pred) {x y : BitVec w} (h₁ : p.minVal w ≤ p.val x - p.val y)
    (h₂ : p.val x - p.val y ≤ p.maxVal w) : p.val (x - y) = p.val x - p.val y := by
  cases p
  · refine BitVec.toInt_sub_of_not_ssubOverflow ?_
    simp only [val, minVal, maxVal] at h₁ h₂
    simp only [BitVec.ssubOverflow, Bool.or_eq_true, decide_eq_true_eq]
    omega
  · simp only [val, minVal] at h₁ ⊢
    rw [BitVec.toNat_sub_of_not_usubOverflow]
    · omega
    · simp only [BitVec.usubOverflow, decide_eq_true_eq]
      omega

end Pred

/-- The flag that belongs to a reading of the operands. -/
def Flags.flag (f : Flags) : Pred → Bool
  | .slt => f.nsw
  | .ult => f.nuw

/-- A flagged addition is defined when its exact result fits every flagged reading. -/
theorem add_isSome_iff {f : Flags} {x y : BitVec w} :
    (add f x y).isSome ↔ ∀ p : Pred, f.flag p = true →
      p.minVal w ≤ p.val x + p.val y ∧ p.val x + p.val y ≤ p.maxVal w := by
  have h2 : ((2 ^ w : ℕ) : ℤ) = 2 ^ w := by push_cast; rfl
  have hu : x.uaddOverflow y = false ↔ Pred.minVal .ult w ≤ Pred.val .ult x + Pred.val .ult y ∧
      Pred.val .ult x + Pred.val .ult y ≤ Pred.maxVal .ult w := by
    simp only [BitVec.uaddOverflow, Pred.val, Pred.minVal, Pred.maxVal, decide_eq_false_iff_not]
    omega
  have hs : x.saddOverflow y = false ↔ Pred.minVal .slt w ≤ Pred.val .slt x + Pred.val .slt y ∧
      Pred.val .slt x + Pred.val .slt y ≤ Pred.maxVal .slt w := by
    simp only [BitVec.saddOverflow, Pred.val, Pred.minVal, Pred.maxVal, Bool.or_eq_false_iff,
      decide_eq_false_iff_not]
    omega
  have hall : (add f x y).isSome ↔
      (f.nuw = true → x.uaddOverflow y = false) ∧ (f.nsw = true → x.saddOverflow y = false) := by
    rw [add]
    cases f.nuw <;> cases f.nsw <;> cases x.uaddOverflow y <;> cases x.saddOverflow y <;> simp
  rw [hall, hu, hs]
  constructor
  · rintro ⟨h₁, h₂⟩ p hf
    cases p
    · exact h₂ hf
    · exact h₁ hf
  · exact fun h => ⟨h .ult, h .slt⟩

/-- A subtraction flagged by the signedness of a predicate is defined when its exact
result fits that reading. -/
theorem sub_isSome_iff (p : Pred) {x y : BitVec w} :
    (sub ⟨!p.isSigned, p.isSigned⟩ x y).isSome ↔
      p.minVal w ≤ p.val x - p.val y ∧ p.val x - p.val y ≤ p.maxVal w := by
  cases p
  · have : (sub ⟨false, true⟩ x y).isSome ↔ x.ssubOverflow y = false := by
      unfold sub; cases x.ssubOverflow y <;> simp
    simp only [Pred.isSigned, Bool.not_true, this, BitVec.ssubOverflow, Pred.val, Pred.minVal,
      Pred.maxVal, Bool.or_eq_false_iff, decide_eq_false_iff_not]
    omega
  · have : (sub ⟨true, false⟩ x y).isSome ↔ x.usubOverflow y = false := by
      unfold sub; cases x.usubOverflow y <;> simp
    have hx := x.isLt
    have h2 : ((2 ^ w : ℕ) : ℤ) = 2 ^ w := by push_cast; rfl
    simp only [Pred.isSigned, Bool.not_false, this, BitVec.usubOverflow, Pred.val, Pred.minVal,
      Pred.maxVal, decide_eq_false_iff_not]
    omega

theorem sub_eq_some {f : Flags} {x y : BitVec w} (h : (sub f x y).isSome) :
    sub f x y = some (x - y) := by
  rw [sub] at h ⊢
  split at h
  · cases h
  · next hn => rw [if_neg hn]

theorem add_eq_some {f : Flags} {x y : BitVec w} (h : (add f x y).isSome) :
    add f x y = some (x + y) := by
  rw [add] at h ⊢
  split at h
  · cases h
  · next hn => rw [if_neg hn]

end Spork.LLVM
