import Mathlib.Tactic.Common
import Mathlib.Tactic.NormNum
import Mathlib.Algebra.Order.Ring.Int

/-!
# Fixed-width integers of C++

The integer types of 8 to 64 bits, with the conversions and arithmetic the
language gives them: a conversion reduces modulo `2 ^ bits`, an operand narrower
than `int` is promoted before an operator is applied, an unsigned result wraps,
and a signed result outside its type is undefined behaviour.

`Arith` abstracts the arithmetic of one index type, so that a function can be
stated once and read both in a machine type and over the exact integers.

## Main definitions

* `IntTy`, `IntTy.InRange`, `IntTy.wrap`, `IntTy.promote`, `IntTy.arith`.
* `Arith`, `Arith.exact`, `Arith.machine`.
* `Arith.FaithfulOn` — no operation on a range of indices leaves the type.
-/
namespace Spork.CInt

/-- An integer type, by its width and signedness. -/
structure IntTy where
  bits : ℕ
  signed : Bool
  width : bits = 8 ∨ bits = 16 ∨ bits = 32 ∨ bits = 64
  deriving DecidableEq

namespace IntTy

/-- `int`, which is also `sig_atomic_t`. -/
def int : IntTy := ⟨32, true, by decide⟩
/-- `uint32_t`. -/
def uint32 : IntTy := ⟨32, false, by decide⟩
/-- `long`. -/
def long : IntTy := ⟨64, true, by decide⟩
/-- `unsigned long`. -/
def ulong : IntTy := ⟨64, false, by decide⟩

/-- Smallest value. -/
def min (ty : IntTy) : ℤ := if ty.signed then -2 ^ (ty.bits - 1) else 0

/-- Largest value. -/
def max (ty : IntTy) : ℤ := if ty.signed then 2 ^ (ty.bits - 1) - 1 else 2 ^ ty.bits - 1

/-- The value is representable. -/
def InRange (ty : IntTy) (x : ℤ) : Prop := ty.min ≤ x ∧ x ≤ ty.max

instance (ty : IntTy) (x : ℤ) : Decidable (ty.InRange x) := by
  unfold InRange; infer_instance

/-- Conversion to the type, modular for signed types as well. -/
def wrap (ty : IntTy) (x : ℤ) : ℤ :=
  if ty.signed then (x + 2 ^ (ty.bits - 1)) % 2 ^ ty.bits - 2 ^ (ty.bits - 1)
  else x % 2 ^ ty.bits

/-- Integer promotion: types narrower than `int` are computed in `int`. -/
def promote (ty : IntTy) : IntTy := if ty.bits < 32 then int else ty

/-- The value of an operator applied to operands of the type, from its exact result;
`none` is undefined behaviour. -/
def arith (ty : IntTy) (x : ℤ) : Option ℤ :=
  if ty.promote.signed then if ty.promote.InRange x then some x else none
  else some (ty.promote.wrap x)

theorem two_pow_bits (ty : IntTy) : (2 : ℤ) ^ ty.bits = 2 * 2 ^ (ty.bits - 1) := by
  obtain ⟨bits, signed, h⟩ := ty
  rcases h with rfl | rfl | rfl | rfl <;> norm_num

theorem two_pow_pos (ty : IntTy) : (128 : ℤ) ≤ 2 ^ (ty.bits - 1) := by
  obtain ⟨bits, signed, h⟩ := ty
  rcases h with rfl | rfl | rfl | rfl <;> norm_num

/-- A conversion keeps every representable value. -/
theorem wrap_of_inRange {ty : IntTy} {x : ℤ} (h : ty.InRange x) : ty.wrap x = x := by
  have hb := ty.two_pow_bits
  have hp := ty.two_pow_pos
  obtain ⟨h₁, h₂⟩ := h
  rw [min] at h₁
  rw [max] at h₂
  rw [wrap]
  cases hs : ty.signed
  · simp only [hs, Bool.false_eq_true, if_false] at h₁ h₂ ⊢
    exact Int.emod_eq_of_lt h₁ (by omega)
  · simp only [hs, if_true] at h₁ h₂ ⊢
    rw [Int.emod_eq_of_lt (by omega) (by omega)]
    omega

theorem wrap_inRange (ty : IntTy) (x : ℤ) : ty.InRange (ty.wrap x) := by
  have hb := ty.two_pow_bits
  have hp := ty.two_pow_pos
  rw [InRange, min, max, wrap]
  cases hs : ty.signed
  · simp only [Bool.false_eq_true, if_false]
    have := Int.emod_nonneg x (b := 2 ^ ty.bits) (by omega)
    have := Int.emod_lt_of_pos x (b := 2 ^ ty.bits) (by omega)
    omega
  · simp only [if_true]
    have := Int.emod_nonneg (x + 2 ^ (ty.bits - 1)) (b := 2 ^ ty.bits) (by omega)
    have := Int.emod_lt_of_pos (x + 2 ^ (ty.bits - 1)) (b := 2 ^ ty.bits) (by omega)
    omega

/-- Promotion loses no value. -/
theorem InRange.promote {ty : IntTy} {x : ℤ} (h : ty.InRange x) : ty.promote.InRange x := by
  obtain ⟨bits, signed, hw⟩ := ty
  rcases hw with rfl | rfl | rfl | rfl <;> cases signed <;>
    simp_all [InRange, IntTy.promote, min, max, int] <;> omega

/-- An operator whose exact result the promoted type represents is exact. -/
theorem arith_of_promote {ty : IntTy} {x : ℤ} (h : ty.promote.InRange x) :
    ty.arith x = some x := by
  rw [arith]
  rw [if_pos h, wrap_of_inRange h, ite_self]

/-- An operator whose exact result is representable is exact. -/
theorem arith_of_inRange {ty : IntTy} {x : ℤ} (h : ty.InRange x) : ty.arith x = some x :=
  arith_of_promote h.promote

theorem inRange_of_between {ty : IntTy} {lo hi x : ℤ} (hlo : ty.InRange lo)
    (hhi : ty.InRange hi) (h₁ : lo ≤ x) (h₂ : x ≤ hi) : ty.InRange x :=
  ⟨le_trans hlo.1 h₁, le_trans h₂ hhi.2⟩

/-- Small natural numbers are values of every type. -/
theorem inRange_small (ty : IntTy) {x : ℤ} (h₀ : 0 ≤ x) (h₁ : x ≤ 127) : ty.InRange x := by
  have hb := ty.two_pow_bits
  have hp := ty.two_pow_pos
  rw [InRange, min, max]
  cases ty.signed
  · simp only [Bool.false_eq_true, if_false]; omega
  · simp only [if_true]; omega

/-- A value of at most 32 bits survives the trip through `sig_atomic_t`. -/
theorem wrap_wrap_int {ty : IntTy} (hw : ty.bits ≤ 32) {x : ℤ} (h : ty.InRange x) :
    ty.wrap (int.wrap x) = x := by
  obtain ⟨bits, signed, hb⟩ := ty
  rcases hb with rfl | rfl | rfl | rfl <;> cases signed <;>
    simp_all [InRange, min, max, wrap, int] <;> omega

end IntTy

/-- The arithmetic of an index type: `op` and `sigOp` give an operator's value in the
index type and in `sig_atomic_t` from its exact result, `conv` and `toSig` convert. -/
structure Arith where
  op : ℤ → Option ℤ
  conv : ℤ → ℤ
  sigOp : ℤ → Option ℤ
  toSig : ℤ → ℤ

namespace Arith

/-- Exact index arithmetic. -/
def exact : Arith := ⟨some, id, some, id⟩

/-- The arithmetic of a machine type. -/
def machine (ty : IntTy) : Arith := ⟨ty.arith, ty.wrap, IntTy.int.arith, IntTy.int.wrap⟩

/-- Indices between `lo` and `hi`, their differences, and their trip through
`sig_atomic_t` are all exact. -/
structure FaithfulOn (ar : Arith) (lo hi : ℤ) : Prop where
  op_index : ∀ x, lo ≤ x → x ≤ hi → ar.op x = some x
  op_length : ∀ x, 0 ≤ x → x ≤ hi - lo → ar.op x = some x
  conv_index : ∀ x, lo ≤ x → x ≤ hi → ar.conv x = x
  conv_sig : ∀ x, lo ≤ x → x ≤ hi → ar.conv (ar.toSig x) = x

theorem FaithfulOn.mono {ar : Arith} {lo hi lo' hi' : ℤ} (h : ar.FaithfulOn lo hi)
    (hlo : lo ≤ lo') (hhi : hi' ≤ hi) : ar.FaithfulOn lo' hi' where
  op_index x h₁ h₂ := h.op_index x (by omega) (by omega)
  op_length x h₁ h₂ := h.op_length x h₁ (by omega)
  conv_index x h₁ h₂ := h.conv_index x (by omega) (by omega)
  conv_sig x h₁ h₂ := h.conv_sig x (by omega) (by omega)

theorem exact_faithfulOn (lo hi : ℤ) : exact.FaithfulOn lo hi where
  op_index _ _ _ := rfl
  op_length _ _ _ := rfl
  conv_index _ _ _ := rfl
  conv_sig _ _ _ := rfl

/-- A type no wider than `sig_atomic_t` is faithful on a range whose ends it represents, and
whose length its promoted type represents. -/
theorem machine_faithfulOn {ty : IntTy} (hw : ty.bits ≤ 32) {lo hi : ℤ}
    (hlo : ty.InRange lo) (hhi : ty.InRange hi) (hd : ty.promote.InRange (hi - lo)) :
    (machine ty).FaithfulOn lo hi where
  op_index _ h₁ h₂ := IntTy.arith_of_inRange (IntTy.inRange_of_between hlo hhi h₁ h₂)
  op_length _ h₁ h₂ := IntTy.arith_of_promote
    (IntTy.inRange_of_between (ty.promote.inRange_small le_rfl (by norm_num)) hd h₁ h₂)
  conv_index _ h₁ h₂ := IntTy.wrap_of_inRange (IntTy.inRange_of_between hlo hhi h₁ h₂)
  conv_sig _ h₁ h₂ := IntTy.wrap_wrap_int hw (IntTy.inRange_of_between hlo hhi h₁ h₂)

end Arith
end Spork.CInt
