import Spork.Parfor.Loop

/-!
# The arithmetic of the promotion handler in a machine type

`parfor_` admits index types no wider than `sig_atomic_t`. Its handler computes the
length of what remains, the first index it takes away and a midpoint in the index type,
where an operand narrower than `int` is promoted and a signed result that does not fit is
undefined behaviour.

## Main definitions

* `ExactSplit` — every expression of the handler has its exact value, and the split is
  made exactly when more than `K` iterations remain.
* `length_inRange` — the lengths that fit.
* `exactSplit_iff` — the handler is exact up to the one length it cannot hold.
-/
namespace Spork.Parfor

open CInt

/-- What the handler should compute for a call that ends at `j` and has published `s`. -/
structure ExactSplit (ty : IntTy) (K j s : ℤ) (v : LoopVars) : Prop where
  /-- `loop_end - ssi`. -/
  rest : ty.arith (v.loop_end - ty.wrap v.sig_safe_i) = some (j - s)
  /-- `ssi + inc_i`. -/
  prom_i : K < j - s → ty.arith (ty.wrap v.sig_safe_i + ty.wrap K) = some (s + K)
  /-- `midpoint(prom_i, loop_end)`, which lies in `[prom_i, loop_end)`. -/
  mid : K < j - s → midpoint (.machine ty) (s + K) v.loop_end =
    some (s + K + (j - (s + K)) / 2)
  mid_mem : K < j - s → s + K ≤ s + K + (j - (s + K)) / 2 ∧ s + K + (j - (s + K)) / 2 < j
  /-- Nothing is enqueued when the loop is nearly done. -/
  stays : j - s ≤ K → promotion (.machine ty) K j v = some ⟨j, ⟨0, 0⟩, ⟨0, 0⟩, []⟩
  /-- Otherwise everything from the midpoint on goes to `r`. -/
  splits : K < j - s → ∃ p, promotion (.machine ty) K j v = some p ∧ .r ∈ p.enqueued ∧
    p.loop_end = s + K ∧ p.r = ⟨s + K + (j - (s + K)) / 2, j⟩

variable {ty : IntTy} {K i j s : ℤ} {v : LoopVars}

/-- The length of a range is a value of the promoted type, unless the type is a signed
one of 32 bits and the range is longer than `INT_MAX`. -/
theorem length_inRange (hw : ty.bits ≤ 32) (hs : ty.InRange s) (hj : ty.InRange j)
    (hsj : s ≤ j) (h : ty.bits = 32 → ty.signed → j - s ≤ IntTy.int.max) :
    ty.promote.InRange (j - s) := by
  obtain ⟨bits, signed, hb⟩ := ty
  rcases hb with rfl | rfl | rfl | rfl <;> cases signed <;>
    simp_all [IntTy.InRange, IntTy.promote, IntTy.min, IntTy.max, IntTy.int] <;> omega

/-- A signed difference that is defined fits the type. -/
theorem length_le_of_arith (hb : ty.bits = 32) (hs : ty.signed) {x y : ℤ}
    (h : ty.arith x = some y) : x ≤ IntTy.int.max := by
  have hp : ty.promote = ty := by rw [IntTy.promote, if_neg (by omega)]
  have hmax : ty.max = IntTy.int.max := by simp [IntTy.max, IntTy.int, hs, hb]
  rw [IntTy.arith, hp, if_pos hs] at h
  split at h
  · next hr => rw [← hmax]; exact hr.2
  · cases h

/-- Where the length fits, the handler is exact. -/
theorem exactSplit_of_length (hw : ty.bits ≤ 32) (hs : ty.InRange s) (hj : ty.InRange j)
    (hsj : s ≤ j) (hK : ty.InRange K) (hK₁ : 1 ≤ K) (hv : v.sig_safe_i = IntTy.int.wrap s)
    (hend : v.loop_end = j) (hd : ty.promote.InRange (j - s)) : ExactSplit ty K j s v := by
  have hf : (Arith.machine ty).FaithfulOn s j := Arith.machine_faithfulOn hw hs hj hd
  have hwK : ty.wrap K = K := IntTy.wrap_of_inRange hK
  have hssi : ty.wrap v.sig_safe_i = s := by rw [hv]; exact IntTy.wrap_wrap_int hw hs
  have hprom : promotion (.machine ty) K j v = some (split K j s j) := by
    rw [← hend]
    exact promotion_eq hf hwK (by omega) hv le_rfl (by omega) (by omega)
  constructor
  · rw [hssi, hend]
    exact IntTy.arith_of_promote hd
  · intro h
    rw [hssi, hwK]
    exact hf.op_index (s + K) (by omega) (by omega)
  · intro h
    rw [hend]
    exact midpoint_eq hf (by omega) (by omega) le_rfl
  · intro h
    omega
  · intro h
    rw [hprom, split, if_pos h]
  · intro h
    refine ⟨split K j s j, hprom, ?_⟩
    simp only [split, if_neg (not_le.mpr h)]
    split_ifs <;> simp

/-- **The handler's arithmetic is exact on every range but one kind.** For a range of an
index type no wider than `sig_atomic_t` of which `s` is published, it is exact if and only
if the type is not a signed one of 32 bits, or what remains is at most `INT_MAX`
iterations. -/
theorem exactSplit_iff (hw : ty.bits ≤ 32) (hi : ty.InRange i) (hj : ty.InRange j)
    (his : i ≤ s) (hsj : s ≤ j) (hK : ty.InRange K) (hK₁ : 1 ≤ K)
    (hv : v.sig_safe_i = IntTy.int.wrap s) (hend : v.loop_end = j) :
    ExactSplit ty K j s v ↔ ¬(ty.bits = 32 ∧ ty.signed) ∨ j - s ≤ 2147483647 := by
  have hs : ty.InRange s := IntTy.inRange_of_between hi hj his hsj
  have hmax : IntTy.int.max = 2147483647 := rfl
  constructor
  · intro h
    by_cases hb : ty.bits = 32 ∧ ty.signed
    · have hrest := h.rest
      rw [hv, IntTy.wrap_wrap_int hw hs, hend] at hrest
      exact .inr (hmax ▸ length_le_of_arith hb.1 hb.2 hrest)
    · exact .inl hb
  · intro h
    refine exactSplit_of_length hw hs hj hsj hK hK₁ hv hend (length_inRange hw hs hj hsj ?_)
    intro hb hsg
    rcases h with h | h
    · exact absurd ⟨hb, hsg⟩ h
    · rwa [hmax]

/-- A byte range, half done. -/
theorem exactSplit_int8 : ExactSplit ⟨8, true, .inl rfl⟩ 100 127 (-50) ⟨-50, -50, 127⟩ :=
  Iff.mpr (exactSplit_iff (i := -128) (by decide) (by decide) (by decide) (by decide)
    (by decide) (by decide) (by decide) rfl rfl) (.inr (by decide))

/-- The longest range of `int`, at its start: `loop_end - ssi` overflows. -/
theorem exactSplit_fails_at_int :
    ¬ExactSplit .int 1 2147483647 (-2147483648)
      (Loop.enter (.machine .int) (-2147483648) 2147483647).vars := by
  intro h
  have : IntTy.int.arith (2147483647 - IntTy.int.wrap (IntTy.int.wrap (-2147483648))) = none := by
    decide
  exact absurd (this.symm.trans h.rest) (by simp)

end Spork.Parfor
