import Spork.Scan.Code

/-!
# The arithmetic of chunks and thirds

`scan_upsweep` and `scan_downsweep` cut `n ≥ 1` elements into chunks of `floor(sqrt(n))`,
the last of which may be shorter. `bound n c` is where chunk `c` begins, or `n` if there
is no such chunk. A split of `scan` cuts what is left into thirds.
-/
namespace Spork.Scan

/-- Where chunk `c` begins. -/
def bound (n c : ℤ) : ℤ := min n (c * scan_chunksize n)

section
variable {n c : ℤ}

theorem chunksize_pos (hn : 1 ≤ n) : 1 ≤ scan_chunksize n := by
  rw [scan_chunksize]
  have : 0 < Nat.sqrt n.toNat := Nat.sqrt_pos.mpr (by omega)
  omega

theorem chunks_eq (hn : 1 ≤ n) : scan_chunks n = 1 + (n - 1) / scan_chunksize n := by
  rw [scan_chunks, Int.tdiv_eq_ediv_of_nonneg (by omega)]

theorem chunks_pos (hn : 1 ≤ n) : 1 ≤ scan_chunks n := by
  rw [chunks_eq hn]
  have := Int.ediv_nonneg (by omega : 0 ≤ n - 1) (by have := chunksize_pos hn; omega :
    0 ≤ scan_chunksize n)
  omega

theorem chunks_le (hn : 1 ≤ n) : scan_chunks n ≤ n := by
  rw [chunks_eq hn]
  have := Int.ediv_le_self (b := scan_chunksize n) (by omega : 0 ≤ n - 1)
  omega

/-- A chunk begins within the array. -/
theorem start_lt (hn : 1 ≤ n) (hc : c < scan_chunks n) : c * scan_chunksize n < n := by
  rw [chunks_eq hn] at hc
  have := (Int.le_ediv_iff_mul_le (by have := chunksize_pos hn; omega :
    0 < scan_chunksize n)).mp (by omega : c ≤ (n - 1) / scan_chunksize n)
  omega

/-- The chunks cover the array. -/
theorem le_chunks_mul (hn : 1 ≤ n) : n ≤ scan_chunks n * scan_chunksize n := by
  rw [chunks_eq hn]
  have := Int.lt_ediv_add_one_mul_self (n - 1) (by have := chunksize_pos hn; omega :
    0 < scan_chunksize n)
  rw [add_comm 1]
  omega

theorem bound_zero (hn : 1 ≤ n) : bound n 0 = 0 := by
  unfold bound; rw [zero_mul]; omega

theorem bound_chunks (hn : 1 ≤ n) : bound n (scan_chunks n) = n := by
  have := le_chunks_mul hn
  unfold bound; omega

theorem bound_of_lt (hn : 1 ≤ n) (hc : c < scan_chunks n) :
    bound n c = c * scan_chunksize n := by
  have := start_lt hn hc
  unfold bound; omega

theorem chunkEnd_eq : chunkEnd n c = bound n (c + 1) := by
  rw [chunkEnd, bound]
  rw [add_mul, one_mul]
  split <;> omega

theorem chunkSize_eq (hn : 1 ≤ n) (hc : c < scan_chunks n) :
    chunkSize n c = bound n (c + 1) - bound n c := by
  rw [bound_of_lt hn hc, ← chunkEnd_eq]
  rw [chunkSize, chunkEnd]
  split <;> omega

theorem bound_lt_succ (hn : 1 ≤ n) (hc : c < scan_chunks n) : bound n c < bound n (c + 1) := by
  have h₁ := start_lt hn hc
  have h₂ := chunksize_pos hn
  rw [bound_of_lt hn hc]
  rw [bound]
  rw [add_mul, one_mul]
  omega

theorem bound_mono (hn : 1 ≤ n) {c c' : ℤ} (h : c ≤ c') : bound n c ≤ bound n c' := by
  have := Int.mul_le_mul_of_nonneg_right h (by have := chunksize_pos hn; omega :
    0 ≤ scan_chunksize n)
  unfold bound; omega

theorem bound_nonneg (hn : 1 ≤ n) (hc : 0 ≤ c) : 0 ≤ bound n c := by
  rw [← bound_zero hn]
  exact bound_mono hn hc

theorem bound_le : bound n c ≤ n := by unfold bound; omega

end

/-- The last partial sum is that of the last chunk. -/
theorem lastPartial_eq (t1 t2 : ℤ) : lastPartial t1 t2 = scan_chunks (t2 - t1) - 1 := by
  rw [lastPartial, scan_chunks]
  omega

section
variable {e n : ℤ}

theorem Thirds.eq (h : Thirds e n) :
    third1 e n = e + (n - e) / 5 ∧ third2 e n = n - 2 * ((n - e) / 5) ∧ e + 5 ≤ n := by
  have h₁ := h.first
  rw [third1] at h₁
  have hpos : 0 ≤ n - e := by
    by_contra hneg
    have : (n - e).tdiv 5 ≤ 0 := by
      rw [← neg_neg (n - e), Int.neg_tdiv]
      have := Int.tdiv_nonneg (by omega : 0 ≤ -(n - e)) (by norm_num : (0 : ℤ) ≤ 5)
      omega
    omega
  have hdiv : (n - e).tdiv 5 = (n - e) / 5 := Int.tdiv_eq_ediv_of_nonneg hpos
  rw [hdiv] at h₁
  rw [third1, third2]
  rw [hdiv]
  omega

/-- The middle third has at least two elements, and fewer than the array. -/
theorem Thirds.middle_len (h : Thirds e n) :
    2 ≤ third2 e n - third1 e n ∧ third2 e n - third1 e n < n := by
  have := h.lo
  obtain ⟨h₁, h₂, h₃⟩ := h.eq
  omega

end
end Spork.Scan
