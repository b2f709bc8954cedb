import Mathlib.Data.Int.Range
import Mathlib.Data.List.Nodup
import Mathlib.Data.List.Count
import Mathlib.Tactic.Common

/-!
# Consecutive integer ranges

Facts about `Int.range`, the list of the integers of a half-open interval: how it
grows at either end, how consecutive ranges concatenate, and that it lists every
integer once. `Pieces` says that a list of intervals is consecutive.
-/
namespace Spork.IntRange

theorem range_eq_nil {m n : ℤ} (h : n ≤ m) : Int.range m n = [] := by
  have : (n - m).toNat = 0 := by omega
  simp only [Int.range, this, List.range_zero, List.map_nil]

@[simp] theorem range_self (m : ℤ) : Int.range m m = [] := range_eq_nil le_rfl

theorem range_append {m k n : ℤ} (hmk : m ≤ k) (hkn : k ≤ n) :
    Int.range m k ++ Int.range k n = Int.range m n := by
  have hn : (n - m).toNat = (k - m).toNat + (n - k).toNat := by omega
  simp only [Int.range, hn, List.range_add, List.map_append, List.map_map]
  congr 1
  apply List.map_congr_left
  intro r _
  simp only [Function.comp_apply]
  omega

theorem range_singleton (m : ℤ) : Int.range m (m + 1) = [m] := by
  simp [Int.range]

/-- A range grows at its upper end. -/
theorem range_succ {m n : ℤ} (h : m ≤ n) : Int.range m (n + 1) = Int.range m n ++ [n] := by
  rw [← range_append h (by omega : n ≤ n + 1), range_singleton]

/-- A range shrinks at its lower end. -/
theorem range_eq_cons {m n : ℤ} (h : m < n) : Int.range m n = m :: Int.range (m + 1) n := by
  rw [← range_append (by omega : m ≤ m + 1) (by omega : m + 1 ≤ n), range_singleton]
  rfl

theorem range_nodup (m n : ℤ) : (Int.range m n).Nodup := by
  rw [Int.range]
  refine List.nodup_range.map ?_
  intro a b heq
  have : m + (a : ℤ) = m + b := heq
  omega

theorem length_range (m n : ℤ) : (Int.range m n).length = (n - m).toNat := by
  simp [Int.range]

/-- Every integer of the interval occurs once, and no other integer occurs. -/
theorem count_range (m n k : ℤ) :
    (Int.range m n).count k = if m ≤ k ∧ k < n then 1 else 0 := by
  simp only [(range_nodup m n).count, Int.mem_range_iff]

/-- Nonempty intervals that follow each other from `a` to `b`. -/
def Pieces : ℤ → List (ℤ × ℤ) → ℤ → Prop
  | a, [], b => a = b
  | a, p :: ps, b => p.1 = a ∧ p.1 < p.2 ∧ Pieces p.2 ps b

theorem Pieces.le {a b : ℤ} {ps : List (ℤ × ℤ)} (h : Pieces a ps b) : a ≤ b := by
  induction ps generalizing a with
  | nil => exact le_of_eq h
  | cons p ps ih =>
    obtain ⟨h₁, h₂, h₃⟩ := h
    have := ih h₃
    omega

/-- No interval begins before the first one. -/
theorem Pieces.le_fst {a b : ℤ} {ps : List (ℤ × ℤ)} (h : Pieces a ps b) {p : ℤ × ℤ}
    (hp : p ∈ ps) : a ≤ p.1 := by
  induction ps generalizing a with
  | nil => cases hp
  | cons q ps ih =>
    obtain ⟨h₁, h₂, h₃⟩ := h
    rcases List.mem_cons.mp hp with rfl | hp
    · exact le_of_eq h₁.symm
    · have := ih h₃ hp
      omega

/-- Consecutive intervals list the whole interval once, in order. -/
theorem Pieces.flatMap_range {a b : ℤ} {ps : List (ℤ × ℤ)} (h : Pieces a ps b) :
    (ps.flatMap fun p => Int.range p.1 p.2) = Int.range a b := by
  induction ps generalizing a with
  | nil => simp only [Pieces] at h; subst h; simp
  | cons p ps ih =>
    obtain ⟨h₁, h₂, h₃⟩ := h
    subst h₁
    rw [List.flatMap_cons, ih h₃, range_append (le_of_lt h₂) h₃.le]

end Spork.IntRange
