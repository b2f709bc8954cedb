import Mathlib.Algebra.BigOperators.Fin
import Mathlib.Data.Fintype.BigOperators
import Mathlib.SetTheory.Cardinal.Finite

/-!
# Counting by backtracking

A backtracking search makes one choice after the other, each compatible with all the choices
before it. How many ways there are to go on from a sequence of choices is the sum, over the
choices compatible with it, of the ways to go on from there.

## Main definitions

* `Completes` — a function that goes on from a sequence of choices.
* `completions` — their number.
* `completions_succ` — the step of the search.
-/
namespace Backtrack

variable {α : Type} (R : ℕ × α → ℕ × α → Prop)

/-- The choices `f`, at the positions from `i` on, are compatible with those made before them
and with each other. -/
structure Completes (i : ℕ) (qs : List (ℕ × α)) {k : ℕ} (f : Fin k → α) : Prop where
  before : ∀ t : Fin k, ∀ q ∈ qs, R (i + t, f t) q
  within : ∀ s t : Fin k, s < t → R (i + t, f t) (i + s, f s)

/-- The number of ways to make `k` more choices. -/
noncomputable def completions (k i : ℕ) (qs : List (ℕ × α)) : ℕ :=
  Nat.card {f : Fin k → α // Completes R i qs f}

variable {R} {i k : ℕ} {qs : List (ℕ × α)}

theorem completes_zero (f : Fin 0 → α) : Completes R i qs f :=
  ⟨fun t => t.elim0, fun s => s.elim0⟩

/-- The first choice is one more that was made before. -/
theorem completes_cons {a : α} {f : Fin k → α} :
    Completes R i qs (Fin.cons a f : Fin (k + 1) → α) ↔
      (∀ q ∈ qs, R (i, a) q) ∧ Completes R (i + 1) ((i, a) :: qs) f := by
  have hval : ∀ t : Fin k, i + ((t : ℕ) + 1) = i + 1 + t := fun t => by omega
  constructor
  · intro h
    refine ⟨fun q hq => by simpa using h.before 0 q hq, fun t q hq => ?_, fun s t hst => ?_⟩
    · rcases List.mem_cons.mp hq with rfl | hq
      · simpa [hval] using h.within 0 t.succ (Fin.succ_pos t)
      · simpa [hval] using h.before t.succ q hq
    · simpa [hval] using h.within s.succ t.succ (Fin.succ_lt_succ_iff.mpr hst)
  · rintro ⟨ha, h⟩
    refine ⟨fun t q hq => ?_, fun s t hst => ?_⟩
    · induction t using Fin.cases with
      | zero => simpa using ha q hq
      | succ t => simpa [hval] using h.before t q (List.mem_cons_of_mem _ hq)
    · induction t using Fin.cases with
      | zero => exact absurd hst (Fin.not_lt_zero s)
      | succ t =>
        induction s using Fin.cases with
        | zero => simpa [hval] using h.before t (i, a) List.mem_cons_self
        | succ s => simpa [hval] using h.within s t (Fin.succ_lt_succ_iff.mp hst)

theorem completions_zero : completions R 0 i qs = 1 := by
  rw [completions, Nat.card_eq_one_iff_unique]
  exact ⟨inferInstance, ⟨⟨Fin.elim0, completes_zero _⟩⟩⟩

/-- A function that goes on is a first choice and a function that goes on from there. -/
def completesEquiv : {f : Fin (k + 1) → α // Completes R i qs f} ≃
    (a : α) × {f : Fin k → α // Completes R i qs (Fin.cons a f : Fin (k + 1) → α)} :=
  ((Fin.consEquiv fun _ => α).symm.subtypeEquiv fun f => by simp [Fin.consEquiv]).trans
    (Equiv.subtypeProdEquivSigmaSubtype fun a f =>
      Completes R i qs (Fin.cons a f : Fin (k + 1) → α))

open Classical in
/-- **The step of the search.** -/
theorem completions_succ [Fintype α] : completions R (k + 1) i qs =
    ∑ a, if ∀ q ∈ qs, R (i, a) q then completions R k (i + 1) ((i, a) :: qs) else 0 := by
  rw [completions, Nat.card_congr completesEquiv, Nat.card_sigma]
  refine Finset.sum_congr rfl fun a _ => ?_
  by_cases h : ∀ q ∈ qs, R (i, a) q
  · rw [if_pos h]
    exact Nat.card_congr (Equiv.subtypeEquivRight fun f => by rw [completes_cons, and_iff_right h])
  · rw [if_neg h]
    have hempty : IsEmpty {f : Fin k → α // Completes R i qs (Fin.cons a f : Fin (k + 1) → α)} :=
      ⟨fun f => h (completes_cons.mp f.2).1⟩
    exact Nat.card_of_isEmpty

end Backtrack
