import Spork.Lib.CInt

/-!
# The promotion handler of `parfor_`

`parfor_` runs its loop on three variables that the promotion handler may also
touch: the running index, the progress `sig_safe_i` it publishes after every
iteration, and the bound `loop_end` the handler may lower. When the handler runs
it leaves `factor` iterations beyond the published progress to the loop, and
splits what remains between two jobs.

Everything here is stated over an index arithmetic, so that the same lambda is
read over exact integers and over a machine type; `promotion_eq` says that the
two agree wherever the arithmetic is faithful.

## Main definitions

* `LoopVars`, `Range`, `Promotion` — the variables and what the handler leaves.
* `midpoint`, `promotion` — the source.
* `split` — the exact split, and `promotion_eq`, `split_cases`.
-/
namespace Spork.Parfor

open CInt

/-- The variables of the interruptible loop. -/
structure LoopVars where
  /-- The running index, which only the main code touches. -/
  i : ℤ
  /-- Written by the main code, read by the handler. -/
  sig_safe_i : ℤ
  /-- Written by the handler, read by the main code. -/
  loop_end : ℤ
  deriving DecidableEq, Repr

/-- The bounds `i` and `j` of a spawned job. -/
structure Range where
  i : ℤ
  j : ℤ
  deriving DecidableEq, Repr

/-- The two job objects on the frame of a `parfor_` call. -/
inductive Half
  | l
  | r
  deriving DecidableEq, Repr

/-- What the promotion lambda leaves behind: the new bound, the two job ranges, and
the jobs it enqueued, oldest first. -/
structure Promotion where
  loop_end : ℤ
  l : Range
  r : Range
  enqueued : List Half
  deriving DecidableEq, Repr

/-- The range a promotion gave a job. -/
def Promotion.job (p : Promotion) : Half → Range
  | .l => p.l
  | .r => p.r

/-- `i + ((j - i) / 2)`. -/
def midpoint (ar : Arith) (i j : ℤ) : Option ℤ := do
  let d ← ar.op (j - i)
  let m ← ar.op (i + d.tdiv 2)
  return ar.conv m

/-- The promotion lambda of `parfor_`. `factor` is what `__spork_get_unroll_factor`
returns and `j` the end of the call's range; `none` is undefined behaviour. -/
def promotion (ar : Arith) (factor j : ℤ) (v : LoopVars) : Option Promotion := do
  let inc_i := ar.conv factor
  let ssi := ar.conv v.sig_safe_i
  let rest ← ar.op (v.loop_end - ssi)
  if rest ≤ inc_i then
    return { loop_end := v.loop_end, l := ⟨0, 0⟩, r := ⟨0, 0⟩, enqueued := [] }
  let prom ← ar.op (ssi + inc_i)
  let prom_i := ar.conv prom
  let mid ← midpoint ar prom_i v.loop_end
  if prom_i ≥ mid then
    return { loop_end := prom_i, l := ⟨0, 0⟩, r := ⟨mid, j⟩, enqueued := [.r] }
  return { loop_end := prom_i, l := ⟨prom_i, mid⟩, r := ⟨mid, j⟩, enqueued := [.r, .l] }

/-- The split the handler is meant to make, over the exact integers: `s` is the
published progress, `e` the current bound and `j` the end of the range. -/
def split (factor j s e : ℤ) : Promotion :=
  let mid := s + factor + (e - (s + factor)) / 2
  if e - s ≤ factor then ⟨e, ⟨0, 0⟩, ⟨0, 0⟩, []⟩
  else if s + factor ≥ mid then ⟨s + factor, ⟨0, 0⟩, ⟨mid, j⟩, [.r]⟩
  else ⟨s + factor, ⟨s + factor, mid⟩, ⟨mid, j⟩, [.r, .l]⟩

theorem midpoint_eq {ar : Arith} {lo hi i j : ℤ} (h : ar.FaithfulOn lo hi) (hi₀ : lo ≤ i)
    (hij : i ≤ j) (hj : j ≤ hi) : midpoint ar i j = some (i + (j - i) / 2) := by
  have hd : (j - i).tdiv 2 = (j - i) / 2 := Int.tdiv_eq_ediv_of_nonneg (by omega)
  have h₁ : ar.op (j - i) = some (j - i) := h.op_length _ (by omega) (by omega)
  have h₂ : ar.op (i + (j - i) / 2) = some (i + (j - i) / 2) :=
    h.op_index _ (by omega) (by omega)
  have h₃ : ar.conv (i + (j - i) / 2) = i + (j - i) / 2 := h.conv_index _ (by omega) (by omega)
  simp only [midpoint, h₁, hd, Option.bind_eq_bind, Option.bind_some, h₂, h₃, Option.pure_def]

/-- Where the arithmetic is faithful, the promotion lambda makes the exact split. The
published progress is the image of an index under the conversion to `sig_atomic_t`. -/
theorem promotion_eq {ar : Arith} {lo hi factor j s : ℤ} {v : LoopVars}
    (h : ar.FaithfulOn lo hi) (hK : ar.conv factor = factor) (hK₀ : 0 ≤ factor)
    (hs : v.sig_safe_i = ar.toSig s) (hlo : lo ≤ s) (hse : s ≤ v.loop_end)
    (hhi : v.loop_end ≤ hi) : promotion ar factor j v = some (split factor j s v.loop_end) := by
  have hssi : ar.conv v.sig_safe_i = s := by rw [hs]; exact h.conv_sig s hlo (by omega)
  have hrest : ar.op (v.loop_end - s) = some (v.loop_end - s) :=
    h.op_length _ (by omega) (by omega)
  rw [promotion, split]
  simp only [hK, hssi, hrest, Option.bind_eq_bind, Option.bind_some, Option.pure_def]
  by_cases hle : v.loop_end - s ≤ factor
  · simp only [if_pos hle]
  · have hprom : ar.op (s + factor) = some (s + factor) := h.op_index _ (by omega) (by omega)
    have hconv : ar.conv (s + factor) = s + factor := h.conv_index _ (by omega) (by omega)
    have hmid := midpoint_eq h (i := s + factor) (j := v.loop_end) (by omega) (by omega) hhi
    simp only [if_neg hle, hprom, hconv, hmid, Option.bind_some]
    split_ifs <;> rfl

/-- Over the exact integers the lambda is the split. -/
theorem promotion_exact (factor j : ℤ) (v : LoopVars) (hK : 0 ≤ factor)
    (hse : v.sig_safe_i ≤ v.loop_end) :
    promotion .exact factor j v = some (split factor j v.sig_safe_i v.loop_end) :=
  promotion_eq (Arith.exact_faithfulOn v.sig_safe_i v.loop_end) rfl hK rfl le_rfl hse le_rfl

/-- What a split may do: nothing, because the loop is nearly done; hand everything
beyond the reserved iterations to `r`; or divide it between `l` and `r`. -/
theorem split_cases (factor j s e : ℤ) :
    (e - s ≤ factor ∧ split factor j s e = ⟨e, ⟨0, 0⟩, ⟨0, 0⟩, []⟩) ∨
    (e = s + factor + 1 ∧
      split factor j s e = ⟨s + factor, ⟨0, 0⟩, ⟨s + factor, j⟩, [.r]⟩) ∨
    (∃ mid, s + factor < mid ∧ mid < e ∧
      split factor j s e = ⟨s + factor, ⟨s + factor, mid⟩, ⟨mid, j⟩, [.r, .l]⟩) := by
  rw [split]
  by_cases h₁ : e - s ≤ factor
  · exact .inl ⟨h₁, by simp only [if_pos h₁]⟩
  · by_cases h₂ : s + factor ≥ s + factor + (e - (s + factor)) / 2
    · have he : e = s + factor + 1 := by omega
      have hm : s + factor + (e - (s + factor)) / 2 = s + factor := by omega
      refine .inr (.inl ⟨he, ?_⟩)
      simp only [if_neg h₁, hm, ge_iff_le, le_refl, if_true]
    · refine .inr (.inr ⟨s + factor + (e - (s + factor)) / 2, by omega, by omega, ?_⟩)
      simp only [if_neg h₁, if_neg h₂]

end Spork.Parfor
