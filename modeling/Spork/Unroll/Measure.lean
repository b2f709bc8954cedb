import Mathlib.Tactic.Common
import Mathlib.Tactic.NormNum

/-!
# The batch and the steps of a probe

The batch that is published and the steps of a transplanted loop come from two scans of one
probe. `measureProbe` takes the slowest integer induction of every loop and keeps the largest
step; `matchStepLoop` asks for exactly one integer induction and takes its step. Both
keep the step in an `unsigned`, and so lose all of it but the low 32 bits.

## Main definitions

* `HeaderPhi`, `ProbeLoop`, `Probe` — what the two scans read of a probe.
* `measureProbe`, `matchStepLoop`, `transplantProbe` — the source.
* `ShortSteps` — no step is truncated.
* `shortSteps_iff`, `transplantProbe_short` — when the two scans agree.
-/
namespace Spork.Unroll

/-- A header PHI of a probe loop, as ScalarEvolution describes it. -/
inductive HeaderPhi
  /-- No integer, or no add recurrence of the loop. -/
  | other
  /-- An integer of the given width; the step if it is a constant. -/
  | addRec (width : ℕ) (step : Option (BitVec width))

/-- A loop of a probe. -/
structure ProbeLoop where
  phis : List HeaderPhi
  /-- The checks of `matchStepLoop` on the form of the loop, its exit test and exit PHIs. -/
  formOk : Bool

/-- A scratch function after the vectoriser, its loops in preorder. -/
structure Probe where
  vectorized : Bool
  loops : List ProbeLoop
  /-- Once rewritten it verifies, and no loop depends on the trip-count snapshot. -/
  rewriteOk : Bool

/-- `APInt::getLimitedValue`. -/
def getLimitedValue (n : ℕ) : ℕ := min n (2 ^ 64 - 1)

/-- The slowest integer induction of a loop. -/
def minStep (m : ℕ) : List HeaderPhi → ℕ
  | [] => m
  | .addRec _ (some step) :: phis =>
      let s := getLimitedValue step.abs.toNat
      minStep (if s ≠ 0 ∧ (m = 0 ∨ s < m) then s else m) phis
  | _ :: phis => minStep m phis

/-- `measureProbe`, from the batch of the loops before. -/
def measureLoops (batch : UInt32) : List ProbeLoop → UInt32
  | [] => batch
  | l :: loops =>
      measureLoops
        (if minStep 0 l.phis > batch.toNat then UInt32.ofNat (minStep 0 l.phis) else batch) loops

/-- `measureProbe`. -/
def measureProbe (p : Probe) : UInt32 := measureLoops 1 p.loops

/-- A matched loop of a probe. -/
structure StepLoop where
  /-- What a trip adds to the induction. -/
  trip : ℕ
  /-- `StepLoop::Step`. -/
  step : UInt32

/-- The only integer induction among header PHIs, given the one found before them. -/
def findInduction (iv : Option (Σ w, BitVec w)) : List HeaderPhi → Option (Σ w, BitVec w)
  | [] => iv
  | .other :: phis => findInduction iv phis
  | .addRec _ none :: _ => none
  | .addRec w (some step) :: phis =>
      if 0 < step.toInt ∧ iv.isNone then findInduction (some ⟨w, step⟩) phis else none

/-- `matchStepLoop`. -/
def matchStepLoop (indexWidth : ℕ) (l : ProbeLoop) : Option StepLoop :=
  if l.formOk then
    (findInduction none l.phis).bind fun iv =>
      let step := UInt32.ofNat (getLimitedValue iv.2.toNat)
      if iv.1 = indexWidth ∧ step ≠ 0 then some ⟨iv.2.toNat, step⟩ else none
  else none

/-- The loops of a probe, matched one after the other. -/
def matchStepLoops (indexWidth : ℕ) : List ProbeLoop → Option (List StepLoop)
  | [] => some []
  | l :: loops =>
      (matchStepLoop indexWidth l).bind fun s => (matchStepLoops indexWidth loops).map (s :: ·)

/-- `transplantProbe`: the step loops that replace the original loop. -/
def transplantProbe (indexWidth : ℕ) (p : Probe) : Option (List StepLoop) :=
  if p.vectorized then
    (matchStepLoops indexWidth p.loops).bind fun steps =>
      if steps ≠ [] ∧ p.rewriteOk then some steps else none
  else none

/-- Every constant step fits an `unsigned`. -/
def ShortSteps (p : Probe) : Prop :=
  ∀ l ∈ p.loops, ∀ w step, .addRec w (some step) ∈ l.phis → step.toNat < 2 ^ 32

/-! ## The two scans of a loop -/

theorem findInduction_some {iv iv' : Σ w, BitVec w} {phis : List HeaderPhi}
    (h : findInduction (some iv) phis = some iv') : iv' = iv ∧ ∀ phi ∈ phis, phi = .other := by
  induction phis with
  | nil => exact ⟨(Option.some.inj h).symm, List.forall_mem_nil _⟩
  | cons phi phis ih =>
    cases phi with
    | other =>
      obtain ⟨he, hall⟩ := ih h
      exact ⟨he, List.forall_mem_cons.mpr ⟨rfl, hall⟩⟩
    | addRec w step => cases step <;> simp [findInduction] at h

theorem minStep_other {m : ℕ} {phis : List HeaderPhi} (h : ∀ phi ∈ phis, phi = .other) :
    minStep m phis = m := by
  induction phis with
  | nil => rfl
  | cons phi phis ih =>
    obtain ⟨rfl, hrest⟩ := List.forall_mem_cons.mp h
    exact ih hrest

/-- The induction of a matched loop is the only one, and `minStep` finds it. -/
theorem findInduction_none {iv : Σ w, BitVec w} {phis : List HeaderPhi}
    (h : findInduction none phis = some iv) :
    minStep 0 phis = getLimitedValue iv.2.toNat ∧
      ∀ w step, .addRec w (some step) ∈ phis ↔ iv = ⟨w, step⟩ := by
  induction phis with
  | nil => cases h
  | cons phi phis ih =>
    cases phi with
    | other =>
      obtain ⟨hmin, hall⟩ := ih h
      refine ⟨hmin, fun w step => ?_⟩
      rw [← hall w step]
      simp
    | addRec w step =>
      cases step with
      | none => cases h
      | some step =>
        rw [findInduction] at h
        split at h
        · next hpos =>
          obtain ⟨rfl, hother⟩ := findInduction_some h
          have hmsb : step.msb = false := by
            rw [BitVec.msb_eq_toInt, decide_eq_false_iff_not]
            omega
          have habs : step.abs = step := by simp [BitVec.abs, hmsb]
          have hne : getLimitedValue step.toNat ≠ 0 := by
            have := BitVec.toInt_eq_toNat_of_msb hmsb
            rw [getLimitedValue]
            omega
          refine ⟨?_, fun w' step' => ?_⟩
          · simp only [minStep, habs, minStep_other hother]
            simp [hne]
          · have hnot : .addRec w' (some step') ∉ phis := fun hmem => by cases hother _ hmem
            simp only [List.mem_cons, hnot, or_false, HeaderPhi.addRec.injEq, Sigma.mk.injEq]
            constructor
            · rintro ⟨rfl, he⟩
              cases he
              exact ⟨rfl, .rfl⟩
            · rintro ⟨rfl, he⟩
              cases he
              exact ⟨rfl, .rfl⟩
        · cases h

/-- What `matchStepLoop` takes for the step is what `measureProbe` has found, truncated. -/
theorem matchStepLoop_some {indexWidth : ℕ} {l : ProbeLoop} {s : StepLoop}
    (h : matchStepLoop indexWidth l = some s) :
    minStep 0 l.phis = getLimitedValue s.trip ∧ s.step = UInt32.ofNat (getLimitedValue s.trip) ∧
      ∃ iv : Σ w, BitVec w, iv.2.toNat = s.trip ∧
        ∀ w step, .addRec w (some step) ∈ l.phis ↔ iv = ⟨w, step⟩ := by
  rw [matchStepLoop] at h
  split at h
  · obtain ⟨iv, hiv, h⟩ := Option.bind_eq_some_iff.mp h
    obtain ⟨hmin, hall⟩ := findInduction_none hiv
    simp only at h
    split at h
    · cases h
      exact ⟨hmin, rfl, iv, rfl, hall⟩
    · cases h
  · cases h

/-- The trip of a matched loop is its only constant step. -/
theorem matchStepLoop_short {indexWidth : ℕ} {l : ProbeLoop} {s : StepLoop}
    (h : matchStepLoop indexWidth l = some s) :
    (∀ w step, .addRec w (some step) ∈ l.phis → step.toNat < 2 ^ 32) ↔ s.trip < 2 ^ 32 := by
  obtain ⟨-, -, iv, htrip, hall⟩ := matchStepLoop_some h
  rw [← htrip]
  constructor
  · intro hshort
    exact hshort iv.1 iv.2 ((hall _ _).mpr rfl)
  · intro hshort w step hmem
    cases (hall w step).mp hmem
    exact hshort

/-- Every loop of a probe has its step, and every step its loop. -/
theorem matchStepLoops_some {indexWidth : ℕ} {loops : List ProbeLoop} {steps : List StepLoop}
    (h : matchStepLoops indexWidth loops = some steps) :
    (∀ l ∈ loops, ∃ s ∈ steps, matchStepLoop indexWidth l = some s) ∧
      ∀ s ∈ steps, ∃ l ∈ loops, matchStepLoop indexWidth l = some s := by
  induction loops generalizing steps with
  | nil =>
    cases h
    simp
  | cons l loops ih =>
    obtain ⟨s, hs, h⟩ := Option.bind_eq_some_iff.mp h
    obtain ⟨rest, hrest, rfl⟩ := Option.map_eq_some_iff.mp h
    obtain ⟨hleft, hright⟩ := ih hrest
    constructor
    · intro l' hl'
      rcases List.mem_cons.mp hl' with rfl | hl'
      · exact ⟨s, List.mem_cons_self, hs⟩
      · obtain ⟨s', hs', hmatch⟩ := hleft l' hl'
        exact ⟨s', List.mem_cons_of_mem _ hs', hmatch⟩
    · intro s' hs'
      rcases List.mem_cons.mp hs' with rfl | hs'
      · exact ⟨l, List.mem_cons_self, hs⟩
      · obtain ⟨l', hl', hmatch⟩ := hright s' hs'
        exact ⟨l', List.mem_cons_of_mem _ hl', hmatch⟩

theorem transplantProbe_some {indexWidth : ℕ} {p : Probe} {steps : List StepLoop}
    (h : transplantProbe indexWidth p = some steps) :
    matchStepLoops indexWidth p.loops = some steps := by
  rw [transplantProbe] at h
  split at h
  · obtain ⟨steps', hs, h⟩ := Option.bind_eq_some_iff.mp h
    split at h
    · cases h
      exact hs
    · cases h
  · cases h

/-! ## When they agree -/

/-- Without truncation the batch is at least every step. -/
theorem le_measureLoops {loops : List ProbeLoop} (h : ∀ l ∈ loops, minStep 0 l.phis < 2 ^ 32)
    (batch : UInt32) : batch.toNat ≤ (measureLoops batch loops).toNat ∧
      ∀ l ∈ loops, minStep 0 l.phis ≤ (measureLoops batch loops).toNat := by
  induction loops generalizing batch with
  | nil => exact ⟨le_rfl, List.forall_mem_nil _⟩
  | cons l loops ih =>
    obtain ⟨hl, hloops⟩ := List.forall_mem_cons.mp h
    obtain ⟨hle, hall⟩ := ih hloops
      (if minStep 0 l.phis > batch.toNat then UInt32.ofNat (minStep 0 l.phis) else batch)
    have hnat : (UInt32.ofNat (minStep 0 l.phis)).toNat = minStep 0 l.phis :=
      UInt32.toNat_ofNat_of_lt' hl
    rw [measureLoops]
    refine ⟨hle.trans' ?_, List.forall_mem_cons.mpr ⟨hle.trans' ?_, hall⟩⟩
    · split
      · rw [hnat]
        omega
      · exact le_rfl
    · split
      · exact hnat.ge
      · omega

theorem getLimitedValue_eq {n : ℕ} (h : n < 2 ^ 32) : getLimitedValue n = n := by
  rw [getLimitedValue]
  omega

/-- The trips of a transplanted loop are the constant steps of its probe. -/
theorem shortSteps_iff {indexWidth : ℕ} {p : Probe} {steps : List StepLoop}
    (h : transplantProbe indexWidth p = some steps) :
    ShortSteps p ↔ ∀ s ∈ steps, s.trip < 2 ^ 32 := by
  obtain ⟨hleft, hright⟩ := matchStepLoops_some (transplantProbe_some h)
  constructor
  · intro hshort s hs
    obtain ⟨l, hl, hmatch⟩ := hright s hs
    exact (matchStepLoop_short hmatch).mp (hshort l hl)
  · intro hshort l hl
    obtain ⟨s, hs, hmatch⟩ := hleft l hl
    exact (matchStepLoop_short hmatch).mpr (hshort s hs)

/-- Steps that fit an `unsigned` are not truncated, and none is more than the batch. -/
theorem transplantProbe_short {indexWidth : ℕ} {p : Probe} {steps : List StepLoop}
    (h : transplantProbe indexWidth p = some steps) (hshort : ShortSteps p) :
    ∀ s ∈ steps, s.step.toNat = s.trip ∧ s.trip ≤ (measureProbe p).toNat := by
  obtain ⟨hleft, hright⟩ := matchStepLoops_some (transplantProbe_some h)
  have htrips := (shortSteps_iff h).mp hshort
  have hmin : ∀ l, ∀ s ∈ steps, matchStepLoop indexWidth l = some s →
      minStep 0 l.phis = s.trip := by
    intro l s hs hmatch
    rw [(matchStepLoop_some hmatch).1, getLimitedValue_eq (htrips s hs)]
  have hloops : ∀ l ∈ p.loops, minStep 0 l.phis < 2 ^ 32 := by
    intro l hl
    obtain ⟨s, hs, hmatch⟩ := hleft l hl
    rw [hmin l s hs hmatch]
    exact htrips s hs
  intro s hs
  obtain ⟨l, hl, hmatch⟩ := hright s hs
  constructor
  · rw [(matchStepLoop_some hmatch).2.1, getLimitedValue_eq (htrips s hs)]
    exact UInt32.toNat_ofNat_of_lt' (htrips s hs)
  · rw [← hmin l s hs hmatch]
    exact (le_measureLoops hloops 1).2 l hl

end Spork.Unroll
