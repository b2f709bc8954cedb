import Spork.Unroll.BatchGuard
import Mathlib.Data.List.Range

/-!
# The arithmetic of the probe

`buildProbe` outlines a sequential copy of a marked loop and renormalises its
induction to count from zero: the trip count `n` is computed once from the bound, the
new induction `idx` runs below `n`, and the original index is recovered as
`start + idx`. Each of the three operations carries no-wrap flags. This module embeds
those operations, runs the probe on them, and finds exactly when no flag is violated.

## Main definitions

* `LoopShape` — what `buildProbe` reads of the matched loop.
* `tripCount`, `index`, `nextIndex`, `continues`, `probe` — the emitted code.
* `FlagsTruthful`, `ProbeFaithful` — no poison, and as many iterations as the loop.
* `probeFaithful_iff` — the flags are truthful exactly for short ranges.
-/
namespace Spork.Unroll.Probe

open LLVM

variable {w bw cw : ℕ}

/-- The exit test of the matched loop and the flags of its increment. -/
structure LoopShape (w bw cw : ℕ) extends ExitTest w bw cw where
  /-- `NUW` and `NSW` of `NextInduction`, both false if it is no binary operator. -/
  flags : Flags

/-- A loop whose compare uses the induction and the bound load directly. -/
def LoopShape.direct (p : Pred) (flags : Flags) : LoopShape w w w :=
  { ExitTest.direct p with flags := flags }

/-- `n = casts(bound) - casts(start)`, flagged by the signedness of the predicate. -/
def tripCount (P : LoopShape w bw cw) (start : BitVec w) (bound : BitVec bw) :
    Option (BitVec cw) :=
  sub ⟨!P.predicate.isSigned, P.predicate.isSigned⟩ (P.boundCasts bound) (P.nextCasts start)

/-- `i = start + idx`, with the flags of the original increment. -/
def index (P : LoopShape w bw cw) (start idx : BitVec w) : Option (BitVec w) :=
  add P.flags start idx

/-- `idx.next = idx + 1`, flagged both `nuw` and `nsw`. -/
def nextIndex (idx : BitVec w) : Option (BitVec w) := add ⟨true, true⟩ idx 1

/-- `casts(idx.next) < n`. -/
def continues (P : LoopShape w bw cw) (n : BitVec cw) (idxNext : BitVec w) : Bool :=
  P.predicate.lt (P.nextCasts idxNext) n

/-- The rotated loop of the probe from `idx` on: the indices its body is given, or
`none` when an operation is poison (or the fuel is spent). -/
def probeLoop (P : LoopShape w bw cw) (start : BitVec w) (n : BitVec cw) :
    ℕ → BitVec w → Option (List (BitVec w))
  | 0, _ => none
  | fuel + 1, idx => do
      let i ← index P start idx
      let idxNext ← nextIndex idx
      if continues P n idxNext then
        let is ← probeLoop P start n fuel idxNext
        return i :: is
      else return [i]

/-- The outlined function. -/
def probe (P : LoopShape w bw cw) (fuel : ℕ) (start : BitVec w) (bound : BitVec bw) :
    Option (List (BitVec w)) := do
  let n ← tripCount P start bound
  probeLoop P start n fuel 0

/-- The iterations the original loop performs from `start` to an unshortened bound. -/
def trips (p : Pred) (start bound : BitVec w) : ℕ := (p.val bound - p.val start).toNat

/-- The index of iteration `k`. -/
def iteration (start : BitVec w) (k : ℕ) : BitVec w := start + BitVec.ofNat w k

/-- No increment the original loop executes violates its flags. -/
def IncrementDefined (P : LoopShape w w w) (start bound : BitVec w) : Prop :=
  ∀ k < trips P.predicate start bound, (add P.flags (iteration start k) 1).isSome

/-- Every flagged operation of the probe is executed within its flags. -/
def FlagsTruthful (P : LoopShape w w w) (start bound : BitVec w) : Prop :=
  (tripCount P start bound).isSome ∧
    ∀ k < trips P.predicate start bound,
      (nextIndex (BitVec.ofNat w k)).isSome ∧ (index P start (BitVec.ofNat w k)).isSome

/-- The probe introduces no poison and performs the iterations of the loop. -/
def ProbeFaithful (P : LoopShape w w w) (start bound : BitVec w) : Prop :=
  FlagsTruthful P start bound ∧
    ∃ N, ∀ fuel, N ≤ fuel → probe P fuel start bound =
      some ((List.range (trips P.predicate start bound)).map (iteration start))

/-! ## Short ranges -/

section
variable {P : LoopShape w w w} {start bound : BitVec w}

/-- A loop whose increments are defined stays, on the way to its bound, inside every
reading its flags speak of. -/
theorem IncrementDefined.le_maxVal (h : IncrementDefined P start bound) (hw : 2 ≤ w) {p : Pred}
    (hf : P.flags.flag p = true) :
    ∀ k ≤ trips P.predicate start bound, p.val start + k ≤ p.maxVal w := by
  intro k
  induction k with
  | zero => intro _; simpa using p.val_le_maxVal start
  | succ k ih =>
    intro hk
    have hfit := ih (by omega)
    have := (add_isSome_iff.mp (h k (by omega)) p hf).2
    rw [p.val_one hw, iteration, p.val_add_ofNat start k hfit] at this
    push_cast
    omega

/-- Recovering the index of an iteration violates no flag of the increment. -/
theorem index_isSome (h : IncrementDefined P start bound) (hw : 2 ≤ w) {k : ℕ}
    (hk : k < trips P.predicate start bound) (hshort : (k : ℤ) ≤ Pred.maxVal .slt w) :
    (index P start (BitVec.ofNat w k)).isSome := by
  refine add_isSome_iff.mpr fun p hf => ?_
  have hmin := p.minVal_le_val start
  rw [p.val_ofNat (hshort.trans (p.maxVal_slt_le w))]
  exact ⟨by omega, h.le_maxVal hw hf k (by omega)⟩

/-- Counting an iteration violates neither flag while the count fits the signed type. -/
theorem nextIndex_isSome_iff (hw : 2 ≤ w) {k : ℕ} (hshort : (k : ℤ) ≤ Pred.maxVal .slt w) :
    (nextIndex (BitVec.ofNat w k)).isSome ↔ (k : ℤ) + 1 ≤ Pred.maxVal .slt w := by
  rw [nextIndex]
  rw [add_isSome_iff]
  constructor
  · intro h
    have := (h .slt rfl).2
    rwa [Pred.val_ofNat _ hshort, Pred.val_one _ hw] at this
  · intro h p _
    have hle := p.maxVal_slt_le w
    have hmin := p.minVal_nonpos w
    rw [p.val_ofNat (hshort.trans hle), p.val_one hw]
    omega

/-- The trip count is defined exactly when it fits the reading of the predicate. -/
theorem tripCount_isSome_iff {p : Pred} {f : Flags} :
    (tripCount (.direct p f) start bound).isSome ↔
      p.minVal w ≤ p.val bound - p.val start ∧ p.val bound - p.val start ≤ p.maxVal w :=
  sub_isSome_iff p

/-- One trip of the probe loop. -/
theorem probeLoop_succ {p : Pred} {f : Flags} {n : BitVec w} (hw : 2 ≤ w)
    (hdef : IncrementDefined (.direct p f) start bound) (hn : p.val n = trips p start bound)
    (hshort : (trips p start bound : ℤ) ≤ Pred.maxVal .slt w) {k : ℕ}
    (hk : k < trips p start bound) (fuel : ℕ) :
    probeLoop (.direct p f) start n (fuel + 1) (BitVec.ofNat w k) =
      if k + 1 < trips p start bound then
        (probeLoop (.direct p f) start n fuel (BitVec.ofNat w (k + 1))).map
          (iteration start k :: ·)
      else some [iteration start k] := by
  have hindex : index (.direct p f) start (BitVec.ofNat w k) = some (iteration start k) :=
    add_eq_some (index_isSome hdef hw hk (by omega))
  have hnext : nextIndex (BitVec.ofNat w k) = some (BitVec.ofNat w (k + 1)) := by
    have h := (nextIndex_isSome_iff hw (k := k) (by omega)).mpr (by omega)
    rw [BitVec.ofNat_add]
    exact add_eq_some h
  have hcont : continues (.direct p f) n (BitVec.ofNat w (k + 1)) = true ↔
      k + 1 < trips p start bound := by
    show p.lt (BitVec.ofNat w (k + 1)) n = true ↔ _
    have hle := p.maxVal_slt_le w
    rw [p.lt_iff, hn, p.val_ofNat (by push_cast; omega)]
    omega
  simp only [probeLoop, hindex, hnext, Option.bind_eq_bind, Option.bind_some, hcont]
  split
  · cases probeLoop (.direct p f) start n fuel (BitVec.ofNat w (k + 1)) <;> rfl
  · rfl

/-- The probe loop performs the remaining iterations, in order, when none of them
violates a flag. -/
theorem probeLoop_eq {p : Pred} {f : Flags} {n : BitVec w} (hw : 2 ≤ w)
    (hdef : IncrementDefined (.direct p f) start bound) (hn : p.val n = trips p start bound)
    (hshort : (trips p start bound : ℤ) ≤ Pred.maxVal .slt w) :
    ∀ d k fuel, k + d + 1 = trips p start bound → d + 1 ≤ fuel →
      probeLoop (.direct p f) start n fuel (BitVec.ofNat w k) =
        some ((List.range' k (d + 1)).map (iteration start)) := by
  intro d
  induction d with
  | zero =>
    intro k fuel hk hfuel
    obtain ⟨fuel, rfl⟩ : ∃ m, fuel = m + 1 := ⟨fuel - 1, by omega⟩
    rw [probeLoop_succ hw hdef hn hshort (by omega), if_neg (by omega)]
    rfl
  | succ d ih =>
    intro k fuel hk hfuel
    obtain ⟨fuel, rfl⟩ : ∃ m, fuel = m + 1 := ⟨fuel - 1, by omega⟩
    rw [probeLoop_succ hw hdef hn hshort (by omega), if_pos (by omega),
      ih (k + 1) fuel (by omega) (by omega), List.range'_succ]
    rfl

/-- A range whose length the signed type holds is treated faithfully. -/
theorem probeFaithful_of_short {p : Pred} {f : Flags} (hw : 2 ≤ w)
    (hlt : p.lt start bound = true) (hdef : IncrementDefined (.direct p f) start bound)
    (hshort : (trips p start bound : ℤ) ≤ Pred.maxVal .slt w) :
    ProbeFaithful (.direct p f) start bound := by
  have hlt' := (p.lt_iff start bound).mp hlt
  have htrips : (trips p start bound : ℤ) = p.val bound - p.val start := by
    unfold trips; omega
  have hle := p.maxVal_slt_le w
  have hmin := p.minVal_nonpos w
  have hcount : (tripCount (.direct p f) start bound).isSome :=
    tripCount_isSome_iff.mpr ⟨by omega, by omega⟩
  refine ⟨⟨hcount, fun k hk => ?_⟩, trips p start bound, fun fuel hfuel => ?_⟩
  · have hk' : k < trips p start bound := hk
    exact ⟨(nextIndex_isSome_iff hw (by omega)).mpr (by omega),
      index_isSome hdef hw hk (by omega)⟩
  · have hn : p.val (bound - start) = trips p start bound := by
      rw [p.val_sub (by omega) (by omega), htrips]
    have hcount' : tripCount (.direct p f) start bound = some (bound - start) :=
      sub_eq_some hcount
    have hloop := probeLoop_eq hw hdef hn hshort (trips p start bound - 1) 0 fuel
      (by omega) (by omega)
    rw [show trips p start bound - 1 + 1 = trips p start bound by omega,
      ← List.range_eq_range'] at hloop
    rw [probe]
    rw [hcount']
    exact hloop

/-- A longer range makes some count of iterations violate `nsw`. -/
theorem not_flagsTruthful_of_long {p : Pred} {f : Flags} (hw : 2 ≤ w)
    (hlong : Pred.maxVal .slt w < trips p start bound) :
    ¬FlagsTruthful (.direct p f) start bound := by
  rintro ⟨-, h⟩
  have hpos : (0 : ℤ) < 2 ^ (w - 1) := by positivity
  obtain ⟨k, hk⟩ : ∃ k : ℕ, (k : ℤ) = Pred.maxVal .slt w :=
    ⟨(Pred.maxVal .slt w).toNat, by simp only [Pred.maxVal]; omega⟩
  have hk' : k < trips p start bound := by omega
  have := (nextIndex_isSome_iff hw (k := k) (by omega)).mp (h k hk').1
  omega

/-! ## One-bit indices -/

/-- In one bit, `start < bound` fixes both values. -/
theorem one_bit_ult {start bound : BitVec 1} (h : Pred.lt .ult start bound = true) :
    start = 0 ∧ bound = 1 := by
  revert start bound
  decide

theorem one_bit_slt {start bound : BitVec 1} (h : Pred.lt .slt start bound = true) :
    start = 1 ∧ bound = 0 := by
  revert start bound
  decide

theorem probeFaithful_one_bit (f : Flags) :
    ProbeFaithful (.direct .ult f) (0 : BitVec 1) 1 := by
  obtain ⟨nuw, nsw⟩ := f
  refine ⟨⟨rfl, ?_⟩, 1, fun fuel hfuel => ?_⟩
  · cases nuw <;> cases nsw <;> decide
  · obtain ⟨fuel, rfl⟩ : ∃ m, fuel = m + 1 := ⟨fuel - 1, by omega⟩
    cases nuw <;> cases nsw <;> rfl

/-- **The probe's flags are truthful exactly for short ranges.** For a loop whose own
increments are defined, the probe introduces no poison and performs the loop's
iterations if and only if there are fewer than `2 ^ (w - 1)` of them (in one unsigned
bit, always). -/
theorem probeFaithful_iff (p : Pred) (f : Flags) (start bound : BitVec w)
    (hlt : p.lt start bound = true) (hdef : IncrementDefined (.direct p f) start bound) :
    ProbeFaithful (.direct p f) start bound ↔
      trips p start bound < 2 ^ (w - 1) ∨ (w = 1 ∧ p = .ult) := by
  have hcast : ((2 ^ (w - 1) : ℕ) : ℤ) = 2 ^ (w - 1) := by push_cast; rfl
  have hmax : trips p start bound < 2 ^ (w - 1) ↔
      (trips p start bound : ℤ) ≤ Pred.maxVal .slt w := by
    simp only [Pred.maxVal]; omega
  have hlt' := (p.lt_iff start bound).mp hlt
  by_cases hw : 2 ≤ w
  · rw [hmax]
    constructor
    · intro h
      by_contra hn
      exact not_flagsTruthful_of_long hw (by omega) h.1
    · rintro (h | ⟨h, -⟩)
      · exact probeFaithful_of_short hw hlt hdef h
      · omega
  · obtain rfl | rfl : w = 0 ∨ w = 1 := by omega
    · rw [Subsingleton.elim start bound] at hlt'
      omega
    · cases p
      · obtain ⟨rfl, rfl⟩ := one_bit_slt hlt
        refine iff_of_false ?_ (by decide)
        rintro ⟨⟨h, -⟩, -⟩
        rw [tripCount_isSome_iff] at h
        exact absurd h (by decide)
      · obtain ⟨rfl, rfl⟩ := one_bit_ult hlt
        exact iff_of_true (probeFaithful_one_bit f) (.inr ⟨rfl, rfl⟩)

/-- The theorem at an `int` loop from `-5` to `7` whose increment is `nsw`. -/
theorem probeFaithful_iff_int :
    Pred.lt .slt (-5 : BitVec 32) 7 = true ∧
      ProbeFaithful (.direct .slt ⟨false, true⟩) (-5 : BitVec 32) 7 :=
  ⟨by decide, (probeFaithful_iff .slt ⟨false, true⟩ (-5 : BitVec 32) 7 (by decide)
    (by unfold IncrementDefined; decide)).mpr (.inl (by decide))⟩

/-- `parfor(0u, 2147483648u)`: the last count, `2 ^ 31 - 1`, is incremented under
`nsw`. -/
theorem probe_long_unsigned :
    Pred.lt .ult (0 : BitVec 32) 2147483648 = true ∧
      IncrementDefined (.direct .ult ⟨true, false⟩) (0 : BitVec 32) 2147483648 ∧
      ¬ProbeFaithful (.direct .ult ⟨true, false⟩) (0 : BitVec 32) 2147483648 := by
  refine ⟨by decide, fun k hk => ?_, fun h => ?_⟩
  · have hk' : k < 2147483648 := hk
    refine add_isSome_iff.mpr fun p hp => ?_
    cases p
    · cases hp
    · rw [iteration, Pred.val_add_ofNat _ _ _ (by simp [Pred.val, Pred.maxVal]; omega)]
      simp [Pred.val, Pred.minVal, Pred.maxVal]
      omega
  · exact not_flagsTruthful_of_long (by decide) (by decide) h.1

end
end Spork.Unroll.Probe
