import Spork.Lib.Interrupt
import Spork.Lib.IntRange
import Spork.Parfor.Promotion

/-!
# Step loops against the promotion handler

`rewriteStepLoop` turns each loop of the vectorised probe into a step loop: `s`
iterations at a time, guarded before it is entered and at its latch by a fresh load
of the bound, with a progress store after every step. The loops run one after the
other (vector body, vector epilogue, scalar remainder) on one index, while the
promotion handler of `parfor_` may arrive between any two of their volatile
operations and lower the bound under a step that is already under way.

Index arithmetic is exact in this module.

## Main definitions

* `State`, `step` — the chain of step loops, one volatile operation at a time.
* `handler` — the promotion lambda with the published factor.
* `Inv` — progress, index and bound stay within one batch of each other.
* `stepLoops_partition` — the loop and the jobs partition the range.
-/
namespace Spork.Unroll.StepLoops

open CInt Parfor Interrupt IntRange

/-- `base + (count - 1) < bound`, the in-bounds part of the batch guard. -/
def createBatchGuard (base : ℤ) (count : ℕ) (bound : ℤ) : Bool := base + (count - 1) < bound

/-- Where the control is: at a guard, in the body of a step, or at the progress store. -/
inductive Pc
  | guard
  | step
  | publish
  deriving DecidableEq, Repr

/-- The batched loop, together with what the handler has left behind. -/
structure State where
  vars : LoopVars
  /-- Step sizes of the current loop and of the loops after it. -/
  rest : List ℕ
  pc : Pc
  /-- The indices the body has been executed on. -/
  ran : List ℤ
  promo : Option Promotion

/-- One volatile operation of the chain, or the body between two of them. A guard that
fails at the preheader or at the latch leaves the current loop for the next one, which
has a guard of its own. -/
def step (s : State) : Option State :=
  match s.pc, s.rest with
  | .guard, [] => none
  | .guard, n :: rest =>
      if createBatchGuard s.vars.i n s.vars.loop_end then some { s with pc := .step }
      else some { s with rest := rest }
  | .step, [] => none
  | .step, n :: _ =>
      some { s with
        vars := { s.vars with i := s.vars.i + n }
        ran := s.ran ++ Int.range s.vars.i (s.vars.i + n)
        pc := .publish }
  | .publish, _ =>
      some { s with vars := { s.vars with sig_safe_i := s.vars.i }, pc := .guard }

/-- The handler of `parfor_` with the published factor `K`. -/
def handler (K : ℕ) (j : ℤ) (s : State) : State :=
  match promotion .exact K j s.vars with
  | some p => { s with vars := { s.vars with loop_end := p.loop_end }, promo := some p }
  | none => s

/-- The loop as it is entered, with `parfor_`'s initial progress and bound. -/
def enter (start j : ℤ) (chain : List ℕ) : State :=
  { vars := ⟨start, start, j⟩, rest := chain, pc := .guard, ran := [], promo := none }

/-- The jobs the handler enqueued, none if it has not run. -/
def State.enqueued (s : State) : List Half := (s.promo.map Promotion.enqueued).getD []

/-- The ranges handed to the enqueued jobs, in index order: `l` before `r`. -/
def State.handed (s : State) : List (ℤ × ℤ) :=
  match s.promo with
  | none => []
  | some p => p.enqueued.reverse.map fun h => ((p.job h).i, (p.job h).j)

/-! ## The protocol invariant -/

/-- What the control point says about the index, the progress and the current step. -/
def AtPc (s : State) : Prop :=
  match s.pc, s.rest with
  | .guard, _ => s.vars.sig_safe_i = s.vars.i
  | .step, n :: _ => s.vars.sig_safe_i = s.vars.i ∧ s.vars.i + n ≤ s.vars.loop_end
  | .publish, n :: _ => s.vars.i = s.vars.sig_safe_i + n
  | _, [] => False

/-- What the handler has done so far: nothing, or one promotion of the range. -/
def Handled (j : ℤ) (fired : Bool) (s : State) : Prop :=
  if fired then ∃ p, s.promo = some p ∧ s.vars.loop_end = p.loop_end ∧
    Pieces p.loop_end s.handed j
  else s.promo = none ∧ s.vars.loop_end = j

/-- The invariant the header of the pass asserts: the progress is at most one batch
behind the index, the index never passes the bound, and a step under way was admitted
by the bound of its own guard. -/
structure Inv (K : ℕ) (start j : ℤ) (fired : Bool) (s : State) : Prop where
  start_le : start ≤ s.vars.i
  ran_eq : s.ran = Int.range start s.vars.i
  le_bound : s.vars.i ≤ s.vars.loop_end
  bound_le : s.vars.loop_end ≤ j
  atPc : AtPc s
  steps : ∀ n ∈ s.rest, 1 ≤ n ∧ n ≤ K
  last : s.rest ≠ [] → s.rest.getLast? = some 1
  done : s.rest = [] → s.vars.i = s.vars.loop_end
  handled : Handled j fired s

/-- Distance to the end of the range, and to the end of the chain. -/
def measure (s : State) : ℕ :=
  3 * (s.vars.loop_end - s.vars.i).toNat + s.rest.length +
    match s.pc with
    | .guard => 1
    | .step => 0
    | .publish => 2

variable {K : ℕ} {start j : ℤ} {s s' : State}

theorem inv_enter (hij : start ≤ j) {chain : List ℕ} (hsteps : ∀ n ∈ chain, 1 ≤ n ∧ n ≤ K)
    (hlast : chain.getLast? = some 1) : Inv K start j false (enter start j chain) where
  start_le := le_rfl
  ran_eq := by simp [enter]
  le_bound := hij
  bound_le := le_rfl
  atPc := rfl
  steps := hsteps
  last _ := hlast
  done h := by
    have : chain = [] := h
    subst this
    cases hlast
  handled := ⟨rfl, rfl⟩

/-- The step relation by cases: guard passed, guard failed, body, progress store. -/
theorem step_cases (h : step s = some s') :
    (∃ n rest, s.pc = .guard ∧ s.rest = n :: rest ∧ s.vars.i + n ≤ s.vars.loop_end ∧
      s' = { s with pc := .step }) ∨
    (∃ n rest, s.pc = .guard ∧ s.rest = n :: rest ∧ s.vars.loop_end < s.vars.i + n ∧
      s' = { s with rest := rest }) ∨
    (∃ n rest, s.pc = .step ∧ s.rest = n :: rest ∧
      s' = { s with
        vars := { s.vars with i := s.vars.i + n }
        ran := s.ran ++ Int.range s.vars.i (s.vars.i + n)
        pc := .publish }) ∨
    (s.pc = .publish ∧
      s' = { s with vars := { s.vars with sig_safe_i := s.vars.i }, pc := .guard }) := by
  rw [step] at h
  split at h
  · cases h
  case h_2 n rest hpc hrest =>
    by_cases hg : createBatchGuard s.vars.i n s.vars.loop_end
    · rw [if_pos hg] at h
      simp only [createBatchGuard, decide_eq_true_eq] at hg
      exact .inl ⟨n, rest, hpc, hrest, by omega, (Option.some.inj h).symm⟩
    · rw [if_neg hg] at h
      simp only [createBatchGuard, decide_eq_true_eq] at hg
      exact .inr (.inl ⟨n, rest, hpc, hrest, by omega, (Option.some.inj h).symm⟩)
  · cases h
  case h_4 n rest hpc hrest =>
    exact .inr (.inr (.inl ⟨n, rest, hpc, hrest, (Option.some.inj h).symm⟩))
  case h_5 hpc =>
    exact .inr (.inr (.inr ⟨hpc, (Option.some.inj h).symm⟩))

theorem step_inv {fired : Bool} (hi : Inv K start j fired s) (h : step s = some s') :
    Inv K start j fired s' := by
  have hat := hi.atPc
  rcases step_cases h with ⟨n, rest, hpc, hrest, hle, rfl⟩ | ⟨n, rest, hpc, hrest, hlt, rfl⟩ |
    ⟨n, rest, hpc, hrest, rfl⟩ | ⟨hpc, rfl⟩
  · -- the guard admits the whole step under the bound just loaded
    simp only [AtPc, hpc] at hat
    exact { hi with atPc := by simp only [AtPc, hrest]; exact ⟨hat, hle⟩ }
  · -- the loop is left; only the scalar loop's guard can be the last one to fail
    simp only [AtPc, hpc] at hat
    have hlast := hi.last (by rw [hrest]; exact List.cons_ne_nil _ _)
    rw [hrest] at hlast
    refine { hi with atPc := ?_, steps := ?_, last := ?_, done := ?_ }
    · simp only [AtPc, hpc]; exact hat
    · intro m hm
      exact hi.steps m (by rw [hrest]; exact List.mem_cons_of_mem _ hm)
    · intro hne
      rw [List.getLast?_cons_of_ne_nil hne] at hlast
      exact hlast
    · intro hnil
      have hnil : rest = [] := hnil
      subst hnil
      have hn : n = 1 := by simpa using hlast
      have := hi.le_bound
      simp only [hn] at hlt
      show s.vars.i = s.vars.loop_end
      omega
  · -- the step runs its `n` iterations
    simp only [AtPc, hpc, hrest] at hat
    have hs := hi.start_le
    refine { hi with start_le := ?_, ran_eq := ?_, le_bound := ?_, atPc := ?_, done := ?_ }
    · show start ≤ s.vars.i + n; omega
    · show s.ran ++ _ = _
      rw [hi.ran_eq, range_append hs (by omega)]
    · exact hat.2
    · simp only [AtPc, hrest]; omega
    · intro hnil; rw [hrest] at hnil; cases hnil
  · refine { hi with atPc := rfl }

theorem measure_lt {fired : Bool} (hi : Inv K start j fired s) (h : step s = some s') :
    measure s' < measure s := by
  have hat := hi.atPc
  rcases step_cases h with ⟨n, rest, hpc, hrest, hle, rfl⟩ | ⟨n, rest, hpc, hrest, hlt, rfl⟩ |
    ⟨n, rest, hpc, hrest, rfl⟩ | ⟨hpc, rfl⟩
  · simp only [measure, hpc]; omega
  · simp only [measure, hpc, hrest, List.length_cons]; omega
  · simp only [AtPc, hpc, hrest] at hat
    have hn := hi.steps n (by rw [hrest]; exact List.mem_cons_self)
    simp only [measure, hpc]
    omega
  · simp only [measure, hpc]; omega

/-- The published progress is at most one batch behind the index. -/
theorem Inv.lag {fired : Bool} (hi : Inv K start j fired s) :
    s.vars.sig_safe_i ≤ s.vars.i ∧ s.vars.i ≤ s.vars.sig_safe_i + K := by
  have hat := hi.atPc
  rw [AtPc] at hat
  split at hat
  · omega
  · omega
  case h_3 n rest hpc hrest =>
    have := hi.steps n (by rw [hrest]; exact List.mem_cons_self)
    omega
  · exact hat.elim

theorem handler_eq {p : Promotion} (h : promotion .exact K j s.vars = some p) :
    handler K j s =
      { s with vars := { s.vars with loop_end := p.loop_end }, promo := some p } := by
  rw [handler]
  rw [h]

/-- Lowering the bound to one batch beyond the progress leaves room for the step under
way, and the jobs take over where the loop will now stop. -/
theorem inv_lowered (hi : Inv K start j false s) {p : Promotion}
    (hroom : s.vars.sig_safe_i + K < s.vars.loop_end)
    (hend : p.loop_end = s.vars.sig_safe_i + K)
    (hpieces : Pieces p.loop_end
      (p.enqueued.reverse.map fun h => ((p.job h).i, (p.job h).j)) j) :
    Inv K start j true
      { s with vars := { s.vars with loop_end := p.loop_end }, promo := some p } := by
  have hlag := hi.lag
  have hat := hi.atPc
  have hbound := hi.bound_le
  refine { hi with
    le_bound := ?_, bound_le := ?_, atPc := ?_, done := ?_, handled := ⟨p, rfl, rfl, hpieces⟩ }
  · show s.vars.i ≤ p.loop_end; omega
  · show p.loop_end ≤ j; omega
  · -- a step under way started at the published progress
    rw [AtPc] at hat ⊢
    split at hat
    · simp only [*]
    case h_2 n rest hpc hrest =>
      have := hi.steps n (by rw [hrest]; exact List.mem_cons_self)
      simp only [hpc, hrest]
      omega
    case h_3 n rest hpc hrest =>
      simp only [hpc, hrest]
      exact hat
    · exact hat.elim
  · intro hnil
    have hnil : s.rest = [] := hnil
    have := hi.done hnil
    show s.vars.i = p.loop_end
    rw [AtPc] at hat
    split at hat
    · omega
    all_goals simp_all

/-- Every promotion keeps the protocol invariant. -/
theorem handler_inv (hi : Inv K start j false s) : Inv K start j true (handler K j s) := by
  obtain ⟨hpromo, hend⟩ := (show s.promo = none ∧ s.vars.loop_end = j from hi.handled)
  have hlag := hi.lag
  have hle := hi.le_bound
  have hprom := promotion_exact K j s.vars (by omega) (by omega)
  rcases split_cases K j s.vars.sig_safe_i s.vars.loop_end with
    ⟨hnone, heq⟩ | ⟨hone, heq⟩ | ⟨mid, hlo, hhi, heq⟩
  all_goals
    rw [heq] at hprom
    rw [handler_eq hprom]
  · exact { hi with handled := ⟨_, rfl, rfl, hend⟩ }
  · refine inv_lowered hi (by omega) rfl ⟨rfl, ?_, rfl⟩
    show s.vars.sig_safe_i + K < j
    omega
  · refine inv_lowered hi (by omega) rfl ⟨rfl, hlo, rfl, ?_, rfl⟩
    show mid < j
    omega

theorem step_eq_none : step s = none ↔ s.rest = [] ∧ s.pc ≠ .publish := by
  rw [step]
  split <;> simp_all
  split <;> simp

theorem handler_rest : (handler K j s).rest = s.rest ∧ (handler K j s).pc = s.pc := by
  rw [handler]
  split <;> exact ⟨rfl, rfl⟩

theorem certificate (K : ℕ) (start j : ℤ) :
    Certificate step (handler K j) (Inv K start j) measure where
  step_inv _ _ _ := step_inv
  measure_lt _ _ _ := measure_lt
  handler_inv _ := handler_inv
  handler_halted s h := by
    rw [step_eq_none] at h ⊢
    rwa [handler_rest.1, handler_rest.2]

/-- When the chain has been left, the loop and the handed ranges list `[start, j)`. -/
theorem Inv.pieces {fired : Bool} (hi : Inv K start j fired s) (hrest : s.rest = []) :
    s.ran = Int.range start s.vars.loop_end ∧ Pieces s.vars.loop_end s.handed j := by
  refine ⟨by rw [hi.ran_eq, hi.done hrest], ?_⟩
  cases fired with
  | false =>
    obtain ⟨hpromo, hend⟩ := (show s.promo = none ∧ s.vars.loop_end = j from hi.handled)
    simp only [State.handed, hpromo, Pieces, hend]
  | true =>
    obtain ⟨p, -, hend, hp⟩ := hi.handled
    rwa [hend]

theorem handed_eq_nil (h : s.enqueued = []) : s.handed = [] := by
  rw [State.enqueued] at h
  rw [State.handed]
  cases hp : s.promo with
  | none => rfl
  | some p => simp_all

/-- **The loop and the jobs partition the range.** Whatever chain of step loops the
rewrite produced, however many of them are skipped on the way to the scalar one, and
whenever the handler arrives, the loop performs `start, start + 1, …` in order up to the
bound it exits with, and the jobs the handler enqueued take over exactly there. -/
theorem stepLoops_partition (K : ℕ) (start j : ℤ) (hij : start ≤ j)
    (chain visited : List ℕ) (hsteps : ∀ n ∈ chain, 1 ≤ n ∧ n ≤ K)
    (hvisited : visited.Sublist chain) (hlast : visited.getLast? = some 1) (t : Option ℕ) :
    ∃ s, EndsIn step (handler K j) t (enter start j visited) s ∧
      s.ran = Int.range start s.vars.loop_end ∧
      ((s.enqueued = [] ∧ s.vars.loop_end = j) ∨
        (s.enqueued ≠ [] ∧ Pieces s.vars.loop_end s.handed j)) ∧
      (s.ran ++ s.handed.flatMap fun p => Int.range p.1 p.2) = Int.range start j ∧
      ∀ k ∈ s.ran, ∀ p ∈ s.handed, ¬(p.1 ≤ k ∧ k < p.2) := by
  have hsteps' : ∀ n ∈ visited, 1 ≤ n ∧ n ≤ K := fun n hn => hsteps n (hvisited.subset hn)
  obtain ⟨s, hends, hi, hhalt⟩ :=
    (certificate K start j).exec_total t _ (inv_enter hij hsteps' hlast)
  have hrest := (step_eq_none.mp hhalt).1
  obtain ⟨hran, hpieces⟩ := hi.pieces hrest
  have hle : start ≤ s.vars.loop_end := le_trans hi.start_le hi.le_bound
  refine ⟨s, hends, hran, ?_, ?_, ?_⟩
  · by_cases henq : s.enqueued = []
    · rw [handed_eq_nil henq] at hpieces
      exact .inl ⟨henq, hpieces⟩
    · exact .inr ⟨henq, hpieces⟩
  · rw [hpieces.flatMap_range, hran, range_append hle hpieces.le]
  · intro k hk p hp hin
    rw [hran, Int.mem_range_iff] at hk
    have := hpieces.le_fst hp
    omega

/-- A vector loop of step 4 and its scalar remainder, the handler arriving between the
guard of the first step and its body. -/
theorem stepLoops_partition_four_one :
    ∃ s, EndsIn step (handler 4 10) (some 1) (enter 0 10 [4, 1]) s ∧
      s.ran = Int.range 0 s.vars.loop_end ∧
      (s.ran ++ s.handed.flatMap fun p => Int.range p.1 p.2) = Int.range 0 10 := by
  obtain ⟨s, hends, hran, -, hall, -⟩ := stepLoops_partition 4 0 10 (by decide) [4, 1] [4, 1]
    (by decide) (List.Sublist.refl _) rfl (some 1)
  exact ⟨s, hends, hran, hall⟩

end Spork.Unroll.StepLoops
