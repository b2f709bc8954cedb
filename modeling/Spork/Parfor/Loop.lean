import Spork.Lib.ForkJoin
import Spork.Lib.IntRange
import Spork.Parfor.Promotion

/-!
# The interruptible loop

`parfor_` and `scan` run the same loop: load the bound and compare, run the body,
advance the index, publish it. A promotion handler may arrive between any two of these,
when the published index may be one behind. The control of the loop does not depend on
what its body computes, so it is a state machine of its own, and the loop with its
bodies is that machine with a program run at each `body` step.

## Main definitions

* `Pc`, `Loop`, `Loop.step` — the control.
* `Loop.Ok` — the invariant, and `Loop.step_spec` the step lemma.
* `loopStep`, `runSteps`, `finish` — the loop with its bodies.
* `seqfor`, `runSteps_eq`, `finish_eq` — the bodies it runs, in index order.
-/
namespace Spork.Parfor

open CInt ForkJoin IntRange

/-- What the loop does next. -/
inductive Pc
  /-- Load `loop_end` and compare. -/
  | test
  | body
  | incr
  /-- Store `sig_safe_i`. -/
  | publish
  | done
  deriving DecidableEq, Repr

/-- The control state of the loop. -/
structure Loop where
  vars : LoopVars
  pc : Pc
  deriving DecidableEq, Repr

namespace Loop

/-- The loop at its entry, with `sig_safe_i = i` and `loop_end = j`. -/
def enter (ar : Arith) (i j : ℤ) : Loop := ⟨⟨i, ar.toSig i, j⟩, .test⟩

/-- One step of the control. -/
def step (ar : Arith) (c : Loop) : Option Loop :=
  match c.pc with
  | .test => some { c with pc := if c.vars.i < c.vars.loop_end then .body else .done }
  | .body => some { c with pc := .incr }
  | .incr => (ar.op (c.vars.i + 1)).map fun x =>
      { vars := { c.vars with i := ar.conv x }, pc := .publish }
  | .publish => some { vars := { c.vars with sig_safe_i := ar.toSig c.vars.i }, pc := .test }
  | .done => some c

/-- A number of steps of the control. -/
def run (ar : Arith) : ℕ → Loop → Option Loop
  | 0, c => some c
  | t + 1, c => (c.step ar).bind (run ar t)

/-- The first index whose body has not been run. -/
def next (c : Loop) : ℤ := if c.pc = .incr then c.vars.i + 1 else c.vars.i

/-- The index last published. -/
def published (c : Loop) : ℤ := if c.pc = .publish then c.vars.i - 1 else c.vars.i

/-- The loop invariant, for a loop entered at `lo`. -/
structure Ok (ar : Arith) (lo : ℤ) (c : Loop) : Prop where
  progress : c.vars.sig_safe_i = ar.toSig c.published
  lo_le : lo ≤ c.published
  next_le : c.next ≤ c.vars.loop_end
  at_body : c.pc = .body → c.vars.i < c.vars.loop_end
  at_done : c.pc = .done → c.vars.i = c.vars.loop_end

/-- Distance to the exit. -/
def measure (c : Loop) : ℕ :=
  let r := (c.vars.loop_end - c.vars.i).toNat
  match c.pc with
  | .test => 4 * r + 1
  | .body => 4 * r
  | .incr => 4 * r - 1
  | .publish => 4 * r + 2
  | .done => 0

/-- Enough steps to leave the loop. -/
def budget (c : Loop) : ℕ := 4 * (c.vars.loop_end - c.vars.i).toNat + 3

variable {ar : Arith} {lo hi : ℤ} {c : Loop}

theorem measure_lt_budget (c : Loop) : c.measure < c.budget := by
  rw [measure, budget]
  cases c.pc <;> simp only <;> omega

/-- The published index is the next one or one behind it. -/
theorem lag (c : Loop) : c.published ≤ c.next ∧ c.next ≤ c.published + 1 := by
  rw [published, next]
  cases c.pc <;> simp

theorem ok_enter {i j : ℤ} (hij : i ≤ j) : (enter ar i j).Ok ar i where
  progress := rfl
  lo_le := le_rfl
  next_le := hij
  at_body h := nomatch h
  at_done h := nomatch h

/-- What one step does: it keeps the invariant and the bound, runs a body exactly at
`body`, and comes closer to the exit. -/
theorem step_spec (hf : ar.FaithfulOn lo hi) (h : c.Ok ar lo) (hhi : c.vars.loop_end ≤ hi) :
    ∃ c', c.step ar = some c' ∧ c'.Ok ar lo ∧ c'.vars.loop_end = c.vars.loop_end ∧
      c'.next = (if c.pc = .body then c.next + 1 else c.next) ∧
      (c.pc ≠ .done → c'.measure < c.measure) := by
  obtain ⟨⟨i, ssi, e⟩, pc⟩ := c
  obtain ⟨hprog, hlo, hnext, hbody, hdone⟩ := h
  cases pc <;>
    simp only [published, next, reduceCtorEq, if_false, if_true] at hprog hlo hnext hbody hdone hhi
  case test =>
    by_cases hlt : i < e
    · refine ⟨⟨⟨i, ssi, e⟩, .body⟩, by simp [step, hlt], ⟨hprog, hlo, hnext, fun _ => hlt, by simp⟩,
        rfl, rfl, fun _ => ?_⟩
      simp only [measure]; omega
    · refine ⟨⟨⟨i, ssi, e⟩, .done⟩, by simp [step, hlt], ⟨hprog, hlo, hnext, by simp, fun _ => ?_⟩,
        rfl, rfl, fun _ => ?_⟩
      · show i = e; omega
      · simp only [measure]; omega
  case body =>
    have hlt := hbody trivial
    refine ⟨⟨⟨i, ssi, e⟩, .incr⟩, rfl, ⟨hprog, hlo, ?_, by simp, by simp⟩, rfl, rfl, fun _ => ?_⟩
    · show i + 1 ≤ e; omega
    · simp only [measure]; omega
  case incr =>
    have hop : ar.op (i + 1) = some (i + 1) := hf.op_index _ (by omega) (by omega)
    have hconv : ar.conv (i + 1) = i + 1 := hf.conv_index _ (by omega) (by omega)
    refine ⟨⟨⟨i + 1, ssi, e⟩, .publish⟩, by simp [step, hop, hconv],
      ⟨?_, ?_, hnext, by simp, by simp⟩, rfl, rfl, fun _ => ?_⟩
    · show ssi = ar.toSig (i + 1 - 1)
      rw [hprog, add_sub_cancel_right]
    · show lo ≤ i + 1 - 1; omega
    · simp only [measure]; omega
  case publish =>
    refine ⟨⟨⟨i, ar.toSig i, e⟩, .test⟩, rfl, ⟨rfl, ?_, hnext, by simp, by simp⟩, rfl, rfl,
      fun _ => ?_⟩
    · show lo ≤ i; omega
    · simp only [measure]; omega
  case done =>
    exact ⟨⟨⟨i, ssi, e⟩, .done⟩, rfl, ⟨hprog, hlo, hnext, by simp, fun _ => hdone trivial⟩,
      rfl, rfl, by simp⟩

/-- Any number of steps keep the invariant and the bound. -/
theorem run_spec (hf : ar.FaithfulOn lo hi) (t : ℕ) (h : c.Ok ar lo)
    (hhi : c.vars.loop_end ≤ hi) :
    ∃ c', c.run ar t = some c' ∧ c'.Ok ar lo ∧ c'.vars.loop_end = c.vars.loop_end := by
  induction t generalizing c with
  | zero => exact ⟨c, rfl, h, rfl⟩
  | succ t ih =>
    obtain ⟨c₁, hstep, hok, hend, -⟩ := step_spec hf h hhi
    obtain ⟨c', hrun, hok', hend'⟩ := ih hok (by omega)
    exact ⟨c', by simp [run, hstep, hrun], hok', by omega⟩

/-- The loop leaves by its exit, at its bound. -/
theorem exists_done (hf : ar.FaithfulOn lo hi) (h : c.Ok ar lo) (hhi : c.vars.loop_end ≤ hi) :
    ∃ t c', c.run ar t = some c' ∧ c'.pc = .done ∧ c'.vars.i = c.vars.loop_end := by
  induction hm : c.measure using Nat.strong_induction_on generalizing c with
  | _ m ih =>
    by_cases hd : c.pc = .done
    · exact ⟨0, c, rfl, hd, h.at_done hd⟩
    · obtain ⟨c₁, hstep, hok, hend, -, hlt⟩ := step_spec hf h hhi
      have hlt := hlt hd
      obtain ⟨t, c', hrun, hdone, hi⟩ := ih c₁.measure (by omega) hok (by omega) rfl
      exact ⟨t + 1, c', by simp [run, hstep, hrun], hdone, by omega⟩

/-- Lowering the bound to `K ≥ 1` beyond the published index keeps the invariant. -/
theorem Ok.lower {K : ℤ} (h : c.Ok ar lo) (hK : 1 ≤ K)
    (hroom : c.published + K < c.vars.loop_end) :
    Ok ar lo { c with vars := { c.vars with loop_end := c.published + K } } := by
  have hlag := c.lag
  refine ⟨h.progress, h.lo_le, ?_, fun hb => ?_, fun hd => ?_⟩
  · show c.next ≤ c.published + K; omega
  · have hb : c.pc = .body := hb
    show c.vars.i < c.published + K
    simp only [published, hb, reduceCtorEq, if_false]
    omega
  · have hd : c.pc = .done := hd
    have := h.at_done hd
    simp only [published, hd, reduceCtorEq, if_false] at hroom
    omega

end Loop

/-! ## The loop with its bodies -/

section
variable {L V E S : Type} (ar : Arith) (body : ℤ → S → Prog L V E S)

/-- One step of the loop. -/
def loopStep (s : Loop × S) : Prog L V E (Loop × S) :=
  match s.1.step ar with
  | none => .ub
  | some c =>
      if s.1.pc = .body then (body s.1.vars.i s.2).bind fun a => .ret (c, a)
      else .ret (c, s.2)

/-- A number of steps. -/
def runSteps : ℕ → Loop × S → Prog L V E (Loop × S)
  | 0, s => .ret s
  | t + 1, s => (loopStep ar body s).bind (runSteps t)

/-- The loop up to its exit. -/
def finish : ℕ → Loop × S → Prog L V E (Loop × S)
  | 0, _ => .ub
  | n + 1, s => if s.1.pc = .done then .ret s else (loopStep ar body s).bind (finish n)

/-- The bodies of a list of indices, one after the other. -/
def bodies : List ℤ → S → Prog L V E S
  | [], a => .ret a
  | k :: ks, a => (body k a).bind (bodies ks)

variable {ar} {lo hi : ℤ}

theorem bodies_append (ks ks' : List ℤ) (a : S) :
    bodies body (ks ++ ks') a = (bodies body ks a).bind (bodies body ks') := by
  induction ks generalizing a with
  | nil => rfl
  | cons k ks ih =>
    simp only [List.cons_append, bodies, Prog.bind_assoc]
    congr 1
    funext a'
    exact ih a'

/-- Consecutive ranges. -/
theorem bodies_range {i k j : ℤ} (hik : i ≤ k) (hkj : k ≤ j) (a : S) :
    bodies body (Int.range i j) a =
      (bodies body (Int.range i k) a).bind (bodies body (Int.range k j)) := by
  rw [← range_append hik hkj, bodies_append]

theorem loopStep_eq (hf : ar.FaithfulOn lo hi) {c : Loop} (h : c.Ok ar lo)
    (hhi : c.vars.loop_end ≤ hi) :
    ∃ c', c.step ar = some c' ∧ c'.Ok ar lo ∧ c'.vars.loop_end = c.vars.loop_end ∧
      c.next ≤ c'.next ∧ (c.pc ≠ .done → c'.measure < c.measure) ∧
      ∀ a, loopStep ar body (c, a) =
        (bodies body (Int.range c.next c'.next) a).bind fun a' => .ret (c', a') := by
  obtain ⟨c', hstep, hok, hend, hnext, hlt⟩ := Loop.step_spec hf h hhi
  by_cases hb : c.pc = .body
  · rw [if_pos hb] at hnext
    refine ⟨c', hstep, hok, hend, by omega, hlt, fun a => ?_⟩
    have hi : c.next = c.vars.i := by simp [Loop.next, hb]
    simp only [loopStep, hstep, if_pos hb, hnext, range_singleton, bodies, Prog.bind_ret, hi]
  · rw [if_neg hb] at hnext
    refine ⟨c', hstep, hok, hend, by omega, hlt, fun a => ?_⟩
    simp only [loopStep, hstep, if_neg hb, hnext, range_self, bodies, Prog.ret_bind]

/-- However many steps are taken, the bodies run are those of a range. -/
theorem runSteps_eq (hf : ar.FaithfulOn lo hi) (t : ℕ) {c : Loop} (h : c.Ok ar lo)
    (hhi : c.vars.loop_end ≤ hi) :
    ∃ c', c.run ar t = some c' ∧ c'.Ok ar lo ∧ c'.vars.loop_end = c.vars.loop_end ∧
      c.next ≤ c'.next ∧ ∀ a, runSteps ar body t (c, a) =
        (bodies body (Int.range c.next c'.next) a).bind fun a' => .ret (c', a') := by
  induction t generalizing c with
  | zero => exact ⟨c, rfl, h, rfl, le_rfl, fun a => by simp [runSteps, bodies]⟩
  | succ t ih =>
    obtain ⟨c₁, hstep₁, hok₁, hend₁, hle₁, -, hrun₁⟩ := loopStep_eq body hf h hhi
    obtain ⟨c', hsteps, hok', hend', hle', hrun'⟩ := ih hok₁ (by omega)
    refine ⟨c', by simp [Loop.run, hstep₁, hsteps], hok', by omega, by omega, fun a => ?_⟩
    rw [bodies_range body hle₁ hle', runSteps, hrun₁]
    simp only [Prog.bind_assoc, Prog.ret_bind, hrun']

/-- With enough fuel the loop runs the bodies of the indices it has left, up to the bound. -/
theorem finish_eq (hf : ar.FaithfulOn lo hi) (n : ℕ) {c : Loop} (h : c.Ok ar lo)
    (hhi : c.vars.loop_end ≤ hi) (hn : c.measure < n) :
    ∃ c', c'.vars.i = c.vars.loop_end ∧ ∀ a, finish ar body n (c, a) =
      (bodies body (Int.range c.next c.vars.loop_end) a).bind fun a' => .ret (c', a') := by
  induction n generalizing c with
  | zero => omega
  | succ n ih =>
    by_cases hd : c.pc = .done
    · have hnext : c.next = c.vars.loop_end := by rw [← h.at_done hd]; simp [Loop.next, hd]
      exact ⟨c, h.at_done hd, fun a => by simp [finish, hd, hnext, bodies]⟩
    · obtain ⟨c₁, -, hok₁, hend₁, hle₁, hlt₁, hrun₁⟩ := loopStep_eq body hf h hhi
      have hlt := hlt₁ hd
      obtain ⟨c', hi', hrun'⟩ := ih hok₁ (by omega) (by omega)
      refine ⟨c', by omega, fun a => ?_⟩
      have hle : c₁.next ≤ c.vars.loop_end := by rw [← hend₁]; exact hok₁.next_le
      rw [bodies_range body hle₁ hle, finish, if_neg hd, hrun₁]
      simp only [Prog.bind_assoc, Prog.ret_bind, hrun', hend₁]

end

section
variable {L V E S : Type} (ar : Arith) (body : ℤ → S → Prog L V E S)

/-- `for (; i < j; i++) body(i, a)`. -/
def seqfor : ℕ → ℤ → ℤ → S → Prog L V E S
  | 0, _, _, _ => .ub
  | n + 1, i, j, a =>
      if i < j then
        (body i a).bind fun a' =>
          match ar.op (i + 1) with
          | none => .ub
          | some x => seqfor n (ar.conv x) j a'
      else .ret a

variable {ar} {lo hi : ℤ}

theorem seqfor_eq (hf : ar.FaithfulOn lo hi) (n : ℕ) {i j : ℤ} (hlo : lo ≤ i) (hhi : j ≤ hi)
    (hn : (j - i).toNat < n) (a : S) :
    seqfor ar body n i j a = bodies body (Int.range i j) a := by
  induction n generalizing i a with
  | zero => omega
  | succ n ih =>
    rw [seqfor]
    by_cases hij : i < j
    · have hop : ar.op (i + 1) = some (i + 1) := hf.op_index _ (by omega) (by omega)
      have hconv : ar.conv (i + 1) = i + 1 := hf.conv_index _ (by omega) (by omega)
      simp only [if_pos hij, hop, hconv, range_eq_cons hij, bodies]
      congr 1
      funext a'
      exact ih (by omega) (by omega) a'
    · simp only [if_neg hij, range_eq_nil (by omega : j ≤ i), bodies]

end
end Spork.Parfor
