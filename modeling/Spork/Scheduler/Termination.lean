import Spork.Scheduler.Payments

/-!
# Programs come to an end

Every run has finitely many steps besides its heartbeats, because each of them pays a debt. If
the run is fair, each worker that has a program returns from it: a worker could go on if any
had something left to do, and the oldest item on the stack of such a worker is its program.

## Main definitions

* `Run`, `eventually_heartbeats` — every run has finitely many other steps.
* `Root`, `Rooted` — the workers that have a program are busy with it.
* `Fair`, `total_correctness` — fair runs return from their programs.
* `follow` — a finite run goes on with heartbeats.
-/
namespace Spork.Scheduler

open Descent

variable {W V : Type}

/-! ## Runs -/

/-- A run that goes on for ever, from the programs `main`. -/
structure Run [DecidableEq W] [Inhabited V] (main : W → Option (Code V))
    (σ : ℕ → State W V) (l : ℕ → Label W) : Prop where
  init : σ 0 = State.init main
  step : ∀ n, (σ n).step (l n) = some (σ (n + 1))

section
variable [DecidableEq W] [Inhabited V] {main : W → Option (Code V)} {σ : ℕ → State W V}
  {l : ℕ → Label W}

theorem Run.steps (h : Run main σ l) (n : ℕ) :
    Relation.ReflTransGen State.Step (State.init main) (σ n) := by
  induction n with
  | zero => exact h.init ▸ .refl
  | succ n ih => exact ih.tail ⟨_, h.step n⟩

theorem Run.linked (h : Run main σ l) [Fintype W] (n : ℕ) : (σ n).Linked := by
  induction n with
  | zero =>
    rw [h.init]
    intro v
    show Worker.Linked ⟨(main v).elim .sched .code, [], [], 0, false, 0, 0, 0⟩
    cases main v <;> exact List.forall_mem_nil _
  | succ n ih => exact (step_debts (reachable_inv ⟨main, h.steps n⟩) ih (h.step n)).1

omit [DecidableEq W] in
/-- The debts of programs without loops that keep no iteration cannot be paid for ever. -/
theorem acc_init [Fintype W] (hpos : ∀ w c, main w = some c → c.Positive) :
    Acc (Descends Debt.Lt) (State.init main : State W V).debts := by
  refine acc_descends fun d hd => ?_
  obtain ⟨w, -, hd⟩ := Multiset.mem_sum.mp hd
  have hdebts : ((State.init main : State W V).workers w).debts w (State.init main).jobs =
      (main w).elim 0 fun c => {.code c} := by
    show Worker.debts w _ ⟨(main w).elim .sched .code, [], [], 0, false, 0, 0, 0⟩ = _
    cases main w <;> rfl
  rw [hdebts] at hd
  cases hmain : main w with
  | none =>
    rw [hmain] at hd
    exact absurd hd (Multiset.notMem_zero d)
  | some c =>
    rw [hmain] at hd
    exact Multiset.mem_singleton.mp hd ▸ acc_code (hpos w c hmain)

/-- From some point on there are only heartbeats. -/
theorem eventually_heartbeats [Fintype W] (h : Run main σ l)
    (hpos : ∀ w c, main w = some c → c.Positive) :
    ∃ k, ∀ n, k ≤ n → ∃ w, l n = .heartbeat w := by
  have hstep := fun n => step_debts (reachable_inv ⟨main, h.steps n⟩) (h.linked n) (h.step n)
  obtain ⟨k, hk⟩ := finitely_often (f := fun n => (σ n).debts)
    (P := fun n => ∀ w, l n ≠ .heartbeat w) (h.init ▸ acc_init hpos) (fun n => (hstep n).2.1)
    (fun n hn => (hstep n).2.2 hn)
  refine ⟨k, fun n hn => ?_⟩
  by_contra hne
  exact hk n hn fun w he => hne ⟨w, he⟩

end

/-! ## Fair runs -/

/-- The oldest item of a stack is not a stolen job. -/
def Root (ms : List (Mark W)) : Prop := ∃ m, ms.getLast? = some m ∧ ∀ J, m ≠ .opr J

/-- The head of a stack that goes on is no root, or stays one. -/
theorem Root.head {m m' : Mark W} {ms : List (Mark W)} (h : Root (m :: ms))
    (hm : ∀ J, m' ≠ .opr J) : Root (m' :: ms) := by
  cases ms with
  | nil => exact ⟨m', rfl, hm⟩
  | cons a ms =>
    obtain ⟨r, hr, hne⟩ := h
    rw [List.getLast?_cons_cons] at hr
    exact ⟨r, by rw [List.getLast?_cons_cons]; exact hr, hne⟩

theorem Root.push {m : Mark W} {ms : List (Mark W)} (h : Root ms) : Root (m :: ms) := by
  cases ms with
  | nil =>
    obtain ⟨r, hr, -⟩ := h
    cases hr
  | cons a ms =>
    obtain ⟨r, hr, hne⟩ := h
    exact ⟨r, by rw [List.getLast?_cons_cons]; exact hr, hne⟩

/-- What a worker runs first stays at the bottom of its stack. -/
theorem Moves.root {next next' : ℕ} {ms ms' : List (Mark W)} (h : Moves next ms ms' next')
    (hr : Root ms) : Root ms' := by
  cases h with
  | same => exact hr
  | run => exact hr.push
  | ret =>
    obtain ⟨r, hr, hne⟩ := hr
    rw [List.getLast?_cons_cons] at hr
    exact ⟨r, hr, hne⟩
  | ended =>
    obtain ⟨r, hr, hne⟩ := hr
    cases ms' with
    | nil => exact absurd (Option.some.inj hr).symm (hne _)
    | cons a ms =>
      rw [List.getLast?_cons_cons] at hr
      exact ⟨r, hr, hne⟩
  | _ => exact hr.head (by simp)

section
variable [DecidableEq W] [Inhabited V] {main : W → Option (Code V)} {s s' : State W V}

/-- The workers that have a program are busy with it, or have returned from it. -/
def Rooted (main : W → Option (Code V)) (s : State W V) : Prop :=
  ∀ w c, main w = some c → Root (s.workers w).marks

theorem step_rooted (h : Rooted main s) (hstep : s.Step s') : Rooted main s' := by
  obtain ⟨l, hstep⟩ := hstep
  intro u c hc
  have hu := h u c hc
  rcases State.step_cases hstep with ⟨w, n, r, hr, rfl⟩ | ⟨w, rfl⟩ | ⟨w, v, d, J, hlook, rfl, -⟩
  · by_cases huw : u = w
    · subst huw
      rw [State.set_self]
      exact (run_moves hr).root hu
    · rw [State.set_ne w s huw]
      exact hu
  · by_cases huw : u = w
    · subst huw
      rw [State.set_self, heartbeat_marks.1]
      exact hu
    · rw [State.set_ne w s huw]
      exact hu
  · rw [start_marks hlook]
    by_cases huw : u = w
    · rw [if_pos huw]
      exact hu.push
    · rw [if_neg huw]
      exact hu

theorem reachable_rooted (hrun : Relation.ReflTransGen State.Step (State.init main) s) :
    Rooted main s := by
  induction hrun with
  | refl =>
    intro w c hc
    show Root (Worker.marks ⟨(main w).elim .sched .code, [], [], 0, false, 0, 0, 0⟩)
    rw [hc]
    exact ⟨.code, rfl, by simp⟩
  | tail _ hstep ih => exact step_rooted ih hstep

/-- A heartbeat leaves code alone. -/
theorem heartbeat_code {w : W} {x : Worker W V} {jobs : Jobs W V} {c : Code V}
    (h : x.point = .code c) : (x.heartbeat_handler w jobs).1.point = .code c := by
  rw [Worker.heartbeat_handler]
  by_cases hd : x.disable_heartbeats
  · rw [if_pos hd]
    exact h
  · rw [if_neg hd, Worker.promote_front]
    simp only [h]
    rfl

variable {σ : ℕ → State W V} {l : ℕ → Label W}

/-- Heartbeats do not go on for ever while a worker can take a step. -/
def Fair (σ : ℕ → State W V) (l : ℕ → Label W) : Prop :=
  ∀ n, (∃ w s', (σ n).step (.run w 0) = some s') → ∃ m, n ≤ m ∧ ∀ w, l m ≠ .heartbeat w

/-- In a run with heartbeats only, nothing is left to do. -/
theorem Run.quiet [Finite W] (h : Run main σ l) (hfair : Fair σ l) {k : ℕ}
    (hk : ∀ n, k ≤ n → ∃ w, l n = .heartbeat w) {n : ℕ} (hn : k ≤ n) : (σ n).Quiet := by
  refine quiet_of_stuck ⟨main, h.steps n⟩ fun w => ?_
  by_contra hne
  obtain ⟨r, hr⟩ := Option.ne_none_iff_exists'.mp hne
  obtain ⟨m, hm, hbeat⟩ := hfair n ⟨w, (σ n).set w r, by rw [State.step, hr]; rfl⟩
  obtain ⟨v, hv⟩ := hk m (hn.trans hm)
  exact hbeat v hv

/-- A heartbeat, and a worker that has returned. -/
theorem step_returned {l : Label W} {w : W} {v : V} (hstep : s.step l = some s')
    (hl : ∃ u, l = .heartbeat u) (hp : (s.workers w).point = .code (.ret v)) :
    (s'.workers w).point = .code (.ret v) := by
  obtain ⟨u, rfl⟩ := hl
  cases hstep
  by_cases hw : w = u
  · subst hw
    rw [State.set_self]
    exact heartbeat_code hp
  · rw [State.set_ne u s hw]
    exact hp

/-- **Total correctness.** In every fair run of programs whose loops keep at least one iteration
when they are promoted, each worker that has a program returns from it: from some point on its
stack is empty, and it stays with a value of the sequential elision; with the one value, if the
program has only one. -/
theorem total_correctness [Fintype W] (h : Run main σ l) (hfair : Fair σ l)
    (hpos : ∀ w c, main w = some c → c.Positive) :
    ∃ k, ∀ w c, main w = some c → ∃ v, Evals c v ∧ (c.Uniform → v = c.elide) ∧
      ∀ n, k ≤ n → ((σ n).workers w).stack = [] ∧
        ((σ n).workers w).point = .code (.ret v) := by
  obtain ⟨k, hk⟩ := eventually_heartbeats h hpos
  have hquiet := fun {n : ℕ} (hn : k ≤ n) => h.quiet hfair hk hn
  refine ⟨k, fun w c hc => ?_⟩
  have hroot := reachable_rooted (h.steps k) w c hc
  obtain ⟨hstack, -, hsched | ⟨v, hv⟩⟩ := hquiet le_rfl w
  · obtain ⟨m, hm, -⟩ := hroot
    rw [Worker.marks, hstack, hsched] at hm
    cases hm
  · have hpoint := ((reachable_sound (h.steps k)).workers w).point
    rw [hv, hstack] at hpoint
    have hev : Evals c v := hpoint v (.ret v) c hc
    refine ⟨v, hev, hev.eq_elide, fun n hn => ⟨(hquiet hn w).stack, ?_⟩⟩
    induction n, hn using Nat.le_induction with
    | base => exact hv
    | succ n hn ih => exact step_returned (h.step n) (hk n hn) ih

end

/-! ## A run that goes on -/

section
variable [DecidableEq W] [Inhabited V] (w : W)

/-- The labels `ls`, and heartbeats of `w` ever after. -/
def padded (ls : List (Label W)) (n : ℕ) : Label W := (ls[n]?).getD (.heartbeat w)

/-- The states of the run with these labels. -/
def follow : List (Label W) → State W V → ℕ → State W V
  | _, s, 0 => s
  | [], s, n + 1 => follow [] (s.set w ((s.workers w).heartbeat_handler w s.jobs)) n
  | l :: ls, s, n + 1 => follow ls ((s.step l).getD s) n

theorem follow_step {ls : List (Label W)} {s : State W V} (h : (State.exec ls s).isSome) (n : ℕ) :
    (follow w ls s n).step (padded w ls n) = some (follow w ls s (n + 1)) := by
  induction n generalizing ls s with
  | zero =>
    cases ls with
    | nil => rfl
    | cons l ls =>
      obtain ⟨s', hs⟩ := Option.isSome_iff_exists.mp h
      obtain ⟨s₁, h₁, -⟩ := Option.bind_eq_some_iff.mp hs
      show s.step l = some ((s.step l).getD s)
      rw [h₁]
      rfl
  | succ n ih =>
    cases ls with
    | nil => exact @ih [] _ rfl
    | cons l ls =>
      obtain ⟨s', hs⟩ := Option.isSome_iff_exists.mp h
      obtain ⟨s₁, h₁, hs₁⟩ := Option.bind_eq_some_iff.mp hs
      exact @ih ls ((s.step l).getD s) (by rw [h₁, Option.getD_some, hs₁]; rfl)

/-- Every finite run goes on with heartbeats. -/
theorem run_follow (main : W → Option (Code V)) (ls : List (Label W))
    (h : (State.exec ls (State.init main)).isSome) :
    Run main (follow w ls (State.init main)) (padded w ls) :=
  ⟨by cases ls <;> rfl, follow_step w h⟩

/-- After its labels the run has heartbeats only. -/
theorem follow_length {ls : List (Label W)} {s s' : State W V} (h : State.exec ls s = some s')
    (n : ℕ) : follow w ls s (ls.length + n) = follow w [] s' n := by
  induction ls generalizing s with
  | nil =>
    cases h
    rw [List.length_nil, zero_add]
  | cons l ls ih =>
    obtain ⟨s₁, h₁, hs₁⟩ := Option.bind_eq_some_iff.mp h
    have hlen : (l :: ls).length + n = ls.length + n + 1 := by rw [List.length_cons]; omega
    rw [hlen, follow, h₁, Option.getD_some]
    exact ih hs₁

omit w in
/-- No worker takes a step if nothing is left to do. -/
theorem State.Quiet.run_eq_none {s : State W V} (h : s.Quiet) (w : W) (n : ℕ) :
    (s.workers w).run w s.jobs n = none := by
  obtain ⟨hstack, -, hp | ⟨v, hp⟩⟩ := h w
  · simp only [Worker.run, hp, Worker.schedStep, hstack]
  · simp only [Worker.run, hp, Worker.codeStep, Worker.returnStep, hstack]

/-- Heartbeats leave nothing to do. -/
theorem State.Quiet.follow {s : State W V} (h : s.Quiet) (n : ℕ) : (follow w [] s n).Quiet := by
  induction n generalizing s with
  | zero => exact h
  | succ n ih =>
    refine ih fun u => ?_
    by_cases hu : u = w
    · subst hu
      obtain ⟨hstack, hdeque, hp⟩ := h u
      rw [State.set_self, Worker.heartbeat_handler]
      by_cases hd : (s.workers u).disable_heartbeats
      · rw [if_pos hd]
        exact ⟨hstack, hdeque, hp⟩
      · rw [if_neg hd, Worker.promote_front]
        rcases hp with hp | ⟨v, hp⟩
        · simp only [hp, hstack]
          exact ⟨rfl, hdeque, .inl rfl⟩
        · simp only [hp, hstack]
          exact ⟨rfl, hdeque, .inr ⟨v, rfl⟩⟩
    · rw [State.set_ne w s hu]
      exact h u

/-- A finite run that leaves nothing to do is fair. -/
theorem fair_follow {main : W → Option (Code V)} {ls : List (Label W)} {l : Label W}
    {s : State W V} (h : State.exec (ls ++ [l]) (State.init main) = some s) (hs : s.Quiet)
    (hl : ∀ u, l ≠ .heartbeat u) :
    Fair (follow w (ls ++ [l]) (State.init main)) (padded w (ls ++ [l])) := by
  rintro n ⟨u, s', hstep⟩
  by_cases hn : n ≤ ls.length
  · refine ⟨ls.length, hn, ?_⟩
    rw [padded, List.getElem?_concat_length]
    exact hl
  · obtain ⟨k, rfl⟩ := Nat.exists_eq_add_of_le (show (ls ++ [l]).length ≤ n by simp; omega)
    rw [follow_length w h, State.step, (hs.follow w k).run_eq_none u 0] at hstep
    cases hstep

end

theorem total_correctness_sum : ∃ k, ∀ n, k ≤ n →
    ((follow false elisionRun (State.init sumMain) n).workers false).point = .code (.ret 3) := by
  have hpos : ∀ w c, sumMain w = some c → c.Positive := by
    intro w c hc
    cases w with
    | false =>
      cases hc
      exact ⟨trivial, trivial, fun _ => trivial, fun _ => trivial, fun _ _ => trivial,
        fun _ => trivial⟩
    | true => cases hc
  have hquiet : sumState.Quiet := by
    intro w
    cases w with
    | false => exact ⟨rfl, rfl, .inr ⟨3, rfl⟩⟩
    | true => exact ⟨rfl, rfl, .inl rfl⟩
  obtain ⟨k, hk⟩ := total_correctness (run_follow false sumMain elisionRun rfl)
    (fair_follow false (Option.some_get _).symm hquiet (by simp)) hpos
  obtain ⟨v, -, hv, hend⟩ := hk false _ rfl
  have huni : Code.Uniform (V := ℕ) (.spork (.ret 1) (.ret 2) (fun br => .ret (br + 2))
      (fun br => .ret (br + 2)) (fun br sr => .ret (br + sr)) .ret) :=
    ⟨trivial, trivial, trivial, ⟨trivial, rfl⟩, ⟨trivial, rfl⟩, trivial⟩
  obtain rfl := hv huni
  exact ⟨k, fun n hn => (hend n hn).2⟩

end Spork.Scheduler
