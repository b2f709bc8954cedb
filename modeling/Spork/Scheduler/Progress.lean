import Mathlib.Algebra.Order.BigOperators.Group.List
import Mathlib.Data.Finite.Defs
import Mathlib.Data.Fintype.Lattice
import Mathlib.Data.List.Chain
import Spork.Scheduler.Invariant

/-!
# The scheduler does not deadlock

A worker that waits for a stolen job looks for other jobs. If it finds none, the job is with
another worker, which may itself wait, for a job of a call above it on its stack. Such a call
has been entered since, so that a chain of waiting workers leads to ever newer jobs and
comes to an end: some worker can go on, as long as anything is left to do.

## Main definitions

* `Mark`, `Worker.marks`, `Moves` — the stack of a worker, less what its calls have done.
* `Ranked` — newer calls have jobs of higher rank than the stolen jobs below them.
* `Live` — the invariant, and `step_live` the step lemma.
* `Quiet` — nothing is left to do.
* `no_deadlock`.
-/
namespace Spork.Scheduler

open WorkStealing

variable {W V : Type}

/-! ## Stacks -/

/-- An item of a stack, or user code on top of it. -/
inductive Mark (W : Type)
  | frame (fid : ℕ) (waiting : Bool)
  | opr (J : JobId W)
  | code
  deriving DecidableEq

/-- The call waits for a stolen job. -/
def Sus.isWaiting : Sus V → Bool
  | .waiting _ _ => true
  | _ => false

def Item.mark : Item W V → Mark W
  | .frame f sus => .frame f.fid sus.isWaiting
  | .opr J => .opr J

def Point.marks : Point W V → List (Mark W)
  | .sched => []
  | .code _ => [.code]
  | .frame f _ => [.frame f.fid false]
  | .opr J _ => [.opr J]

/-- What a worker runs, and the items of its stack, newest first. -/
def Worker.marks (x : Worker W V) : List (Mark W) := x.point.marks ++ x.stack.map Item.mark

/-- What a step of a worker does to its stack. -/
inductive Moves (next : ℕ) : List (Mark W) → List (Mark W) → ℕ → Prop
  | same {ms : List (Mark W)} : Moves next ms ms next
  /-- Code is run above what does not wait. -/
  | run {m : Mark W} {ms : List (Mark W)} : (∀ n, m ≠ .frame n true) →
      Moves next (m :: ms) (.code :: m :: ms) next
  /-- It returns to what does not wait. -/
  | ret {m : Mark W} {ms : List (Mark W)} : (∀ n, m ≠ .frame n true) →
      Moves next (.code :: m :: ms) (m :: ms) next
  | enter {ms : List (Mark W)} : Moves next (.code :: ms) (.frame next false :: ms) (next + 1)
  | leave {n : ℕ} {ms : List (Mark W)} : Moves next (.frame n false :: ms) (.code :: ms) next
  | wait {n : ℕ} {ms : List (Mark W)} :
      Moves next (.frame n false :: ms) (.frame n true :: ms) next
  | wake {n : ℕ} {ms : List (Mark W)} :
      Moves next (.frame n true :: ms) (.frame n false :: ms) next
  | ended {J : JobId W} {ms : List (Mark W)} : Moves next (.opr J :: ms) ms next

/-- Only the search for a job runs directly above a call that waits. -/
def Above (a b : Mark W) : Prop := (∃ n, b = .frame n true) → ∃ J, a = .opr J

/-- The jobs of a call are of higher rank than a stolen job below it. -/
def Ranked (rank : W → ℕ → ℕ) (w : W) (a b : Mark W) : Prop :=
  ∀ n waiting J, a = .frame n waiting → b = .opr J → rank J.owner J.frame < rank w n

section
variable [DecidableEq W] [Inhabited V] {w : W} {x : Worker W V} {jobs : Jobs W V}
  {r : Worker W V × Jobs W V}

omit [Inhabited V] [DecidableEq W] in
/-- The marks of a worker in a call. -/
theorem marks_frame {f : Frame V} {pc : Pc V} (hp : x.point = .frame f pc) :
    x.marks = .frame f.fid false :: x.stack.map Item.mark := by
  rw [Worker.marks]
  rw [hp]
  rfl

theorem frameStep_moves {f : Frame V} {pc : Pc V} (hp : x.point = .frame f pc)
    (h : x.frameStep w jobs f pc = some r) : Moves x.next x.marks r.1.marks r.1.next := by
  rw [marks_frame hp]
  cases pc with
  | ctor => cases h; exact .same
  | check => cases h; exact .same
  | save => cases h; exact .same
  | disable before => cases h; exact .same
  | retest before => cases h; exact .same
  | dec before => cases h; exact .same
  | setPromoted before => cases h; exact .same
  | prom before => cases h; exact .same
  | restore before => cases h; exact .same
  | body =>
    rcases Worker.frameStep_body w h with ⟨c, -, rfl⟩ | ⟨call, -, rfl⟩ | ⟨-, rfl⟩
    · exact .run (by simp)
    · exact .same
    · exact .same
  | close => cases h; exact .same
  | closed =>
    obtain ⟨ops, -, rfl⟩ := Option.map_eq_some_iff.mp h
    exact .same
  | act ops =>
    cases ops with
    | nil => cases h; exact .leave
    | cons op ops =>
      cases op with
      | call e c => cases h; exact .run (by simp)
      | sync J reclaim =>
        rcases Worker.frameStep_sync w h with ⟨-, rfl⟩ | ⟨X, d, -, rfl⟩ <;> exact .same
      | sync_is_stolen J unstolen stolen =>
        rcases Worker.frameStep_sync_is_stolen w h with ⟨-, rfl⟩ | ⟨X, d, -, rfl⟩ <;> exact .same
  | reclaim J ops => cases h; exact .same
  | reclaimed J tokens ops => cases h; exact .same
  | clone J ops => cases h; exact .run (by simp)
  | finished J next =>
    rcases Worker.frameStep_finished w h with ⟨-, rfl⟩ | rfl
    · exact .same
    · exact .wait

theorem run_moves {n : ℕ} (h : x.run w jobs n = some r) :
    Moves x.next x.marks r.1.marks r.1.next := by
  rw [Worker.run] at h
  cases hp : x.point with
  | sched =>
    simp only [hp] at h
    obtain ⟨f, J, next, rest, hstack, -, rfl⟩ := Worker.schedStep_cases w x jobs h
    rw [Worker.marks, hp, hstack]
    exact .wake
  | code c =>
    simp only [hp] at h
    rw [Worker.marks, hp]
    rcases Worker.codeStep_cases w x jobs h with ⟨v, -, hret⟩ | ⟨k, -, rfl⟩ | ⟨call, k, -, rfl⟩
    · rcases Worker.returnStep_cases w x jobs hret with ⟨J, rest, hstack, rfl⟩ |
        ⟨f, rest, call, ended, hstack, -, rfl⟩ | ⟨f, ops, rest, hstack, rfl⟩ |
        ⟨f, J, ops, rest, hstack, rfl⟩ <;> rw [hstack] <;>
        exact .ret (by simp [Item.mark, Sus.isWaiting])
    · exact .same
    · exact .enter
  | frame f pc =>
    simp only [hp] at h
    exact frameStep_moves hp h
  | opr J stage =>
    simp only [hp] at h
    cases h
    rw [Worker.marks, hp]
    cases stage with
    | tokens => exact .same
    | run => exact .run (by simp)
    | ended => exact .ended

theorem promoteStack_marks (stack : List (Item W V)) (e : Env W V) :
    (promoteStack w stack e).1.map Item.mark = stack.map Item.mark := by
  induction stack with
  | nil => rfl
  | cons it rest ih =>
    cases it with
    | opr J => exact congrArg (Mark.opr J :: ·) ih
    | frame f sus =>
      have hfid := visit_fid (w := w) sus.isOpen f (promoteStack w rest e).2
      simp only [promoteStack, List.map_cons, Item.mark, ih, hfid]

theorem heartbeat_marks : (x.heartbeat_handler w jobs).1.marks = x.marks ∧
    (x.heartbeat_handler w jobs).1.next = x.next := by
  rw [Worker.heartbeat_handler]
  by_cases hd : x.disable_heartbeats
  · rw [if_pos hd]
    exact ⟨rfl, rfl⟩
  · rw [if_neg hd, Worker.promote_front]
    cases hp : x.point with
    | frame f pc =>
      refine ⟨?_, rfl⟩
      rw [Worker.marks, Worker.marks, hp]
      refine congrArg₂ (· ++ ·) ?_ (promoteStack_marks ..)
      exact congrArg (fun n => [Mark.frame n false]) (visit_fid ..)
    | _ =>
      refine ⟨?_, rfl⟩
      rw [Worker.marks, Worker.marks, hp]
      exact congrArg₂ (· ++ ·) rfl (promoteStack_marks ..)

/-! ## Jobs -/

/-- The worker `w` changes jobs that are with no thief afterwards; those of other workers keep
their code. -/
def AtHome (w : W) (jobs jobs' : Jobs W V) : Prop :=
  ∀ J : JobId W, jobs' J = jobs J ∨
    (¬ (jobs' J).phase.Stolen ∧ (J.owner ≠ w → (jobs' J).run = (jobs J).run))

omit [DecidableEq W] [Inhabited V] in
theorem AtHome.refl (jobs : Jobs W V) : AtHome w jobs jobs := fun _ => .inl rfl

omit [DecidableEq W] [Inhabited V] in
theorem AtHome.trans {jobs jobs' jobs'' : Jobs W V} (h : AtHome w jobs jobs')
    (h' : AtHome w jobs' jobs'') : AtHome w jobs jobs'' := by
  intro J
  rcases h J with he | ⟨hph, hrun⟩ <;> rcases h' J with he' | ⟨hph', hrun'⟩
  · exact .inl (he'.trans he)
  · exact .inr ⟨hph', fun hne => (hrun' hne).trans (congrArg Job.run he)⟩
  · exact .inr ⟨he' ▸ hph, fun hne => (congrArg Job.run he').trans (hrun hne)⟩
  · exact .inr ⟨hph', fun hne => (hrun' hne).trans (hrun hne)⟩

omit [Inhabited V] in
theorem AtHome.update {X : JobId W} {j : Job W V} (hph : ¬ j.phase.Stolen)
    (hrun : X.owner ≠ w → j.run = (jobs X).run) : AtHome w jobs (Function.update jobs X j) := by
  intro J
  by_cases hJ : J = X
  · subst hJ
    rw [Function.update_self]
    exact .inr ⟨hph, hrun⟩
  · exact .inl (Function.update_of_ne hJ ..)

omit [Inhabited V] in
theorem spawnAll_atHome (fid : ℕ) (sp : List (Spawn V)) (e : Env W V) :
    AtHome w e.jobs (e.spawnAll w fid sp).jobs := by
  induction sp generalizing e with
  | nil => exact .refl _
  | cons s sp ih =>
    have hq : AtHome w e.jobs
        (e.enqueue ⟨w, fid, s.name⟩ s.run (s.with_tokens e.heartbeat_tokens)).jobs :=
      .update id fun hne => absurd rfl hne
    exact hq.trans (ih _)

theorem visit_atHome (isOpen : Bool) (f : Frame V) (e : Env W V) :
    AtHome w e.jobs (f.visit w isOpen e).2.jobs := by
  rcases visit_promoted w isOpen f e with ⟨hv, -⟩ | ⟨hv, -⟩
  · rw [hv]
    exact .refl _
  · rw [hv]
    exact spawnAll_atHome f.fid f.call.promfn.2 _

theorem promoteStack_atHome (stack : List (Item W V)) (e : Env W V) :
    AtHome w e.jobs (promoteStack w stack e).2.jobs := by
  induction stack with
  | nil => exact .refl _
  | cons it rest ih =>
    cases it with
    | opr J => exact ih
    | frame f sus => exact ih.trans (visit_atHome _ _ _)

theorem heartbeat_atHome : AtHome w jobs (x.heartbeat_handler w jobs).2 := by
  rw [Worker.heartbeat_handler]
  by_cases hd : x.disable_heartbeats
  · rw [if_pos hd]
    exact .refl _
  · rw [if_neg hd, Worker.promote_front]
    cases hp : x.point with
    | frame f pc => exact (promoteStack_atHome x.stack _).trans (visit_atHome _ _ _)
    | _ => exact promoteStack_atHome x.stack _

omit [Inhabited V] in
theorem AtHome.pop (X : JobId W) :
    AtHome w jobs (Function.update jobs X ((jobs X).move .popped)) := .update id fun _ => rfl

theorem frameStep_atHome {f : Frame V} {pc : Pc V} (h : x.frameStep w jobs f pc = some r) :
    AtHome w jobs r.2 := by
  cases pc with
  | prom before => cases h; exact spawnAll_atHome f.fid f.call.promfn.2 _
  | body =>
    rcases Worker.frameStep_body w h with ⟨c, -, rfl⟩ | ⟨call, -, rfl⟩ | ⟨-, rfl⟩ <;> exact .refl _
  | closed =>
    obtain ⟨ops, -, rfl⟩ := Option.map_eq_some_iff.mp h
    exact .refl _
  | act ops =>
    cases ops with
    | nil => cases h; exact .refl _
    | cons op ops =>
      cases op with
      | call e c => cases h; exact .refl _
      | sync J reclaim =>
        rcases Worker.frameStep_sync w h with ⟨-, rfl⟩ | ⟨X, d, -, rfl⟩
        · exact .refl _
        · exact .pop X
      | sync_is_stolen J unstolen stolen =>
        rcases Worker.frameStep_sync_is_stolen w h with ⟨-, rfl⟩ | ⟨X, d, -, rfl⟩
        · exact .refl _
        · exact .pop X
  | clone J ops => cases h; exact .update id fun _ => rfl
  | finished J next =>
    rcases Worker.frameStep_finished w h with ⟨-, rfl⟩ | rfl <;> exact .refl _
  | _ => cases h; exact .refl _

/-- A step of a worker in a job it has stolen: `run` is entered, it returns, or it is done. -/
inductive OprStep (w : W) (x : Worker W V) (jobs : Jobs W V) : Jobs W V → Prop
  | run (J : JobId W) (hp : x.point = .opr J .run) :
      OprStep w x jobs (Function.update jobs J ((jobs J).start (.running w)))
  | ret (J : JobId W) (v : V) (rest : List (Item W V)) (hp : x.point = .code (.ret v))
      (hstack : x.stack = .opr J :: rest) :
      OprStep w x jobs (Function.update jobs J ((jobs J).stop (.ran w) v))
  | ended (J : JobId W) (hp : x.point = .opr J .ended) :
      OprStep w x jobs (Function.update jobs J ((jobs J).move (.done w)))

/-- What a step of a worker does to jobs. -/
theorem run_jobs {n : ℕ} (h : x.run w jobs n = some r) :
    AtHome w jobs r.2 ∨ OprStep w x jobs r.2 := by
  rw [Worker.run] at h
  cases hp : x.point with
  | sched =>
    simp only [hp] at h
    obtain ⟨f, J, next, rest, -, -, rfl⟩ := Worker.schedStep_cases w x jobs h
    exact .inl (.refl _)
  | code c =>
    simp only [hp] at h
    rcases Worker.codeStep_cases w x jobs h with ⟨v, rfl, hret⟩ | ⟨k, -, rfl⟩ | ⟨call, k, -, rfl⟩
    · rcases Worker.returnStep_cases w x jobs hret with ⟨J, rest, hstack, rfl⟩ |
        ⟨f, rest, call, ended, -, -, rfl⟩ | ⟨f, ops, rest, -, rfl⟩ | ⟨f, J, ops, rest, -, rfl⟩
      · exact .inr (.ret J v rest hp hstack)
      · exact .inl (.refl _)
      · exact .inl (.refl _)
      · exact .inl (.update id fun _ => rfl)
    · exact .inl (.refl _)
    · exact .inl (.refl _)
  | frame f pc =>
    simp only [hp] at h
    exact .inl (frameStep_atHome h)
  | opr J stage =>
    simp only [hp] at h
    cases h
    cases stage with
    | tokens => exact .inl (.refl _)
    | run => exact .inr (.run J hp)
    | ended => exact .inr (.ended J hp)

/-! ## Thieves -/

/-- A job is given to no one. -/
def NoTheft (jobs jobs' : Jobs W V) : Prop :=
  ∀ J u, (jobs' J).phase.RunBy u → (jobs J).phase.RunBy u

omit [DecidableEq W] [Inhabited V] in
theorem AtHome.noTheft {jobs jobs' : Jobs W V} (h : AtHome w jobs jobs') : NoTheft jobs jobs' := by
  intro J u hr
  rcases h J with he | ⟨hph, -⟩
  · exact he ▸ hr
  · exact absurd hr.stolen hph

omit [Inhabited V] in
theorem NoTheft.update {X : JobId W} {j : Job W V}
    (hj : ∀ u, j.phase.RunBy u → (jobs X).phase.RunBy u) :
    NoTheft jobs (Function.update jobs X j) := by
  intro J u hr
  by_cases hJ : J = X
  · subst hJ
    rw [Function.update_self] at hr
    exact hj u hr
  · rwa [Function.update_of_ne hJ] at hr

theorem run_noTheft {n : ℕ} (hok : x.Ok w jobs) (h : x.run w jobs n = some r) :
    NoTheft jobs r.2 := by
  have hoprs := hok.oprs
  rw [Worker.oprs] at hoprs
  obtain ⟨y, jobs'⟩ := r
  rcases run_jobs h with hhome | hopr
  · exact hhome.noTheft
  · cases hopr with
    | run J hp =>
      rw [hp] at hoprs
      have hJ := (hoprs (J, .taken w) (by simp [Point.oprs])).1
      exact .update fun u hu => hJ ▸ hu
    | ret J v rest hp hstack =>
      rw [hstack] at hoprs
      have hJ := (hoprs (J, .running w) (by simp [Item.oprs])).1
      exact .update fun u hu => hJ ▸ hu
    | ended J hp => exact .update fun _ hu => hu.elim

omit [DecidableEq W] [Inhabited V] in
/-- A stolen job leaves a stack when it ends. -/
theorem Moves.mem {next next' : ℕ} {ms ms' : List (Mark W)} {J : JobId W}
    (h : Moves next ms ms' next') (hJ : .opr J ∈ ms) : .opr J ∈ ms' ∨ ms = .opr J :: ms' := by
  cases h with
  | same => exact .inl hJ
  | run => exact .inl (List.mem_cons_of_mem _ hJ)
  | ended =>
    rcases List.mem_cons.mp hJ with he | hmem
    · exact .inr (by rw [he])
    · exact .inl hmem
  | _ => exact .inl (by simpa using hJ)

/-- A worker keeps the jobs it has stolen on its stack until they are done. -/
theorem run_held {n : ℕ} (h : x.run w jobs n = some r) {J : JobId W} (hJ : .opr J ∈ x.marks) :
    .opr J ∈ r.1.marks ∨ (r.2 J).phase = .done w := by
  rcases (run_moves h).mem hJ with hmem | heq
  · exact .inl hmem
  · rw [Worker.run] at h
    rw [Worker.marks] at heq
    cases hp : x.point with
    | sched =>
      simp only [hp] at h
      obtain ⟨f, J', next, rest, hstack, -, -⟩ := Worker.schedStep_cases w x jobs h
      rw [hp, hstack] at heq
      cases heq
    | code c => rw [hp] at heq; cases heq
    | frame f pc => rw [hp] at heq; cases heq
    | opr J' stage =>
      simp only [hp] at h
      cases h
      rw [Worker.marks, hp] at hJ
      cases stage with
      | tokens => exact .inl hJ
      | run => exact .inl (List.mem_cons_of_mem _ hJ)
      | ended =>
        rw [hp] at heq
        cases heq
        refine .inr ?_
        show (Function.update jobs J ((jobs J).move (.done w)) J).phase = .done w
        rw [Function.update_self]
        rfl

end

/-! ## Waiting -/

section
variable {next next' : ℕ} {ms ms' : List (Mark W)} {rank : W → ℕ → ℕ} {w : W}

/-- Above a call that waits there is no call and no code. -/
theorem Above.of_not_opr {a a' b : Mark W} (h : Above a b) (ha : ∀ J, a ≠ .opr J) : Above a' b :=
  fun hb => (h hb).elim fun J hJ => absurd hJ (ha J)

theorem Moves.above (h : Moves next ms ms' next') (hc : ms.IsChain Above) :
    ms'.IsChain Above := by
  cases h with
  | same => exact hc
  | run hm => exact List.isChain_cons_cons.mpr ⟨fun ⟨n, hn⟩ => absurd hn (hm n), hc⟩
  | ret => exact hc.tail
  | ended => exact hc.tail
  | _ => exact hc.imp_head fun hz => hz.of_not_opr (by simp)

/-- Nothing is asked of code. -/
theorem ranked_code {b : Mark W} : Ranked rank w .code b := by
  intro _ _ _ hc
  cases hc

/-- A call may begin or cease to wait. -/
theorem Ranked.frame {n : ℕ} {waiting waiting' : Bool} {b : Mark W}
    (h : Ranked rank w (.frame n waiting) b) : Ranked rank w (.frame n waiting') b := by
  intro n' waiting'' J hc he
  cases hc
  exact h n waiting J rfl he

/-- A call is given jobs of higher rank than those that its worker has stolen by then. -/
theorem Moves.ranked (h : Moves next ms ms' next') (hr : ms.Pairwise (Ranked rank w))
    (hnew : ∀ J, .opr J ∈ ms → rank J.owner J.frame < rank w next) :
    ms'.Pairwise (Ranked rank w) := by
  cases h with
  | same => exact hr
  | run => exact List.pairwise_cons.mpr ⟨fun _ _ => ranked_code, hr⟩
  | ret => exact hr.tail
  | enter =>
    refine List.pairwise_cons.mpr ⟨fun b hb n waiting J hc he => ?_, hr.tail⟩
    cases hc
    exact hnew J (List.mem_cons_of_mem _ (he ▸ hb))
  | leave => exact List.pairwise_cons.mpr ⟨fun _ _ => ranked_code, hr.tail⟩
  | wait =>
    obtain ⟨hhead, htail⟩ := List.pairwise_cons.mp hr
    exact List.pairwise_cons.mpr ⟨fun b hb => (hhead b hb).frame, htail⟩
  | wake =>
    obtain ⟨hhead, htail⟩ := List.pairwise_cons.mp hr
    exact List.pairwise_cons.mpr ⟨fun b hb => (hhead b hb).frame, htail⟩
  | ended => exact hr.tail

end

section
variable [DecidableEq W] [Inhabited V] {w : W} {x : Worker W V} {jobs : Jobs W V}
  {s s' : State W V}

/-- What waiting workers rely on. -/
structure Live (s : State W V) : Prop where
  /-- A stolen job is on the stack of its thief. -/
  held : ∀ J u, (s.jobs J).phase.RunBy u → .opr J ∈ (s.workers u).marks
  above : ∀ v, (s.workers v).marks.IsChain Above
  ranked : ∃ rank : W → ℕ → ℕ, ∀ v, (s.workers v).marks.Pairwise (Ranked rank v)

omit [DecidableEq W] [Inhabited V] in
theorem mem_marks_frame {n : ℕ} {b : Bool} (h : .frame n b ∈ x.marks) :
    n ∈ x.frames.map fun p => p.1.fid := by
  rw [Worker.frames, List.map_append, List.mem_append]
  rcases List.mem_append.mp h with h | h
  · left
    cases hp : x.point with
    | frame f pc =>
      rw [hp] at h
      cases List.mem_singleton.mp h
      exact List.mem_singleton_self _
    | _ => simp [hp, Point.marks] at h
  · right
    obtain ⟨it, hit, hm⟩ := List.mem_map.mp h
    cases it with
    | opr J => cases hm
    | frame f sus =>
      cases hm
      have hmem : (f, sus.place) ∈ x.stack.flatMap Item.frames :=
        List.mem_flatMap.mpr ⟨.frame f sus, hit, List.mem_singleton_self _⟩
      exact List.mem_map.mpr ⟨_, hmem, rfl⟩

omit [DecidableEq W] [Inhabited V] in
theorem mem_marks_opr {J : JobId W} (h : .opr J ∈ x.marks) : ∃ ph, (J, ph) ∈ x.oprs w := by
  rcases List.mem_append.mp h with h | h
  · cases hp : x.point with
    | opr J' stage =>
      rw [hp] at h
      cases List.mem_singleton.mp h
      rw [Worker.oprs, hp]
      cases stage <;> exact ⟨_, List.mem_cons_self⟩
    | _ => simp [hp, Point.marks] at h
  · obtain ⟨it, hit, hm⟩ := List.mem_map.mp h
    cases it with
    | frame f sus => cases hm
    | opr J' =>
      cases hm
      exact ⟨.running w, List.mem_append_right _
        (List.mem_flatMap.mpr ⟨_, hit, List.mem_singleton_self _⟩)⟩

omit [DecidableEq W] [Inhabited V] in
/-- The jobs on the stacks are of frames that have been opened. -/
theorem State.Inv.frame_lt (h : s.Inv) {J : JobId W} (hJ : .opr J ∈ (s.workers w).marks) :
    J.frame < (s.workers J.owner).next := by
  obtain ⟨ph, hph⟩ := mem_marks_opr (w := w) hJ
  obtain ⟨hphase, hrun, -⟩ := (h.workers w).oprs _ hph
  by_contra hle
  have hidle : ph = .idle :=
    hphase.symm.trans ((h.workers J.owner).fresh J rfl (not_lt.mp hle))
  subst hidle
  exact hrun

omit [DecidableEq W] [Inhabited V] in
/-- Frames that are open have been opened. -/
theorem State.Inv.fid_lt (h : s.Inv) {n : ℕ} {b : Bool}
    (hn : .frame n b ∈ (s.workers w).marks) : n < (s.workers w).next :=
  (List.pairwise_cons.mp (h.workers w).fids).1 n (mem_marks_frame hn)

omit [Inhabited V] in
/-- The next call of a worker can be given a rank above those of its stolen jobs. -/
theorem Live.exists_rank (hl : Live s) (h : s.Inv) (w : W) : ∃ rank : W → ℕ → ℕ,
    (∀ v, (s.workers v).marks.Pairwise (Ranked rank v)) ∧
    ∀ J, .opr J ∈ (s.workers w).marks →
      rank J.owner J.frame < rank w (s.workers w).next := by
  obtain ⟨rank, hrank⟩ := hl.ranked
  let height : Mark W → ℕ
    | .opr J => rank J.owner J.frame
    | _ => 0
  let top := ((s.workers w).marks.map height).sum + 1
  have hold : ∀ v n, n < (s.workers v).next →
      (if v = w ∧ n = (s.workers w).next then top else rank v n) = rank v n := by
    intro v n hn
    refine if_neg ?_
    rintro ⟨rfl, rfl⟩
    exact lt_irrefl _ hn
  refine ⟨fun v n => if v = w ∧ n = (s.workers w).next then top else rank v n,
    fun v => (hrank v).imp_of_mem ?_, fun J hJ => ?_⟩
  · rintro a b ha hb hr n waiting J rfl rfl
    show ite .. < ite ..
    rw [hold _ _ (h.frame_lt hb), hold _ _ (h.fid_lt ha)]
    exact hr n waiting J rfl rfl
  · show ite .. < ite ..
    rw [hold _ _ (h.frame_lt hJ), if_pos ⟨rfl, rfl⟩]
    exact Nat.lt_succ_of_le (List.single_le_sum (fun _ _ => Nat.zero_le _) _
      (List.mem_map_of_mem (f := height) hJ))

omit [Inhabited V] in
/-- A worker moves, and keeps the jobs it has stolen until they are done. -/
theorem Live.set (hl : Live s) (h : s.Inv) {r : Worker W V × Jobs W V}
    (hmoves : Moves (s.workers w).next (s.workers w).marks r.1.marks r.1.next)
    (hno : NoTheft s.jobs r.2)
    (hheld : ∀ J, .opr J ∈ (s.workers w).marks →
      .opr J ∈ r.1.marks ∨ (r.2 J).phase = .done w) : Live (s.set w r) where
  held J u hr := by
    have hmem := hl.held J u (hno J u hr)
    by_cases hu : u = w
    · subst hu
      rw [State.set_self]
      rcases hheld J hmem with hm | hdone
      · exact hm
      · have hr : (r.2 J).phase.RunBy u := hr
        rw [hdone] at hr
        exact hr.elim
    · rw [State.set_ne w s hu]
      exact hmem
  above v := by
    by_cases hv : v = w
    · subst hv
      rw [State.set_self]
      exact hmoves.above (hl.above v)
    · rw [State.set_ne w s hv]
      exact hl.above v
  ranked := by
    obtain ⟨rank, hrank, hnew⟩ := hl.exists_rank h w
    refine ⟨rank, fun v => ?_⟩
    by_cases hv : v = w
    · subst hv
      rw [State.set_self]
      exact hmoves.ranked (hrank v) hnew
    · rw [State.set_ne w s hv]
      exact hrank v

omit [Inhabited V] in
/-- The marks of a worker that starts a job. -/
theorem start_marks {v : W} {d : List (JobId W)} {J : JobId W}
    (hl : (s.workers w).looking = true) (u : W) :
    (((s.setDeque v d).start w J).workers u).marks =
      (if u = w then [.opr J] else []) ++ (s.workers u).marks := by
  rw [State.start]
  by_cases hu : u = w
  · subst hu
    have hp := looking_iff.mp hl
    rw [State.set_self, State.setDeque_workers, if_pos rfl, Worker.marks, Worker.marks, hp]
    rfl
  · rw [State.set_ne w _ hu, State.setDeque_workers, if_neg hu]
    rfl

omit [Inhabited V] in
/-- A worker takes a job. -/
theorem Live.start (hl : Live s) {v : W} {d : List (JobId W)} {J : JobId W}
    (hlook : (s.workers w).looking = true) : Live ((s.setDeque v d).start w J) where
  held X u hr := by
    have hr : (Function.update s.jobs J ((s.jobs J).move (.taken w)) X).phase.RunBy u := hr
    rw [start_marks hlook]
    by_cases hX : X = J
    · subst hX
      rw [Function.update_self] at hr
      have hu : w = u := hr
      rw [if_pos hu.symm]
      exact List.mem_append_left _ (List.mem_singleton_self _)
    · rw [Function.update_of_ne hX] at hr
      exact List.mem_append_right _ (hl.held X u hr)
  above u := by
    rw [start_marks hlook]
    by_cases hu : u = w
    · rw [if_pos hu]
      exact (hl.above u).cons fun m _ _ => ⟨J, rfl⟩
    · rw [if_neg hu]
      exact hl.above u
  ranked := by
    obtain ⟨rank, hrank⟩ := hl.ranked
    refine ⟨rank, fun u => ?_⟩
    rw [start_marks hlook]
    by_cases hu : u = w
    · rw [if_pos hu]
      exact List.pairwise_cons.mpr ⟨fun _ _ _ _ _ hc => (nomatch hc), hrank u⟩
    · rw [if_neg hu]
      exact hrank u

/-- Every step keeps what waiting workers rely on. -/
theorem step_live (hl : Live s) (h : s.Inv) (hstep : s.Step s') : Live s' := by
  obtain ⟨l, hstep⟩ := hstep
  rcases State.step_cases hstep with ⟨w, n, r, hr, rfl⟩ | ⟨w, rfl⟩ | ⟨w, v, d, J, hlook, rfl, -⟩
  · exact hl.set h (run_moves hr) (run_noTheft (h.workers w) hr) fun J hJ => run_held hr hJ
  · obtain ⟨hmarks, hnext⟩ := @heartbeat_marks W V _ _ w (s.workers w) s.jobs
    refine hl.set h ?_ heartbeat_atHome.noTheft fun J hJ => .inl (hmarks.symm ▸ hJ)
    rw [hmarks, hnext]
    exact .same
  · exact hl.start hlook

theorem reachable_live (hs : s.Reachable) : Live s := by
  suffices h : s.Inv ∧ Live s from h.2
  refine hs.induction (P := fun s => s.Inv ∧ Live s) (fun main => ⟨reachable_inv ⟨main, .refl⟩, ?_⟩)
    fun s s' h hstep => ⟨step_inv h.1 hstep, step_live h.2 h.1 hstep⟩
  have hmarks : ∀ v, ((State.init main : State W V).workers v).marks = [] ∨
      ((State.init main : State W V).workers v).marks = [.code] := by
    intro v
    show Worker.marks ⟨(main v).elim .sched .code, [], [], 0, false, 0, 0, 0⟩ = [] ∨
      Worker.marks ⟨(main v).elim .sched .code, [], [], 0, false, 0, 0, 0⟩ = [.code]
    cases main v with
    | none => exact .inl rfl
    | some c => exact .inr rfl
  refine ⟨fun J u hr => hr.elim, fun v => ?_, ⟨fun _ _ => 0, fun v => ?_⟩⟩
  · rcases hmarks v with he | he <;> rw [he]
    · exact .nil
    · exact .singleton _
  · rcases hmarks v with he | he <;> rw [he]
    · exact .nil
    · exact List.pairwise_singleton _ _

end

/-! ## Progress -/

/-- Nothing is left to do for a worker: it looks for a job, or its program has returned. -/
structure Worker.Quiet (x : Worker W V) : Prop where
  stack : x.stack = []
  deque : x.deque = []
  point : x.point = .sched ∨ ∃ v, x.point = .code (.ret v)

/-- Nothing is left to do. -/
def State.Quiet (s : State W V) : Prop := ∀ w, (s.workers w).Quiet

/-- The exact loop can always go on. -/
theorem loop_isSome (c : Parfor.Loop) : (c.step .exact).isSome := by
  rw [Parfor.Loop.step]
  cases c.pc <;> rfl

theorem resume_isSome (v : V) (call : Call V) : (call.resume v).isSome := by
  cases call with
  | par => rfl
  | spork => rfl
  | parfor factor j body binop c lr => exact Option.isSome_map.trans (loop_isSome c)
  | scan n body first up rest c => exact Option.isSome_map.trans (loop_isSome c)

theorem loopNext_isSome (body : ℤ → Code V) (wrap : Parfor.Loop → Call V) (c : Parfor.Loop) :
    (loopNext body wrap c).isSome := by
  rw [loopNext]
  cases c.pc with
  | body => rfl
  | done => rfl
  | _ => exact Option.isSome_map.trans (loop_isSome c)

theorem next_isSome (call : Call V) : call.next.isSome := by
  cases call with
  | par => rfl
  | spork => rfl
  | parfor factor j body binop c lr => exact loopNext_isSome ..
  | scan n body first up rest c => exact loopNext_isSome ..

section
variable [DecidableEq W] [Inhabited V] {w : W} {x : Worker W V} {jobs : Jobs W V}

/-- A call can go on, unless it is to come back for a job it has not enqueued. -/
theorem frameStep_isSome {f : Frame V} {pc : Pc V} (h : FrameOk w jobs f pc.place) :
    (x.frameStep w jobs f pc).isSome := by
  cases pc with
  | body =>
    obtain ⟨nx, hnx⟩ := Option.isSome_iff_exists.mp (next_isSome f.call)
    rw [Worker.frameStep]
    cases nx <;> simp only [hnx] <;> rfl
  | closed =>
    obtain ⟨ops, hops, -⟩ := h.place.1.after h.place.2
    rw [Worker.frameStep, hops]
    rfl
  | act ops =>
    cases ops with
    | nil => rfl
    | cons op ops =>
      cases op with
      | call e c => rfl
      | sync J reclaim =>
        rw [Worker.frameStep]
        rcases x.try_dequeue_cases jobs with ⟨-, htry⟩ | ⟨X, d, -, htry⟩ <;>
          simp only [htry] <;> rfl
      | sync_is_stolen J unstolen stolen =>
        rw [Worker.frameStep]
        rcases x.try_dequeue_cases jobs with ⟨-, htry⟩ | ⟨X, d, -, htry⟩ <;>
          simp only [htry] <;> rfl
  | finished J next =>
    rw [Worker.frameStep]
    by_cases hf : (jobs (f.job w J)).finished = true
    · rw [if_pos hf]
      rfl
    · rw [if_neg hf]
      rfl
  | _ => rfl

/-- A worker can go on, unless its program has returned or it looks for a job. -/
theorem run_isSome (hok : x.Ok w jobs) (habove : x.marks.IsChain Above) :
    (x.run w jobs 0).isSome ∨ (x.stack = [] ∧ ∃ v, x.point = .code (.ret v)) ∨
      x.point = .sched := by
  have hframes := hok.frames
  rw [Worker.frames] at hframes
  rw [Worker.marks] at habove
  rw [Worker.run]
  cases hp : x.point with
  | sched => exact .inr (.inr rfl)
  | opr J stage => exact .inl rfl
  | frame f pc =>
    rw [hp] at hframes
    exact .inl (frameStep_isSome (hframes _ List.mem_cons_self))
  | code c =>
    rw [hp] at habove
    cases c with
    | ret v =>
      cases hstack : x.stack with
      | nil => exact .inr (.inl ⟨rfl, v, rfl⟩)
      | cons it rest =>
        left
        show (x.returnStep w jobs v).isSome
        rw [Worker.returnStep]
        rw [hstack] at habove ⊢
        cases it with
        | opr J => rfl
        | frame f sus =>
          cases sus with
          | inBody => exact Option.isSome_map.trans (resume_isSome v f.call)
          | inCall ops => rfl
          | inClone J ops => rfl
          | waiting J next =>
            obtain ⟨J', hJ'⟩ := (List.isChain_cons_cons.mp habove).1 ⟨f.fid, rfl⟩
            cases hJ'
    | _ => exact .inl rfl

variable {s : State W V}

/-- The rank of the jobs of the call that waits on top of a stack. -/
def height (rank : W → ℕ → ℕ) (w : W) : List (Mark W) → ℕ
  | .frame n true :: _ => rank w n + 1
  | _ => 0

omit [DecidableEq W] [Inhabited V] in
/-- What a worker looks for a job above waits for a stolen one. -/
theorem looking_cons {it : Item W V} {rest : List (Item W V)} (h : Looking (it :: rest)) :
    ∃ f J next, it = .frame f (.waiting J next) := by
  cases it with
  | opr J => exact h.elim
  | frame f sus =>
    cases sus with
    | waiting J next => exact ⟨f, J, next, rfl⟩
    | _ => exact h.elim

/-- A worker that cannot go on has nothing left to do, or waits for a job on another stack. -/
theorem stuck_cases (h : s.Inv) (hl : Live s) (hstuck : (s.workers w).run w s.jobs 0 = none) :
    ((s.workers w).stack = [] ∧ ∀ J, .opr J ∉ (s.workers w).marks) ∨
    ∃ n ms J v, (s.workers w).marks = .frame n true :: ms ∧ J.owner = w ∧ J.frame = n ∧
      .opr J ∈ (s.workers v).marks := by
  rcases run_isSome (h.workers w) (hl.above w) with hw | ⟨hnil, v, hp⟩ | hp
  · rw [hstuck] at hw
    cases hw
  · refine .inl ⟨hnil, fun J hJ => ?_⟩
    rw [Worker.marks, hp, hnil] at hJ
    simp [Point.marks] at hJ
  · have hlook := (h.slots w).point
    have hframes := (h.workers w).frames
    rw [Worker.PointOk] at hlook
    rw [Worker.frames] at hframes
    rw [Worker.run] at hstuck
    rw [Worker.marks]
    rw [hp] at hlook hframes hstuck ⊢
    cases hstack : (s.workers w).stack with
    | nil => exact .inl ⟨rfl, fun J hJ => by cases hJ⟩
    | cons it rest =>
      right
      rw [hstack] at hlook hframes
      obtain ⟨f, J, next, rfl⟩ := looking_cons hlook
      have hst : (s.jobs (f.job w J)).phase.Stolen :=
        (hframes (f, .waits J next) List.mem_cons_self).place.2.2
      have hundone : ¬ (s.jobs (f.job w J)).finished = true := by
        intro hdone
        simp only [Worker.schedStep, hstack, if_pos hdone, reduceCtorEq] at hstuck
      have hrun : ∃ v, (s.jobs (f.job w J)).phase.RunBy v := by
        rw [Job.finished] at hundone
        cases hph : (s.jobs (f.job w J)).phase <;> rw [hph] at hst hundone
        case taken v => exact ⟨v, rfl⟩
        case running v => exact ⟨v, rfl⟩
        case ran v => exact ⟨v, rfl⟩
        case done v => exact absurd rfl hundone
        all_goals exact hst.elim
      obtain ⟨v, hv⟩ := hrun
      exact ⟨f.fid, _, f.job w J, v, rfl, rfl, rfl, hl.held _ v hv⟩

/-- If no worker can go on, none waits: the one that waits for the newest job would wait for
one whose thief waits for a newer. -/
theorem stack_eq_nil_of_stuck [Finite W] (h : s.Inv) (hl : Live s)
    (hstuck : ∀ w, (s.workers w).run w s.jobs 0 = none) (w : W) :
    (s.workers w).stack = [] := by
  obtain ⟨rank, hrank⟩ := hl.ranked
  have : Nonempty W := ⟨w⟩
  obtain ⟨u, hmax⟩ := Finite.exists_max fun v => height rank v (s.workers v).marks
  rcases stuck_cases h hl (hstuck w) with ⟨hnil, -⟩ | ⟨n, ms, -, -, hw, -⟩
  · exact hnil
  exfalso
  have hpos : 0 < height rank u (s.workers u).marks := by
    refine lt_of_lt_of_le ?_ (hmax w)
    rw [hw]
    exact Nat.succ_pos _
  rcases stuck_cases h hl (hstuck u) with ⟨hnil, -⟩ | ⟨n', ms', J, v, hu, rfl, rfl, hJ⟩
  · rw [Worker.marks, hnil] at hpos
    cases hp : (s.workers u).point <;> rw [hp] at hpos <;> exact lt_irrefl 0 hpos
  · rcases stuck_cases h hl (hstuck v) with ⟨-, hno⟩ | ⟨n'', ms'', -, -, hv, -⟩
    · exact hno J hJ
    · have hle := hmax v
      rw [hv] at hJ
      have hlt : rank J.owner J.frame < rank v n'' := by
        have hpair := hrank v
        rw [hv] at hpair
        refine (List.pairwise_cons.mp hpair).1 (.opr J) ?_ n'' true J rfl rfl
        exact (List.mem_cons.mp hJ).resolve_left (by simp)
      simp only [hu, hv, height] at hle
      omega

/-- If no worker can go on, nothing is left to do. -/
theorem quiet_of_stuck [Finite W] (hs : s.Reachable)
    (hstuck : ∀ w, (s.workers w).run w s.jobs 0 = none) : s.Quiet := by
  have h := reachable_inv hs
  have hl := reachable_live hs
  intro w
  have hnil := stack_eq_nil_of_stuck h hl hstuck w
  have hpoint : (s.workers w).point = .sched ∨ ∃ v, (s.workers w).point = .code (.ret v) := by
    rcases run_isSome (h.workers w) (hl.above w) with hw | ⟨-, hv⟩ | hp
    · rw [hstuck w] at hw
      cases hw
    · exact .inr hv
    · exact .inl hp
  have hframes : (s.workers w).frames = [] := by
    rw [Worker.frames, hnil]
    rcases hpoint with hp | ⟨v, hp⟩ <;> rw [hp] <;> rfl
  refine ⟨hnil, ?_, hpoint⟩
  have hok := (h.workers w).matched
  rw [hframes] at hok
  exact hok.eq_nil

/-- **No deadlock.** In every reachable state some worker can take a step by itself, without
a heartbeat and without stealing anything, unless all is done: every stack and every deque is
empty, and each worker has run its program to the end or looks for a job. -/
theorem no_deadlock [Finite W] (hs : s.Reachable) :
    (∃ w s', s.step (.run w 0) = some s') ∨ s.Quiet := by
  by_cases hrun : ∃ w, ((s.workers w).run w s.jobs 0).isSome
  · obtain ⟨w, hw⟩ := hrun
    obtain ⟨r, hr⟩ := Option.isSome_iff_exists.mp hw
    exact .inl ⟨w, s.set w r, by rw [State.step, hr]; rfl⟩
  · refine .inr (quiet_of_stuck hs fun w => ?_)
    simpa using mt (fun hw => ⟨w, hw⟩) hrun

end

/-- The outer job of `parRun` is stolen, and its owner comes to wait for it. -/
def waitRun : List (Label Bool) := parRun ++ .steal true false :: List.replicate 9 (.run false 0)

/-- The state after `waitRun`. -/
def waitState : State Bool ℕ := (State.exec waitRun (State.init parMain)).get (by rfl)

theorem reachable_waitState : waitState.Reachable := State.reachable_exec parMain waitRun rfl

theorem no_deadlock_waiting : (waitState.workers false).run false waitState.jobs 0 = none ∧
    ((∃ w s', waitState.step (.run w 0) = some s') ∨ waitState.Quiet) :=
  ⟨rfl, no_deadlock reachable_waitState⟩

end Spork.Scheduler
