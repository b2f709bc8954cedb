import Spork.Scheduler.Invariant

/-!
# Fork-join

When a call returns, it has run each of its branches as often as it should, and none of the
job objects on its frame is left in a deque or being run. As the frame is gone for good, no
later step touches these jobs.

## Main definitions

* `Worker.Runs` — the jobs a worker is running.
* `Retired` — the jobs of calls that have nothing left but to return, or have returned.
* `ParRan`, `SporkRan` — what `par` and `spork` run.
* `fork_join` — a call that returns.
-/
namespace Spork.Scheduler

open WorkStealing

variable {W V : Type} {w : W} {f : Frame V}

/-- The worker runs the job `J`, as a job it has stolen or in `fast_clone`. -/
def Worker.Runs (w : W) (x : Worker W V) (J : JobId W) : Prop :=
  (∃ ph, (J, ph) ∈ x.oprs w) ∨
    ∃ f nm ph ops, (f, .clones nm ph ops) ∈ x.frames ∧ f.job w nm = J

/-- The frame of the job `J` has been opened, and nothing is left of its call but to return. -/
def Retired (s : State W V) (J : JobId W) : Prop :=
  J.frame < (s.workers J.owner).next ∧ ¬ Busy J.owner (s.workers J.owner).frames J

/-! ## Retired jobs -/

/-- The jobs of the newest call, when it returns. -/
theorem Holds.retired {fs : List (Frame V × Place W V)} {js : List (JobId W × Phase W)}
    {deque : List (JobId W)} {next : ℕ} {jobs : Jobs W V}
    (h : Holds w ((f, .rest []) :: fs) js deque next jobs) (nm : JobName) :
    (f.job w nm).frame < next ∧ ¬ Busy w ((f, .rest []) :: fs) (f.job w nm) := by
  obtain ⟨hnext, hfids⟩ := List.pairwise_cons.mp h.fids
  refine ⟨hnext _ List.mem_cons_self, ?_⟩
  rintro ⟨-, q, hq, hfid, hne⟩
  rcases List.mem_cons.mp hq with rfl | hq
  · exact hne rfl
  · obtain ⟨p, hp, rfl⟩ := List.mem_map.mp hq
    have hlt : f.fid > p.1.fid := List.rel_of_pairwise_cons hfids (List.mem_map_of_mem hp)
    exact absurd hfid (Nat.ne_of_lt hlt)

section
variable {s s' : State W V} {J : JobId W} {r : Worker W V × Jobs W V}

namespace Retired

theorem not_live (hr : Retired s J) (h : s.Inv) : ¬ (s.jobs J).phase.Live := by
  intro hl
  have hok : Holds J.owner _ _ _ _ s.jobs := h.workers J.owner
  exact hr.2 (hok.busy (hok.live J rfl hl))

theorem not_mem (hr : Retired s J) (h : s.Inv) (w : W) : J ∉ (s.workers w).deque := by
  intro hJ
  have hok : Holds w _ _ _ _ s.jobs := h.workers w
  have hq : (s.jobs J).phase = .queued := hok.matched.queued J hJ
  apply hr.not_live h
  rw [hq]
  trivial

theorem not_runs (hr : Retired s J) (h : s.Inv) (w : W) : ¬ (s.workers w).Runs w J := by
  have hok : Holds w _ _ _ _ s.jobs := h.workers w
  rintro (⟨ph, hJ⟩ | ⟨f, nm, ph, ops, hf, rfl⟩)
  · obtain ⟨hph, hrun, -⟩ := hok.oprs (J, ph) hJ
    apply hr.not_live h
    rw [hph]
    exact hrun.live
  · refine hr.2 ⟨rfl, (f.fid, .clones nm ph ops), ?_, rfl, by simp⟩
    exact List.mem_map.mpr ⟨_, hf, rfl⟩

variable [DecidableEq W]

/-- Steps of a worker. -/
theorem set (hr : Retired s J) (h : s.Inv) (hk : Kept w (s.workers w) s.jobs r) :
    Retired (s.set w r) J ∧ (s.set w r).jobs J = s.jobs J := by
  constructor
  · rw [Retired]
    by_cases hw : J.owner = w
    · subst hw
      rw [State.set_self]
      exact ⟨hr.1.trans_le hk.next, fun hb => hr.2 (hk.busy J hr.1 hb)⟩
    · rw [State.set_ne w s hw]
      exact hr
  · rcases hk.others J with he | ⟨hb, -⟩ | ⟨hrun, -, -⟩
    · exact he
    · obtain rfl : J.owner = w := hb.1
      exact absurd hb hr.2
    · exact absurd hrun.live (hr.not_live h)

/-- The start of a job. -/
theorem start {v : W} {d : List (JobId W)} {J' : JobId W} (hr : Retired s J) (h : s.Inv)
    (hl : (s.workers w).looking = true) (hq : (s.jobs J').phase = .queued) :
    Retired ((s.setDeque v d).start w J') J ∧
      ((s.setDeque v d).start w J').jobs J = s.jobs J := by
  have hframes : ∀ u, (((s.setDeque v d).start w J').workers u).frames = (s.workers u).frames ∧
      (((s.setDeque v d).start w J').workers u).next = (s.workers u).next := by
    intro u
    by_cases hu : u = w
    · subst hu
      rw [State.start, State.set_self, State.setDeque_workers]
      unfold Worker.frames
      rw [looking_iff.mp hl]
      exact ⟨rfl, rfl⟩
    · rw [State.start, State.set_ne w _ hu, State.setDeque_workers]
      exact ⟨rfl, rfl⟩
  constructor
  · rw [Retired]
    rw [(hframes J.owner).1, (hframes J.owner).2]
    exact hr
  · apply Function.update_of_ne
    rintro rfl
    apply hr.not_live h
    rw [hq]
    trivial

variable [Inhabited V]

theorem step (hr : Retired s J) (h : s.Inv) (hstep : s.Step s') :
    Retired s' J ∧ s'.jobs J = s.jobs J := by
  obtain ⟨l, hl⟩ := hstep
  rcases State.step_cases hl with ⟨w, n, r, hrun, rfl⟩ | ⟨w, rfl⟩ | ⟨w, v, d, J', hlook, rfl, hd⟩
  · exact hr.set h (run_kept (h.slots w) (h.workers w) hrun)
  · exact hr.set h (heartbeat_kept (h.slots w) (h.workers w))
  · have hok : Holds v _ _ _ _ s.jobs := h.workers v
    refine hr.start h hlook (hok.matched.queued J' ?_)
    rcases hd with ⟨-, hd⟩ | hd
    · rw [hd]
      exact List.mem_cons_self
    · rw [hd]
      exact List.mem_append_right _ (List.mem_singleton_self J')

/-- A retired job stays as it is. -/
theorem steps (hr : Retired s J) (h : s.Inv) (hrun : Relation.ReflTransGen State.Step s s') :
    s'.Inv ∧ Retired s' J ∧ s'.jobs J = s.jobs J := by
  induction hrun with
  | refl => exact ⟨h, hr, rfl⟩
  | tail _ hstep ih =>
    obtain ⟨hinv, hret, hjob⟩ := ih
    obtain ⟨hret', hjob'⟩ := hret.step hinv hstep
    exact ⟨step_inv hinv hstep, hret', hjob'.trans hjob⟩

end Retired
end

/-! ## What a call has run -/

/-- `par` has run `lamL` once, and `lamR` once: inline if it has not been promoted, and else as
the job `j`, by `fast_clone` or on a thief. -/
def ParRan (lamR : Code V) (promoted : Bool) (h : List (Entry V)) (j : Job W V) : Prop :=
  (promoted = false ∧ (∃ v, h = [.body, .returned v, .lamR]) ∧ j.started = 0) ∨
  (promoted = true ∧ (∃ v, h = [.body, .returned v]) ∧ j.run = lamR ∧ j.started = 1 ∧
    (j.phase = .cloned ∨ ∃ u, j.phase = .done u))

/-- `spork` has run its body once, and what it returned is passed to one of `unpr`, `unst` and
`prom`. The job `j` has been run if it was stolen, and then its result is passed on, too. -/
def SporkRan (spwn : Code V) (br : V) (promoted : Bool) (h : List (Entry V)) (j : Job W V) : Prop :=
  (promoted = false ∧ h = [.body, .returned br, .unpr br] ∧ j.started = 0) ∨
  (promoted = true ∧ h = [.body, .returned br, .unst br] ∧ j.started = 0) ∨
  (promoted = true ∧ h = [.body, .returned br, .prom br j.sr] ∧ j.run = spwn ∧ j.started = 1 ∧
    j.results = [j.sr])

/-- What a call has run when it returns. -/
def Call.Ran (promoted : Bool) (h : List (Entry V)) (j : Job W V) : Call V → Prop
  | .par _ lamR => ParRan lamR promoted h j
  | .spork _ spwn _ _ _ br => SporkRan spwn br promoted h j
  | _ => True

theorem Job.Ok.idle {j : Job W V} (h : j.Ok) (hj : j.phase = .idle) : j.started = 0 := by
  rw [Job.Ok] at h
  rw [hj] at h
  exact h.1

theorem Job.Ok.popped {j : Job W V} (h : j.Ok) (hj : j.phase = .popped) : j.started = 0 := by
  rw [Job.Ok] at h
  rw [hj] at h
  exact h.1

theorem Job.Ok.joined {j : Job W V} (h : j.Ok) (hj : j.phase.Joined) :
    j.started = 1 ∧ j.results = [j.sr] := by
  rw [Job.Ok] at h
  cases hph : j.phase <;> rw [hph] at hj h <;> first | exact h | exact hj.elim

/-- No job is ever run twice. -/
theorem Job.Ok.started_le {j : Job W V} (h : j.Ok) : j.started ≤ 1 := by
  rw [Job.Ok] at h
  cases hph : j.phase <;> rw [hph] at h <;> exact h.1.le.trans (by decide)

theorem Phase.joined_iff {ph : Phase W} : ph.Joined ↔ ph = .cloned ∨ ∃ u, ph = .done u := by
  cases ph <;> simp [Phase.Joined]

/-- The frame of a call that returns tells what the call has run. -/
theorem FrameOk.ran {jobs : Jobs W V} (h : FrameOk w jobs f (.rest []))
    (hj : (jobs (f.job w .jp)).Ok) :
    f.call.Ran f.promoted f.history (jobs (f.job w .jp)) := by
  have hhist := h.hist
  have hspwn := fun hp => h.spwn hp (by simp)
  have hidle := fun hp => hj.idle (h.idle (.inl hp) .jp)
  cases hcall : f.call with
  | par lamL lamR =>
    rw [hcall] at hhist hspwn
    obtain ⟨v, ⟨hp, hh, ho⟩ | ⟨hp, hh, ho⟩ | ⟨hp, hh, ho⟩ | ⟨hp, hh, ho, hjoin⟩⟩ := hhist
    · cases ho
    · exact .inl ⟨hp, ⟨v, hh⟩, hidle hp⟩
    · cases ho
    · exact .inr ⟨hp, ⟨v, hh⟩, hspwn hp lamR rfl, (hj.joined hjoin).1, Phase.joined_iff.mp hjoin⟩
  | spork body spwn unpr unst prom br =>
    rw [hcall] at hhist hspwn
    rcases hhist with ⟨hp, hh, ho⟩ | ⟨hp, hh, ho⟩ | ⟨hp, hh, ho⟩ | ⟨hp, hh, ho, hph⟩ |
      ⟨hp, hh, ho, hph⟩ | ⟨hp, hh, ho, hph⟩ | ⟨hp, hh, ho, hph⟩
    · cases ho
    · exact .inl ⟨hp, hh, hidle hp⟩
    · cases ho
    · cases ho
    · exact .inr (.inl ⟨hp, hh, hj.popped hph⟩)
    · cases ho
    · have hrun := hj.joined (Job.finished.joined hph)
      exact .inr (.inr ⟨hp, hh, hspwn hp spwn rfl, hrun.1, hrun.2⟩)
  | _ => trivial

/-- In every reachable state no job has been run twice. When a call returns it has run its
branches, and from then on the job objects on its frame stay as they are: they are in no
worker's deque, and no worker runs them. -/
theorem fork_join [DecidableEq W] [Inhabited V] {s : State W V} (hs : s.Reachable)
    (hp : (s.workers w).point = .frame f (.act [])) :
    (∀ J, (s.jobs J).started ≤ 1) ∧
    f.call.Ran f.promoted f.history (s.jobs (f.job w .jp)) ∧
    ∀ nm s', Relation.ReflTransGen State.Step s s' →
      s'.jobs (f.job w nm) = s.jobs (f.job w nm) ∧
      ∀ v, f.job w nm ∉ (s'.workers v).deque ∧ ¬ (s'.workers v).Runs v (f.job w nm) := by
  have hinv := reachable_inv hs
  have hok : Holds w (s.workers w).frames _ _ _ s.jobs := hinv.workers w
  have hx : (s.workers w).frames = (f, .rest []) :: (s.workers w).stack.flatMap Item.frames := by
    rw [Worker.frames, hp]
    rfl
  rw [hx] at hok
  have hf : FrameOk w s.jobs f (.rest []) := hok.frames _ List.mem_cons_self
  refine ⟨fun J => (hinv.jobs J).started_le, hf.ran (hinv.jobs _), fun nm s' hrun => ?_⟩
  have hret : Retired s (f.job w nm) := by
    obtain ⟨hlt, hb⟩ := hok.retired nm
    exact ⟨hlt, fun h => hb (hx ▸ h)⟩
  obtain ⟨hinv', hret', hjob⟩ := hret.steps hinv hrun
  exact ⟨hjob, fun v => ⟨hret'.not_mem hinv' v, hret'.not_runs hinv' v⟩⟩

/-- A call of `spork`, on the first of two workers. -/
def sporkMain : Bool → Option (Code ℕ)
  | false => some (.spork (.ret 1) (.ret 2) .ret .ret (fun br sr => .ret (br + sr)) .ret)
  | true => none

/-- A heartbeat in the body, and the second worker steals `spwn`. -/
def sporkRun : List (Label Bool) :=
  [.run false 0, .run false 0, .run false 0, .run false 0, .heartbeat false,
   .steal true false, .run false 0, .run false 0, .run false 0, .run false 0, .run false 0,
   .run true 0, .run true 0, .run true 0, .run true 0, .run false 0, .run false 0, .run false 0]

/-- The state after `sporkRun`. -/
def sporkState : State Bool ℕ := (State.exec sporkRun (State.init sporkMain)).get (by rfl)

theorem fork_join_spork : ∃ f : Frame ℕ, (sporkState.workers false).point = .frame f (.act []) ∧
    f.history = [.body, .returned 1, .prom 1 2] ∧
    f.call.Ran f.promoted f.history (sporkState.jobs (f.job false .jp)) ∧
    ¬ (sporkState.workers true).Runs true (f.job false .jp) := by
  obtain ⟨f, hp, hh⟩ : ∃ f : Frame ℕ, (sporkState.workers false).point = .frame f (.act []) ∧
    f.history = [.body, .returned 1, .prom 1 2] := ⟨_, rfl, rfl⟩
  have hreach : sporkState.Reachable := State.reachable_exec sporkMain sporkRun rfl
  obtain ⟨-, hran, hafter⟩ := fork_join hreach hp
  exact ⟨f, hp, hh, hran, ((hafter .jp sporkState .refl).2 true).2⟩

end Spork.Scheduler
