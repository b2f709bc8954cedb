import Spork.Scheduler.Frames
import Spork.Scheduler.Slots

/-!
# The deque of a worker

A worker comes back for its jobs in the opposite order of their enqueueing, so its deque
always holds the newest of the jobs it has left to come back for. This is stated of the
frames of a worker with their places, the stolen jobs it runs, its deque and the jobs.

## Main definitions

* `Worker.frames`, `Worker.oprs`, `owed` — what a worker has to do with jobs.
* `Holds` — the invariant of a worker, and `Others` what it leaves to the other workers.
* `Job.Ok` — how often a job has been run, by its phase.
* `Holds.head`, `Holds.pop`, `Holds.join`, `Holds.prom`, … — the transitions.
-/
namespace Spork.Scheduler

open WorkStealing

variable {W V : Type}

/-! ## The invariant -/

/-- The frame of an item. -/
def Item.frames : Item W V → List (Frame V × Place W V)
  | .frame f sus => [(f, sus.place)]
  | .opr _ => []

/-- The frame a worker is in. -/
def Point.frames : Point W V → List (Frame V × Place W V)
  | .frame f pc => [(f, pc.place)]
  | _ => []

/-- The frames of a worker, newest first. -/
def Worker.frames (x : Worker W V) : List (Frame V × Place W V) :=
  x.point.frames ++ x.stack.flatMap Item.frames

/-- The stolen job of an item. -/
def Item.oprs (w : W) : Item W V → List (JobId W × Phase W)
  | .frame _ _ => []
  | .opr J => [(J, .running w)]

/-- The stolen job a worker starts or ends. -/
def Point.oprs (w : W) : Point W V → List (JobId W × Phase W)
  | .opr J .tokens => [(J, .taken w)]
  | .opr J .run => [(J, .taken w)]
  | .opr J .ended => [(J, .ran w)]
  | _ => []

/-- The stolen jobs that a worker runs, with their phases. -/
def Worker.oprs (w : W) (x : Worker W V) : List (JobId W × Phase W) :=
  x.point.oprs w ++ x.stack.flatMap (Item.oprs w)

/-- The jobs that the calls have enqueued and not come back for, newest first. -/
def owed (w : W) (fs : List (Frame V × Place W V)) : List (JobId W) :=
  fs.flatMap fun p => p.1.pend.map (p.1.job w)

/-- The invariant of a worker. -/
structure Holds (w : W) (fs : List (Frame V × Place W V)) (js : List (JobId W × Phase W))
    (deque : List (JobId W)) (next : ℕ) (jobs : Jobs W V) : Prop where
  matched : Matched (fun J => (jobs J).phase = .queued) (fun J => (jobs J).phase.Stolen)
    (owed w fs) deque
  fids : (next :: fs.map fun p => p.1.fid).Pairwise (· > ·)
  fresh : ∀ J : JobId W, J.owner = w → next ≤ J.frame → (jobs J).phase = .idle
  live : ∀ J : JobId W, J.owner = w → (jobs J).phase.Live → J ∈ owed w fs
  frames : ∀ p ∈ fs, FrameOk w jobs p.1 p.2
  oprs : ∀ p ∈ js, (jobs p.1).phase = p.2 ∧ p.2.RunBy w ∧ p.1.owner ≠ w
  nodup : (js.map Prod.fst).Nodup

/-- A job of a call that has more to do than to return. -/
def Busy (w : W) (fs : List (Frame V × Place W V)) (J : JobId W) : Prop :=
  J.owner = w ∧ ∃ q ∈ fs.map (fun p => (p.1.fid, p.2)), q.1 = J.frame ∧ q.2 ≠ .rest []

/-- What a worker does to jobs: it changes those of its calls, and those it has stolen. -/
def Others (w : W) (fs : List (Frame V × Place W V)) (jobs jobs' : Jobs W V) : Prop :=
  ∀ J : JobId W, jobs' J = jobs J ∨ (Busy w fs J ∧ ∀ v, ¬ (jobs J).phase.RunBy v) ∨
    ((jobs J).phase.RunBy w ∧ (jobs' J).phase.Stolen ∧ (jobs' J).run = (jobs J).run)

/-- What a promotion does to jobs: it changes those of the calls. -/
def OwnOnly (w : W) (fs : List (Frame V × Place W V)) (jobs jobs' : Jobs W V) : Prop :=
  ∀ J : JobId W, jobs' J = jobs J ∨ (Busy w fs J ∧ ∀ v, ¬ (jobs J).phase.RunBy v)

/-- How often a job has been run, and with what results. -/
def Job.Ok (j : Job W V) : Prop :=
  match j.phase with
  | .idle | .queued | .popped | .taken _ => j.started = 0 ∧ j.results = []
  | .cloning | .running _ => j.started = 1 ∧ j.results = []
  | .cloned | .ran _ | .done _ => j.started = 1 ∧ j.results = [j.sr]

variable {w : W} {fs : List (Frame V × Place W V)} {js : List (JobId W × Phase W)}
  {deque deque' : List (JobId W)} {next : ℕ} {jobs jobs' : Jobs W V} {f f' : Frame V}
  {p p' : Place W V}

@[simp] theorem owed_nil : owed w ([] : List (Frame V × Place W V)) = [] := rfl

@[simp] theorem owed_cons : owed w ((f, p) :: fs) = f.pend.map (f.job w) ++ owed w fs := rfl

@[simp] theorem owed_append (fs' : List (Frame V × Place W V)) :
    owed w (fs ++ fs') = owed w fs ++ owed w fs' := List.flatMap_append

/-- A job that is owed belongs to a frame that has not come back for it. -/
theorem mem_owed {J : JobId W} (h : J ∈ owed w fs) :
    J.owner = w ∧ ∃ p ∈ fs, p.1.fid = J.frame ∧ J.name ∈ p.1.pend := by
  obtain ⟨p, hp, hJ⟩ := List.mem_flatMap.mp h
  obtain ⟨nm, hnm, rfl⟩ := List.mem_map.mp hJ
  exact ⟨rfl, p, hp, rfl, hnm⟩

theorem owed_eq_nil (h : ∀ p ∈ fs, p.1.pend = []) : owed w fs = [] := by
  apply List.flatMap_eq_nil_iff.mpr
  intro p hp
  rw [h p hp]
  rfl

/-- Nothing has been enqueued yet. -/
theorem Holds.init [Inhabited V] (w : W) :
    Holds w ([] : List (Frame V × Place W V)) [] [] 0 fun _ => Job.new where
  matched := Matched.nil
  fids := List.pairwise_singleton ..
  fresh _ _ _ := rfl
  live _ _ hl := hl.elim
  frames := List.forall_mem_nil _
  oprs := List.forall_mem_nil _
  nodup := List.nodup_nil

/-! ## Steps of other workers -/

theorem Others.refl (jobs : Jobs W V) : Others w fs jobs jobs := fun _ => .inl rfl

theorem OwnOnly.refl (jobs : Jobs W V) : OwnOnly w fs jobs jobs := fun _ => .inl rfl

theorem OwnOnly.others (h : OwnOnly w fs jobs jobs') : Others w fs jobs jobs' := fun J =>
  (h J).imp_right .inl

theorem OwnOnly.trans {fs' : List (Frame V × Place W V)} {jobs'' : Jobs W V}
    (h : OwnOnly w fs jobs jobs') (h' : OwnOnly w fs' jobs' jobs'')
    (hfs : fs'.map (fun p => (p.1.fid, p.2)) = fs.map fun p => (p.1.fid, p.2)) :
    OwnOnly w fs jobs jobs'' := by
  intro J
  have h' := h' J
  rw [Busy] at h'
  rw [hfs] at h'
  rcases h J with he | hown
  · rw [← he]
    exact h'
  · exact .inr hown

theorem busy_congr {fs' : List (Frame V × Place W V)}
    (h : fs'.map (fun p => (p.1.fid, p.2)) = fs.map fun p => (p.1.fid, p.2)) (J : JobId W)
    (_ : J.frame < next) (hb : Busy w fs' J) : Busy w fs J := by
  rw [Busy] at hb
  rw [h] at hb
  exact hb

theorem busy_cons {J : JobId W} (hb : Busy w fs J) : Busy w ((f, p) :: fs) J := by
  obtain ⟨hown, q, hq, hb⟩ := hb
  exact ⟨hown, q, List.mem_cons_of_mem _ hq, hb⟩

/-- The jobs of a new call are new. -/
theorem busy_tail {J : JobId W} (hlt : J.frame < f.fid) (hb : Busy w ((f, p) :: fs) J) :
    Busy w fs J := by
  obtain ⟨hown, q, hq, hframe, hne⟩ := hb
  rcases List.mem_cons.mp hq with rfl | hq
  · exact absurd hframe hlt.ne'
  · exact ⟨hown, q, hq, hframe, hne⟩

/-- A call that moves on had more to do than to return. -/
theorem busy_move {J : JobId W} (hfid : f'.fid = f.fid) (hp : p ≠ .rest [] ∨ p' = p)
    (hb : Busy w ((f', p') :: fs) J) : Busy w ((f, p) :: fs) J := by
  obtain ⟨hown, q, hq, hframe, hne⟩ := hb
  rcases List.mem_cons.mp hq with rfl | hq
  · refine ⟨hown, (f.fid, p), List.mem_cons_self, hfid ▸ hframe, ?_⟩
    rcases hp with hp | rfl
    · exact hp
    · exact hne
  · exact ⟨hown, q, List.mem_cons_of_mem _ hq, hframe, hne⟩

/-- A call with jobs to come back for has more to do than to return. -/
theorem Holds.busy (h : Holds w fs js deque next jobs) {J : JobId W} (hJ : J ∈ owed w fs) :
    Busy w fs J := by
  obtain ⟨hown, q, hq, hfid, hname⟩ := mem_owed hJ
  refine ⟨hown, (q.1.fid, q.2), List.mem_map_of_mem hq, hfid, ?_⟩
  intro he
  have hf := h.frames q hq
  have he : q.2 = .rest [] := he
  rw [he] at hf
  have hpend : q.1.pend = [] := hf.place
  rw [hpend] at hname
  cases hname

/-- The jobs of a worker and those it has stolen are safe from the others. -/
theorem Holds.change (h : Holds w fs js deque next jobs)
    (hk : ∀ J : JobId W, J.owner = w → (jobs J).Keeps (jobs' J))
    (ho : ∀ p ∈ js, jobs' p.1 = jobs p.1)
    (hm : Matched (fun J => (jobs' J).phase = .queued) (fun J => (jobs' J).phase.Stolen)
      (owed w fs) deque') : Holds w fs js deque' next jobs' where
  matched := hm
  fids := h.fids
  fresh J hJ hn := by
    have hidle := h.fresh J hJ hn
    rw [(hk J hJ).eq_of_not_live (hidle ▸ fun hl => hl)]
    exact hidle
  live J hJ hl := h.live J hJ ((hk J hJ).live hl)
  frames q hq := (h.frames q hq).keeps fun J => hk _ rfl
  oprs q hq := by
    rw [ho q hq]
    exact h.oprs q hq
  nodup := h.nodup

/-- The steps of the worker `v` keep the invariant of the worker `w`. -/
theorem Holds.others {v : W} (h : Holds w fs js deque next jobs) (hv : v ≠ w)
    {fs' : List (Frame V × Place W V)} (ho : Others v fs' jobs jobs') :
    Holds w fs js deque next jobs' := by
  have hk : ∀ J : JobId W, J.owner = w → (jobs J).Keeps (jobs' J) := by
    intro J hJ
    rcases ho J with he | ⟨⟨hown, -⟩, -⟩ | ⟨hrun, hst, hr⟩
    · exact .inl he
    · exact absurd (hown.symm.trans hJ) hv
    · exact .inr ⟨hrun.live, hst, hr⟩
  have hkeep : ∀ J : JobId W, (jobs J).phase.RunBy w → jobs' J = jobs J := by
    intro J hJ
    rcases ho J with he | ⟨-, hn⟩ | ⟨hrun, -, -⟩
    · exact he
    · exact absurd hJ (hn w)
    · cases hph : (jobs J).phase <;> rw [hph] at hJ hrun <;> first | exact hJ.elim |
        exact absurd (hrun.symm.trans hJ) hv
  apply h.change hk
  · intro q hq
    obtain ⟨hph, hrun, -⟩ := h.oprs q hq
    exact hkeep q.1 (hph ▸ hrun)
  · refine h.matched.mono (fun J hJ hq => ?_) fun J hJ hs => ?_
    · rcases ho J with he | ⟨⟨hown, -⟩, -⟩ | ⟨hrun, -, -⟩
      · rw [he]
        exact hq
      · have hJw := (mem_owed (h.matched.mem_owed hJ)).1
        exact absurd (hown.symm.trans hJw) hv
      · rw [hq] at hrun
        exact hrun.elim
    · exact (hk J (mem_owed hJ).1).stolen hs

/-! ## Steps of the newest frame -/

theorem job_congr (h : f'.fid = f.fid) : f'.job w = f.job w := by
  funext nm
  simp only [Frame.job, h]

/-- The newest frame moves on. -/
theorem Holds.head (h : Holds w ((f, p) :: fs) js deque next jobs) (hfid : f'.fid = f.fid)
    (hpend : f'.pend = f.pend) (hf : FrameOk w jobs f' p') :
    Holds w ((f', p') :: fs) js deque next jobs := by
  have howed : owed w ((f', p') :: fs) = owed w ((f, p) :: fs) := by
    simp only [owed_cons, hpend, job_congr hfid]
  refine ⟨howed ▸ h.matched, ?_, h.fresh, ?_, ?_, h.oprs, h.nodup⟩
  · have hfids := h.fids
    simp only [List.map_cons] at hfids ⊢
    rw [hfid]
    exact hfids
  · intro J hJ hl
    rw [howed]
    exact h.live J hJ hl
  · exact List.forall_mem_cons.mpr ⟨hf, (List.forall_mem_cons.mp h.frames).2⟩

/-- A new frame. -/
theorem Holds.push (h : Holds w fs js deque next jobs) (hf : FrameOk w jobs f p)
    (hfid : f.fid = next) (hpend : f.pend = []) :
    Holds w ((f, p) :: fs) js deque (next + 1) jobs := by
  have howed : owed w ((f, p) :: fs) = owed w fs := by
    rw [owed_cons, hpend]
    rfl
  refine ⟨howed ▸ h.matched, ?_, ?_, ?_, List.forall_mem_cons.mpr ⟨hf, h.frames⟩, h.oprs, h.nodup⟩
  · simp only [List.map_cons, hfid]
    refine List.pairwise_cons.mpr ⟨fun k hk => ?_, h.fids⟩
    rcases List.mem_cons.mp hk with rfl | hk
    · exact Nat.lt_succ_self _
    · exact (List.rel_of_pairwise_cons h.fids hk).trans (Nat.lt_succ_self _)
  · intro J hJ hn
    exact h.fresh J hJ (by omega)
  · intro J hJ hl
    rw [howed]
    exact h.live J hJ hl

/-- A call returns. -/
theorem Holds.ret (h : Holds w ((f, p) :: fs) js deque next jobs) (hpend : f.pend = []) :
    Holds w fs js deque next jobs := by
  have howed : owed w ((f, p) :: fs) = owed w fs := by
    rw [owed_cons, hpend]
    rfl
  refine ⟨howed ▸ h.matched, ?_, h.fresh, ?_, (List.forall_mem_cons.mp h.frames).2, h.oprs,
    h.nodup⟩
  · obtain ⟨hnext, hfids⟩ := List.pairwise_cons.mp h.fids
    exact List.pairwise_cons.mpr
      ⟨fun k hk => hnext k (List.mem_cons_of_mem _ hk), (List.pairwise_cons.mp hfids).2⟩
  · intro J hJ hl
    rw [← howed]
    exact h.live J hJ hl

section
variable {nm : JobName} {l : List JobName} {j : Job W V}

/-- What the worker finds when it comes back for the newest job of its newest call. -/
theorem Holds.find (h : Holds w ((f, p) :: fs) js deque next jobs) (hpend : f.pend = nm :: l) :
    ((jobs (f.job w nm)).phase = .queued ∧ ∃ d, deque = f.job w nm :: d) ∨
    ((jobs (f.job w nm)).phase.Stolen ∧ deque = []) := by
  have hm := h.matched
  rw [owed_cons, hpend] at hm
  exact hm.head

variable [DecidableEq W]

/-- The newest frame changes one of its jobs. -/
theorem Holds.own (h : Holds w ((f, p) :: fs) js deque next jobs) (hfid : f'.fid = f.fid)
    (hf : FrameOk w (Function.update jobs (f.job w nm) j) f' p')
    (hlive : ∀ J ∈ owed w ((f, p) :: fs), J = f.job w nm ∧ ¬ j.phase.Live ∨
      J ∈ owed w ((f', p') :: fs))
    (hj : j.phase.Live → (jobs (f.job w nm)).phase.Live)
    (hm : Matched (fun J => (Function.update jobs (f.job w nm) j J).phase = .queued)
      (fun J => (Function.update jobs (f.job w nm) j J).phase.Stolen)
      (owed w ((f', p') :: fs)) deque') :
    Holds w ((f', p') :: fs) js deque' next (Function.update jobs (f.job w nm) j) := by
  obtain ⟨hnext, hpair⟩ := List.pairwise_cons.mp h.fids
  have hother : ∀ J : JobId W, J.frame ≠ f.fid →
      Function.update jobs (f.job w nm) j J = jobs J := fun J hJ =>
    Function.update_of_ne (fun he => hJ (congrArg JobId.frame he)) ..
  refine ⟨hm, ?_, ?_, ?_, ?_, ?_, h.nodup⟩
  · have hfids := h.fids
    simp only [List.map_cons] at hfids ⊢
    rw [hfid]
    exact hfids
  · intro J hJ hn
    have hlt : f.fid < next := hnext _ List.mem_cons_self
    rw [hother J (by omega)]
    exact h.fresh J hJ hn
  · intro J hJ hl
    have hmem : J ∈ owed w ((f, p) :: fs) := by
      by_cases he : J = f.job w nm
      · rw [he, Function.update_self] at hl
        exact h.live J hJ (he ▸ hj hl)
      · rw [Function.update_of_ne he] at hl
        exact h.live J hJ hl
    rcases hlive J hmem with ⟨rfl, hn⟩ | hin
    · rw [Function.update_self] at hl
      exact absurd hl hn
    · exact hin
  · refine List.forall_mem_cons.mpr ⟨hf, fun q hq => ?_⟩
    have hlt : f.fid > q.1.fid :=
      List.rel_of_pairwise_cons hpair (List.mem_map_of_mem hq)
    apply (h.frames q (List.mem_cons_of_mem _ hq)).keeps
    intro nm'
    rw [hother (q.1.job w nm') (Nat.ne_of_lt hlt)]
    exact .refl _
  · intro q hq
    obtain ⟨hph, hrun, hown⟩ := h.oprs q hq
    rw [Function.update_of_ne fun he => hown (congrArg JobId.owner he)]
    exact ⟨hph, hrun, hown⟩

/-- `try_dequeue` finds what the newest frame comes back for. -/
theorem Holds.pop (h : Holds w ((f, p) :: fs) js (f.job w nm :: deque) next jobs)
    (hfid : f'.fid = f.fid) (hpend : f.pend = nm :: l) (hpend' : f'.pend = l)
    (hf : FrameOk w (Function.update jobs (f.job w nm) ((jobs (f.job w nm)).move .popped)) f' p') :
    Holds w ((f', p') :: fs) js deque next
      (Function.update jobs (f.job w nm) ((jobs (f.job w nm)).move .popped)) := by
  have howed : owed w ((f, p) :: fs) = f.job w nm :: owed w ((f', p') :: fs) := by
    rw [owed_cons, owed_cons, hpend, hpend', job_congr hfid]
    rfl
  have hq : (jobs (f.job w nm)).phase = .queued := h.matched.queued _ List.mem_cons_self
  have hne : ∀ J : JobId W, J ≠ f.job w nm →
      Function.update jobs (f.job w nm) ((jobs (f.job w nm)).move .popped) J = jobs J := fun J hJ =>
    Function.update_of_ne hJ ..
  have hm := h.matched
  rw [howed] at hm
  refine h.own hfid hf (fun J hJ => ?_) (fun hl => hl.elim) (hm.pop (fun J hJ hJq => ?_) ?_)
  · rw [howed] at hJ
    exact (List.mem_cons.mp hJ).imp_left fun he => ⟨he, fun hl => hl⟩
  · rw [hne J hJ]
    exact hJq
  · intro J hs
    rw [hne J fun he => by rw [he, hq] at hs; exact hs]
    exact hs

/-- A call has waited for its newest job. -/
theorem Holds.join (h : Holds w ((f, p) :: fs) js deque next jobs) (hfid : f'.fid = f.fid)
    (hpend : f.pend = nm :: l) (hpend' : f'.pend = l)
    (hd : (jobs (f.job w nm)).finished = true) (hf : FrameOk w jobs f' p') :
    Holds w ((f', p') :: fs) js deque next jobs := by
  have howed : owed w ((f, p) :: fs) = f.job w nm :: owed w ((f', p') :: fs) := by
    rw [owed_cons, owed_cons, hpend, hpend', job_congr hfid]
    rfl
  have hnl : ¬ (jobs (f.job w nm)).phase.Live := (Job.finished.joined hd).not_live
  have hm := h.matched
  rw [howed] at hm
  have hdeque : deque = [] := by
    refine hm.eq_nil_of_stolen fun hq => hnl ?_
    rw [hq]
    trivial
  subst hdeque
  have hown : Holds w ((f', p') :: fs) js [] next
      (Function.update jobs (f.job w nm) (jobs (f.job w nm))) := by
    refine h.own hfid (by simpa using hf) (fun J hJ => ?_) (fun hl => hl) (by simpa using hm.join)
    rw [howed] at hJ
    exact (List.mem_cons.mp hJ).imp_left fun he => ⟨he, hnl⟩
  simpa using hown

/-- `fast_clone` runs a job that has been taken back. -/
theorem Holds.clone (h : Holds w ((f, p) :: fs) js deque next jobs) (hfid : f'.fid = f.fid)
    (hpend : f'.pend = f.pend) (hold : (jobs (f.job w nm)).phase = .popped ∨
      (jobs (f.job w nm)).phase = .cloning) (hnew : j.phase = .cloning ∨ j.phase = .cloned)
    (hf : FrameOk w (Function.update jobs (f.job w nm) j) f' p') :
    Holds w ((f', p') :: fs) js deque next (Function.update jobs (f.job w nm) j) := by
  have howed : owed w ((f', p') :: fs) = owed w ((f, p) :: fs) := by
    simp only [owed_cons, hpend, job_congr hfid]
  have hnl : ¬ j.phase.Live := by
    rcases hnew with hph | hph <;> rw [hph] <;> exact fun hl => hl
  refine h.own hfid hf (fun J hJ => .inr (howed ▸ hJ)) (fun hl => absurd hl hnl) ?_
  rw [howed]
  refine h.matched.mono (fun J _ hq => ?_) fun J _ hs => ?_
  · rw [Function.update_of_ne fun he => ?_]
    · exact hq
    · rw [he] at hq
      rcases hold with hph | hph <;> rw [hph] at hq <;> cases hq
  · rw [Function.update_of_ne fun he => ?_]
    · exact hs
    · rw [he] at hs
      rcases hold with hph | hph <;> rw [hph] at hs <;> exact hs

/-! ## Stolen jobs -/

/-- A job of another worker that is not one of the stolen jobs. -/
theorem Holds.foreign (h : Holds w fs js deque next jobs) {J : JobId W} (hown : J.owner ≠ w)
    (hJ : ∀ q ∈ js, q.1 ≠ J) : Holds w fs js deque next (Function.update jobs J j) := by
  have hsame : ∀ X : JobId W, X.owner = w → Function.update jobs J j X = jobs X := by
    rintro X rfl
    exact Function.update_of_ne (fun he => hown (congrArg JobId.owner he.symm)) ..
  apply h.change
  · intro X hX
    rw [hsame X hX]
    exact .refl _
  · intro q hq
    exact Function.update_of_ne (hJ q hq) ..
  · refine h.matched.mono (fun X hX hq => ?_) fun X hX hs => ?_
    · rw [hsame X (mem_owed (h.matched.mem_owed hX)).1]
      exact hq
    · rw [hsame X (mem_owed hX).1]
      exact hs

/-- The worker takes a job from the deque of another. -/
theorem Holds.take (h : Holds w fs js deque next jobs) {J : JobId W} (hown : J.owner ≠ w)
    (hq : (jobs J).phase = .queued) :
    Holds w fs ((J, .taken w) :: js) deque next
      (Function.update jobs J ((jobs J).move (.taken w))) := by
  have hne : ∀ q ∈ js, q.1 ≠ J := by
    intro q hmem he
    obtain ⟨hph, hrun, -⟩ := h.oprs q hmem
    rw [← hph, he, hq] at hrun
    exact hrun
  have h' := h.foreign (j := (jobs J).move (.taken w)) hown hne
  refine ⟨h'.matched, h'.fids, h'.fresh, h'.live, h'.frames, ?_, ?_⟩
  · refine List.forall_mem_cons.mpr ⟨⟨update_phase .., rfl, hown⟩, h'.oprs⟩
  · refine List.nodup_cons.mpr ⟨fun hmem => ?_, h.nodup⟩
    obtain ⟨q, hq, he⟩ := List.mem_map.mp hmem
    exact hne q hq he

/-- The newest stolen job moves on. -/
theorem Holds.opr_step {J : JobId W} {ph : Phase W} (h : Holds w fs ((J, ph) :: js) deque next jobs)
    (hj : j.phase.RunBy w) :
    Holds w fs ((J, j.phase) :: js) deque next (Function.update jobs J j) := by
  obtain ⟨⟨-, -, hown⟩, hoprs⟩ := List.forall_mem_cons.mp h.oprs
  obtain ⟨hmem, hnodup⟩ := List.nodup_cons.mp h.nodup
  have hrest : Holds w fs js deque next jobs :=
    ⟨h.matched, h.fids, h.fresh, h.live, h.frames, hoprs, hnodup⟩
  have h' := hrest.foreign (j := j) hown fun q hq he => hmem (List.mem_map.mpr ⟨q, hq, he⟩)
  refine ⟨h'.matched, h'.fids, h'.fresh, h'.live, h'.frames, ?_, h.nodup⟩
  exact List.forall_mem_cons.mpr ⟨⟨update_phase .., hj, hown⟩, h'.oprs⟩

/-- The newest stolen job is over. -/
theorem Holds.opr_end {J : JobId W} {ph : Phase W}
    (h : Holds w fs ((J, ph) :: js) deque next jobs) :
    Holds w fs js deque next (Function.update jobs J j) := by
  obtain ⟨⟨-, -, hown⟩, hoprs⟩ := List.forall_mem_cons.mp h.oprs
  obtain ⟨hmem, hnodup⟩ := List.nodup_cons.mp h.nodup
  have hrest : Holds w fs js deque next jobs :=
    ⟨h.matched, h.fids, h.fresh, h.live, h.frames, hoprs, hnodup⟩
  exact hrest.foreign hown fun q hq he => hmem (List.mem_map.mpr ⟨q, hq, he⟩)

/-- The oldest job of the deque is stolen. -/
theorem Holds.stolen {v : W} {J : JobId W} (h : Holds w fs js (deque ++ [J]) next jobs) :
    Holds w fs js deque next (Function.update jobs J ((jobs J).move (.taken v))) := by
  have hmem : J ∈ deque ++ [J] := List.mem_append_right _ (List.mem_singleton_self J)
  have hq : (jobs J).phase = .queued := h.matched.queued J hmem
  have hne : ∀ X : JobId W, X ≠ J →
      Function.update jobs J ((jobs J).move (.taken v)) X = jobs X := fun X hX =>
    Function.update_of_ne hX ..
  have hst : (Function.update jobs J ((jobs J).move (.taken v)) J).phase.Stolen := by
    rw [update_phase]
    trivial
  apply h.change
  · intro X _
    by_cases he : X = J
    · subst he
      refine .inr ⟨by rw [hq]; trivial, hst, ?_⟩
      rw [Function.update_self]
      rfl
    · rw [hne X he]
      exact .refl _
  · intro q hqm
    obtain ⟨hph, hrun, -⟩ := h.oprs q hqm
    apply hne
    intro he
    rw [← hph, he, hq] at hrun
    exact hrun
  · refine h.matched.stolen hst (fun X hX hXq => ?_) fun X hs => ?_
    · rw [hne X hX]
      exact hXq
    · by_cases he : X = J
      · exact he ▸ hst
      · rw [hne X he]
        exact hs

/-! ## What happens to a job -/

omit [DecidableEq W] in
/-- A job moves from one phase to another. -/
theorem Job.Ok.move {ph ph' : Phase W} (h : j.Ok) (hj : j.phase = ph)
    (hph : ph = .queued ∧ (ph' = .popped ∨ ∃ v, ph' = .taken v) ∨
      ∃ v v', ph = .ran v ∧ ph' = .done v') : (j.move ph').Ok := by
  rw [Job.Ok] at h
  rw [hj] at h
  rcases hph with ⟨rfl, rfl | ⟨v, rfl⟩⟩ | ⟨v, v', rfl, rfl⟩ <;> exact h

omit [DecidableEq W] in
/-- A job that has not been run is run. -/
theorem Job.Ok.start {ph : Phase W} (h : j.Ok) (hj : j.phase = .popped ∨ ∃ v, j.phase = .taken v)
    (hph : ph = .cloning ∨ ∃ v, ph = .running v) : (j.start ph).Ok := by
  have h0 : j.started = 0 ∧ j.results = [] := by
    rw [Job.Ok] at h
    rcases hj with hj | ⟨v, hj⟩ <;> rw [hj] at h <;> exact h
  have h1 : (j.start ph).started = 1 := congrArg (· + 1) h0.1
  rcases hph with rfl | ⟨v, rfl⟩ <;> exact ⟨h1, h0.2⟩

omit [DecidableEq W] in
/-- A job returns. -/
theorem Job.Ok.stop {ph : Phase W} {v : V} (h : j.Ok)
    (hj : j.phase = .cloning ∨ ∃ v, j.phase = .running v)
    (hph : ph = .cloned ∨ ∃ v, ph = .ran v) : (j.stop ph v).Ok := by
  have h1 : j.started = 1 ∧ j.results = [] := by
    rw [Job.Ok] at h
    rcases hj with hj | ⟨v, hj⟩ <;> rw [hj] at h <;> exact h
  have h2 : (j.stop ph v).results = [v] := congrArg (· ++ [v]) h1.2
  rcases hph with rfl | ⟨v, rfl⟩ <;> exact ⟨h1.1, h2⟩

theorem ok_update {X : JobId W} (h : ∀ J, (jobs J).Ok) (hj : j.Ok) (J : JobId W) :
    (Function.update jobs X j J).Ok :=
  (Function.forall_update_iff jobs (p := fun _ j => j.Ok)).mpr ⟨hj, fun J _ => h J⟩ J

omit [DecidableEq W] in
/-- The job of a call that has more to do than to return. -/
theorem busy_head (nm : JobName) (hp : p ≠ .rest []) : Busy w ((f, p) :: fs) (f.job w nm) :=
  ⟨rfl, (f.fid, p), List.mem_cons_self, rfl, hp⟩

/-- The worker changes a job of its own. -/
theorem Others.own {X : JobId W} (hX : Busy w fs X) (hph : ∀ v, ¬ (jobs X).phase.RunBy v) :
    Others w fs jobs (Function.update jobs X j) := by
  intro J
  by_cases he : J = X
  · exact .inr (.inl ⟨he ▸ hX, he ▸ hph⟩)
  · exact .inl (Function.update_of_ne he ..)

/-- The worker changes a job it has stolen. -/
theorem Others.opr {X : JobId W} (hph : (jobs X).phase.RunBy w) (hj : j.phase.Stolen)
    (hrun : j.run = (jobs X).run) : Others w fs jobs (Function.update jobs X j) := by
  intro J
  by_cases he : J = X
  · subst he
    rw [Function.update_self]
    exact .inr (.inr ⟨hph, hj, hrun⟩)
  · exact .inl (Function.update_of_ne he ..)

/-! ## Promotion -/

/-- What `spawnAll` enqueues. -/
theorem spawnAll_spec (fid : ℕ) {sp : List (Spawn V)} (hnodup : (sp.map Spawn.name).Nodup)
    (e : Env W V) :
    (e.spawnAll w fid sp).deque = (Call.names sp).map (⟨w, fid, ·⟩) ++ e.deque ∧
    (∀ J : JobId W, J ∉ (Call.names sp).map (⟨w, fid, ·⟩) →
      (e.spawnAll w fid sp).jobs J = e.jobs J) ∧
    ∀ s ∈ sp, ∃ t, (e.spawnAll w fid sp).jobs ⟨w, fid, s.name⟩ =
      (e.jobs ⟨w, fid, s.name⟩).enqueued s.run t := by
  induction sp generalizing e with
  | nil => exact ⟨rfl, fun _ _ => rfl, List.forall_mem_nil _⟩
  | cons s sp ih =>
    obtain ⟨hs, hnodup⟩ := List.nodup_cons.mp hnodup
    obtain ⟨hdeque, hsame, hnew⟩ :=
      ih hnodup (e.enqueue ⟨w, fid, s.name⟩ s.run (s.with_tokens e.heartbeat_tokens))
    have hnames : Call.names (s :: sp) = Call.names sp ++ [s.name] := by
      simp [Call.names]
    have hmem : ∀ nm : JobName, (⟨w, fid, nm⟩ : JobId W) ∈ (Call.names sp).map (⟨w, fid, ·⟩) ↔
        nm ∈ sp.map Spawn.name := by
      intro nm
      simp [Call.names]
    refine ⟨?_, fun J hJ => ?_, ?_⟩
    · rw [hnames, List.map_append, List.append_assoc]
      exact hdeque
    · rw [hnames, List.map_append, List.mem_append, not_or] at hJ
      refine (hsame J hJ.1).trans (Function.update_of_ne ?_ ..)
      exact fun he => hJ.2 (List.mem_singleton.mpr he)
    · refine List.forall_mem_cons.mpr ⟨⟨_, (hsame _ (mt (hmem _).mp hs)).trans
        (Function.update_self ..)⟩, fun s' hs' => ?_⟩
      obtain ⟨t, ht⟩ := hnew s' hs'
      refine ⟨t, ht.trans (congrArg (fun j => Job.enqueued j s'.run t)
        (Function.update_of_ne (fun he => hs ?_) ..))⟩
      have hname : s'.name = s.name := congrArg JobId.name he
      exact hname ▸ List.mem_map_of_mem hs'

/-- A frame enqueues its first jobs, while no newer frame owes any. -/
theorem Holds.enqueue {above below : List (Frame V × Place W V)} {ids : List (JobId W)}
    (h : Holds w (above ++ (f, p) :: below) js deque next jobs)
    (habove : ∀ q ∈ above, q.1.pend = []) (hpend : f.pend = []) (hfid : f'.fid = f.fid)
    (hids : f'.pend.map (f'.job w) = ids) (hnodup : ids.Nodup)
    (hidle : ∀ J ∈ ids, (jobs J).phase = .idle) (hq : ∀ J ∈ ids, (jobs' J).phase = .queued)
    (hsame : ∀ J, J ∉ ids → jobs' J = jobs J) (hf : FrameOk w jobs' f' p') :
    Holds w (above ++ (f', p') :: below) js (ids ++ deque) next jobs' := by
  have howed : owed w (above ++ (f, p) :: below) = owed w below := by
    rw [owed_append, owed_eq_nil habove, owed_cons, hpend]
    rfl
  have howed' : owed w (above ++ (f', p') :: below) = ids ++ owed w below := by
    rw [owed_append, owed_eq_nil habove, owed_cons, hids]
    rfl
  have hmine : ∀ J ∈ ids, J.owner = w ∧ J.frame = f.fid := by
    rintro J hJ
    obtain ⟨nm, -, rfl⟩ := List.mem_map.mp (hids ▸ hJ)
    exact ⟨rfl, hfid⟩
  obtain ⟨hnext, hpair⟩ := List.pairwise_cons.mp h.fids
  rw [List.map_append, List.map_cons] at hpair
  obtain ⟨-, hbelow, habove'⟩ := List.pairwise_append.mp hpair
  have hother : ∀ q : Frame V × Place W V, FrameOk w jobs q.1 q.2 → q.1.fid ≠ f.fid →
      FrameOk w jobs' q.1 q.2 := by
    intro q hok hne
    apply hok.keeps
    intro nm
    rw [hsame _ fun hJ => hne (hmine _ hJ).2]
    exact .refl _
  have hold := h.matched
  rw [howed] at hold
  refine ⟨?_, ?_, ?_, ?_, ?_, ?_, h.nodup⟩
  · rw [howed']
    refine hold.push hnodup (fun J hJ => ⟨?_, hq J hJ⟩) (fun J hJ hJq => ?_) fun J hs => ?_
    · rw [hidle J hJ]
      exact fun he => by cases he
    · rw [hsame J hJ]
      exact hJq
    · rw [hsame J fun hJ => by rw [hidle J hJ] at hs; exact hs]
      exact hs
  · have hfids := h.fids
    simp only [List.map_append, List.map_cons] at hfids ⊢
    rw [hfid]
    exact hfids
  · intro J hJ hn
    have hlt : f.fid < next := hnext _ (by simp)
    rw [hsame J fun hmem => by have := (hmine J hmem).2; omega]
    exact h.fresh J hJ hn
  · intro J hJ hl
    rw [howed']
    by_cases hmem : J ∈ ids
    · exact List.mem_append_left _ hmem
    · rw [hsame J hmem] at hl
      exact List.mem_append_right _ (howed ▸ h.live J hJ hl)
  · intro q hqm
    rcases List.mem_append.mp hqm with hqm | hqm
    · refine hother q (h.frames q (List.mem_append_left _ hqm)) (Nat.ne_of_gt ?_)
      exact habove' _ (List.mem_map_of_mem hqm) _ List.mem_cons_self
    · rcases List.mem_cons.mp hqm with rfl | hqm
      · exact hf
      · refine hother q (h.frames q (List.mem_append_right _ (List.mem_cons_of_mem _ hqm)))
          (Nat.ne_of_lt ?_)
        exact List.rel_of_pairwise_cons hbelow (List.mem_map_of_mem hqm)
  · intro q hqm
    obtain ⟨hph, hrun, hown⟩ := h.oprs q hqm
    rw [hsame q.1 fun hmem => hown (hmine _ hmem).1]
    exact ⟨hph, hrun, hown⟩

omit [DecidableEq W] in
theorem Job.Ok.enqueued {c : Code V} {t : UInt32} (h : j.Ok) (hj : j.phase = .idle) :
    (j.enqueued c t).Ok := by
  rw [Job.Ok] at h
  rw [hj] at h
  exact h

/-- The promotion of a frame, while no newer frame owes a job. -/
theorem Holds.prom [Inhabited V] {above below : List (Frame V × Place W V)} {e : Env W V}
    (h : Holds w (above ++ (f, p) :: below) js e.deque next e.jobs)
    (habove : ∀ q ∈ above, q.1.pend = []) (hp : p.Promotable)
    (hun : f.promoted = false ∨ p = .promoting) :
    Holds w (above ++ ((Frame.prom w { f with promoted := true } e).1, p.promoted) :: below) js
      (Frame.prom w { f with promoted := true } e).2.deque next
      (Frame.prom w { f with promoted := true } e).2.jobs ∧
    OwnOnly w (above ++ (f, p) :: below) e.jobs
      (Frame.prom w { f with promoted := true } e).2.jobs ∧
    ((∀ J, (e.jobs J).Ok) → ∀ J, ((Frame.prom w { f with promoted := true } e).2.jobs J).Ok) := by
  have hf : FrameOk w e.jobs f p :=
    h.frames (f, p) (List.mem_append_right _ List.mem_cons_self)
  have hinv := hf.promotable hp hun
  have hnodup := Call.names_nodup hinv
  obtain ⟨hdeque, hsame, hnew⟩ := spawnAll_spec (w := w) f.fid (List.nodup_reverse.mp hnodup) e
  have hmem : ∀ J ∈ (Call.names f.call.promfn.2).map (f.job w),
      (e.jobs J).phase = .idle ∧ (J.owner = w ∧ J.frame = f.fid) ∧
      ∃ c t, (e.spawnAll w f.fid f.call.promfn.2).jobs J = (e.jobs J).enqueued c t := by
    intro J hJ
    obtain ⟨nm, hnm, rfl⟩ := List.mem_map.mp hJ
    obtain ⟨s, hs, rfl⟩ := List.mem_map.mp (List.mem_reverse.mp hnm)
    exact ⟨hf.idle hun _, ⟨rfl, rfl⟩, s.run, hnew s hs⟩
  refine ⟨?_, fun J => ?_, fun hok J => ?_⟩
  · have hdeque' : (Frame.prom w { f with promoted := true } e).2.deque =
        (Call.names f.call.promfn.2).map (f.job w) ++ e.deque := hdeque
    rw [hdeque']
    refine h.enqueue habove hinv.pend_nil ?_ ?_
      (hnodup.map fun a b hab => congrArg JobId.name hab) (fun J hJ => (hmem J hJ).1)
      (fun J hJ => ?_) hsame (hf.prom hp hun fun s hs => ?_)
    · rfl
    · rfl
    · obtain ⟨-, -, c, t, he⟩ := hmem J hJ
      exact congrArg Job.phase he
    · obtain ⟨t, he⟩ := hnew s hs
      exact congrArg Job.run he
  · by_cases hJ : J ∈ (Call.names f.call.promfn.2).map (f.job w)
    · obtain ⟨hidle, ⟨hown, hfid⟩, -⟩ := hmem J hJ
      refine .inr ⟨⟨hown, (f.fid, p), ?_, hfid.symm, ?_⟩, fun v => hidle ▸ fun hr => hr⟩
      · simp
      · rintro rfl
        exact hp
    · exact .inl (hsame J hJ)
  · by_cases hJ : J ∈ (Call.names f.call.promfn.2).map (f.job w)
    · obtain ⟨hidle, -, c, t, he⟩ := hmem J hJ
      have hjob : (Frame.prom w { f with promoted := true } e).2.jobs J =
          (e.jobs J).enqueued c t := he
      rw [hjob]
      exact (hok J).enqueued hidle
    · have hjob : (Frame.prom w { f with promoted := true } e).2.jobs J = e.jobs J := hsame J hJ
      rw [hjob]
      exact hok J

end
end Spork.Scheduler
