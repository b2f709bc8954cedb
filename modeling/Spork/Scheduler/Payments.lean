import Spork.Scheduler.Debts
import Spork.Scheduler.Elision

/-!
# Every step pays

Each worker owes what is left of its calls, the code of the jobs on its deque and that of the
job it is about to start. A step that a worker takes by itself pays a debt, a thief takes over
a debt of its victim and pays a step, and a heartbeat pays for the jobs it enqueues.

## Main definitions

* `Frame.debts`, `Worker.debts`, `State.debts` — what is left to do.
* `Worker.Linked` — the invariant of the loops.
* `heartbeat_debts`, `run_debts`, `start_debts` — the steps of a worker.
* `step_debts` — the step lemma.
-/
namespace Spork.Scheduler

open Descent

variable {W V : Type}

/-! ## Debts of a state -/

/-- Steps of the library before the next debt is paid. -/
def Pc.ticks : Pc V → ℕ
  | .ctor => 12
  | .check => 11
  | .save => 10
  | .disable _ => 9
  | .retest _ => 8
  | .dec _ => 7
  | .setPromoted _ => 6
  | .prom _ => 5
  | .restore _ => 4
  | .body => 3
  | .close => 2
  | .closed => 1
  | .act _ => 0
  | .reclaim _ _ => 3
  | .reclaimed _ _ _ => 2
  | .clone _ _ => 1
  | .finished _ _ => 2

def Sus.ticks : Sus V → ℕ
  | .inBody => 2
  | .waiting _ _ => 1
  | _ => 0

def Stage.ticks : Stage → ℕ
  | .tokens => 3
  | .run => 2
  | .ended => 1

section
variable (w : W) (jobs : Jobs W V)

/-- The debts of a call but for its turn, given whether it has been promoted. -/
def Frame.slot (f : Frame V) (promoted : Bool) : Multiset (Debt V) :=
  f.call.loop + (if promoted then 0 else f.call.spawns) + {f.call.rest} + {.any f.k}

/-- The debts of a call. -/
def Frame.debts (f : Frame V) : Place W V → Multiset (Debt V)
  | .promoting => f.call.turn + f.slot false
  | .before => f.call.turn + f.slot f.promoted
  | .inside => f.call.turnInside + f.slot f.promoted
  | .closing => f.slot f.promoted
  | .rest ops => opsDebts ops + {.any f.k}
  | .clones J .popped ops => {.code (jobs (f.job w J)).run} + (opsDebts ops + {.any f.k})
  | .clones _ _ ops => opsDebts ops + {.any f.k}
  | .waits _ next => {.tails next} + {.any f.k}

def Item.debts : Item W V → Multiset (Debt V)
  | .frame f sus => f.debts w jobs sus.place + ticks sus.ticks
  | .opr _ => ticks 1

def Point.debts : Point W V → Multiset (Debt V)
  | .sched => 0
  | .code c => {.code c}
  | .frame f pc => f.debts w jobs pc.place + ticks pc.ticks
  | .opr _ .ended => ticks 1
  | .opr J stage => {.code (jobs J).run} + ticks stage.ticks

/-- The debts of a stack. -/
def stackDebts (stack : List (Item W V)) : Multiset (Debt V) :=
  (stack.map (Item.debts w jobs)).sum

/-- The debts of enqueued jobs. -/
def dequeDebts (deque : List (JobId W)) : Multiset (Debt V) :=
  (deque.map fun J => {.code (jobs J).run} + ticks 4).sum

/-- The debts of a worker. -/
def Worker.debts (x : Worker W V) : Multiset (Debt V) :=
  x.point.debts w jobs + stackDebts w jobs x.stack + dequeDebts jobs x.deque

end

/-- What is left to do. -/
def State.debts [Fintype W] (s : State W V) : Multiset (Debt V) :=
  ∑ w, (s.workers w).debts w s.jobs

/-- The loops of the calls publish what they have done. -/
def Frame.Linked (f : Frame V) (p : Place W V) : Prop :=
  f.call.Linked ∧ (p = .inside → f.call.AtBody)

theorem Frame.linked_of_ne {f : Frame V} {p : Place W V} (h : f.call.Linked)
    (hp : p ≠ .inside) : f.Linked p := ⟨h, fun he => absurd he hp⟩

theorem linked_cons {f : Frame V} {p : Place W V} {fs : List (Frame V × Place W V)}
    (h : f.call.Linked) (hp : p ≠ .inside) (hfs : ∀ q ∈ fs, q.1.Linked q.2) :
    ∀ q ∈ (f, p) :: fs, q.1.Linked q.2 := List.forall_mem_cons.mpr ⟨f.linked_of_ne h hp, hfs⟩

/-- So do those of a worker. -/
def Worker.Linked (x : Worker W V) : Prop := ∀ p ∈ x.frames, p.1.Linked p.2

section
variable {w : W} {jobs jobs' : Jobs W V} {stack : List (Item W V)} {deque : List (JobId W)}

/-- What is below does not wait for the code of a job. -/
theorem sus_debts (jobs jobs' : Jobs W V) (f : Frame V) (sus : Sus V) :
    f.debts w jobs' sus.place = f.debts w jobs sus.place := by
  cases sus <;> rfl

/-- A call may wait for the code of its jobs. -/
theorem debts_congr {f : Frame V} {p : Place W V}
    (h : ∀ J, (jobs' (f.job w J)).run = (jobs (f.job w J)).run) :
    f.debts w jobs' p = f.debts w jobs p := by
  cases p with
  | clones J ph ops =>
    cases ph with
    | popped => rw [Frame.debts, Frame.debts, h J]
    | _ => rfl
  | _ => rfl

theorem stackDebts_congr (jobs jobs' : Jobs W V) :
    stackDebts w jobs' stack = stackDebts w jobs stack := by
  refine congrArg List.sum (List.map_congr_left fun it _ => ?_)
  cases it with
  | opr J => rfl
  | frame f sus => exact congrArg (· + ticks sus.ticks) (sus_debts jobs jobs' f sus)

theorem dequeDebts_congr (h : ∀ J ∈ deque, (jobs' J).run = (jobs J).run) :
    dequeDebts jobs' deque = dequeDebts jobs deque :=
  congrArg List.sum (List.map_congr_left fun J hJ => by rw [h J hJ])

@[simp] theorem stackDebts_cons (it : Item W V) : stackDebts w jobs (it :: stack) =
    it.debts w jobs + stackDebts w jobs stack := by
  rw [stackDebts, List.map_cons, List.sum_cons]
  rfl

@[simp] theorem dequeDebts_cons (J : JobId W) : dequeDebts jobs (J :: deque) =
    {.code (jobs J).run} + ticks 4 + dequeDebts jobs deque := by
  rw [dequeDebts, List.map_cons, List.sum_cons]
  rfl

end

/-! ## Heartbeats -/

section
variable [DecidableEq W] [Inhabited V] {w : W} {jobs : Jobs W V}

omit [Inhabited V] in
/-- Jobs are enqueued with their code. -/
theorem spawnAll_debts {fid : ℕ} {sp : List (Spawn V)} {e : Env W V}
    (hnd : (sp.map Spawn.name).Nodup)
    (hnew : ∀ nm ∈ sp.map Spawn.name, (⟨w, fid, nm⟩ : JobId W) ∉ e.deque) :
    dequeDebts (e.spawnAll w fid sp).jobs (e.spawnAll w fid sp).deque =
      Call.spawnDebts sp + dequeDebts e.jobs e.deque := by
  induction sp generalizing e with
  | nil => exact (zero_add _).symm
  | cons s sp ih =>
    obtain ⟨hs, hnd⟩ := List.nodup_cons.mp hnd
    have hq : dequeDebts (e.enqueue ⟨w, fid, s.name⟩ s.run (s.with_tokens e.heartbeat_tokens)).jobs
        (⟨w, fid, s.name⟩ :: e.deque) =
        {.code s.run} + ticks 4 + dequeDebts e.jobs e.deque := by
      have hself : ((e.enqueue ⟨w, fid, s.name⟩ s.run (s.with_tokens e.heartbeat_tokens)).jobs
          ⟨w, fid, s.name⟩).run = s.run := by
        show (Function.update e.jobs _ _ _).run = s.run
        rw [Function.update_self]
        rfl
      rw [dequeDebts_cons, hself]
      refine congrArg _ (dequeDebts_congr fun J hJ => ?_)
      have hne : J ≠ ⟨w, fid, s.name⟩ := fun he => hnew s.name List.mem_cons_self (he ▸ hJ)
      exact congrArg Job.run (Function.update_of_ne hne ..)
    rw [Env.spawnAll, ih hnd]
    · show Call.spawnDebts sp + dequeDebts _ (⟨w, fid, s.name⟩ :: e.deque) = _
      rw [hq, Call.spawnDebts, Call.spawnDebts, List.map_cons, List.sum_cons]
      abel
    · intro nm hnm hmem
      rcases List.mem_cons.mp hmem with he | hmem
      · cases he
        exact hs hnm
      · exact hnew nm (List.mem_cons_of_mem _ hnm) hmem

omit [DecidableEq W] [Inhabited V] in
/-- A promotable call that has not been promoted. -/
theorem FrameOk.unpromoted {f : Frame V} {p : Place W V} (h : FrameOk w jobs f p)
    (hp : p.Promotable) (hun : f.promoted = false) : f.call.Inv false f.pend ∧ p ≠ .promoting :=
  ⟨h.promotable hp (.inl hun), fun he => by
    subst he
    exact absurd (h.place.1.symm.trans hun) (by simp)⟩

/-- A promotion pays with the jobs that it enqueues. -/
theorem promote_debts {f : Frame V} {p : Place W V} {e : Env W V} (hl : f.Linked p)
    (hinv : f.call.Inv false f.pend) (hp : p.Promotable)
    (hun : f.promoted = false ∨ p = .promoting)
    (hnew : ∀ nm, f.job w nm ∉ e.deque) (jobs jobs' : Jobs W V) :
    (Frame.prom w { f with promoted := true } e).1.Linked p.promoted ∧
    Reaches Debt.Lt
      ((Frame.prom w { f with promoted := true } e).1.debts w jobs' p.promoted +
        dequeDebts (Frame.prom w { f with promoted := true } e).2.jobs
          (Frame.prom w { f with promoted := true } e).2.deque)
      (f.debts w jobs p + dequeDebts e.jobs e.deque) := by
  obtain ⟨hlink, hbody, hrest, hturn, hinside, hpay⟩ := Call.promfn_debts hinv hl.1
  have hnd : (f.call.promfn.2.map Spawn.name).Nodup := List.nodup_reverse.mp (Call.names_nodup hinv)
  set f' := (Frame.prom w { f with promoted := true } e).1
  set e' := (Frame.prom w { f with promoted := true } e).2
  have hdeque : dequeDebts e'.jobs e'.deque =
      Call.spawnDebts f.call.promfn.2 + dequeDebts e.jobs e.deque :=
    spawnAll_debts hnd fun nm _ => hnew nm
  have hpaid : ∀ M : Multiset (Debt V), Reaches Debt.Lt
      (M + f'.slot true + dequeDebts e'.jobs e'.deque)
      (M + f.slot false + dequeDebts e.jobs e.deque) := by
    intro M
    have h := hpay.add_right (M + {f.call.rest} + {.any f.k} + dequeDebts e.jobs e.deque)
    have hslot : f'.slot true =
        f.call.promfn.1.loop + 0 + {f.call.promfn.1.rest} + {.any f.k} := rfl
    rw [hslot, hrest, hdeque, Frame.slot]
    convert h using 1
    · abel
    · simp only [Bool.false_eq_true, if_false]
      abel
  refine ⟨⟨hlink, fun he => hbody (hl.2 ?_)⟩, ?_⟩
  · cases p with
    | inside => rfl
    | _ => cases he
  · cases p with
    | promoting =>
      show Reaches Debt.Lt (f.call.promfn.1.turn + f'.slot true + _)
        (f.call.turn + f.slot false + _)
      rw [hturn]
      exact hpaid _
    | before =>
      show Reaches Debt.Lt (f.call.promfn.1.turn + f'.slot true + _)
        (f.call.turn + f.slot f.promoted + _)
      rw [hturn, hun.resolve_right (by simp)]
      exact hpaid _
    | inside =>
      show Reaches Debt.Lt (f.call.promfn.1.turnInside + f'.slot true + _)
        (f.call.turnInside + f.slot f.promoted + _)
      rw [hinside, hun.resolve_right (by simp)]
      exact hpaid _
    | closing =>
      have h := hpaid 0
      rw [zero_add, zero_add] at h
      show Reaches Debt.Lt (f'.slot true + _) (f.slot f.promoted + _)
      rw [hun.resolve_right (by simp)]
      exact h
    | _ => cases hp

/-- The promotable calls that have not been promoted have enqueued nothing. -/
def Fresh (w : W) (fs : List (Frame V × Place W V)) (deque : List (JobId W)) : Prop :=
  ∀ p ∈ fs, p.1.promoted = false →
    (p.2.Promotable → p.1.call.Inv false p.1.pend) ∧ ∀ nm, p.1.job w nm ∉ deque

omit [DecidableEq W] [Inhabited V] in
theorem Holds.fresh_frames {fs : List (Frame V × Place W V)} {js : List (JobId W × Phase W)}
    {deque : List (JobId W)} {next : ℕ} (h : Holds w fs js deque next jobs) :
    Fresh w fs deque := by
  intro p hp hun
  have hf := h.frames p hp
  refine ⟨fun hprom => hf.promotable hprom (.inl hun), fun nm hmem => ?_⟩
  have hq : (jobs (p.1.job w nm)).phase = .queued := h.matched.queued _ hmem
  rw [hf.idle (.inl hun) nm] at hq
  cases hq

/-- What a promotion does to the jobs of other frames. -/
structure Beside (fids : List ℕ) (e e' : Env W V) : Prop where
  deque : ∀ J ∈ e'.deque, J ∈ e.deque ∨ J.frame ∈ fids
  jobs : ∀ J, J.frame ∉ fids → e'.jobs J = e.jobs J

omit [DecidableEq W] [Inhabited V] in
theorem Beside.trans {fids fids' : List ℕ} {e e' e'' : Env W V} (h : Beside fids e e')
    (h' : Beside fids' e' e'') : Beside (fids' ++ fids) e e'' where
  deque J hJ := by
    rcases h'.deque J hJ with hJ | hJ
    · exact (h.deque J hJ).imp_right (List.mem_append_right _)
    · exact .inr (List.mem_append_left _ hJ)
  jobs J hJ := by
    rw [List.mem_append, not_or] at hJ
    exact (h'.jobs J hJ.1).trans (h.jobs J hJ.2)

/-- One slot of `promote_front`. -/
theorem visit_beside (isOpen : Bool) (f : Frame V) (e : Env W V) (hinv : f.promoted = false →
    isOpen = true → f.call.Inv false f.pend) : Beside [f.fid] e (f.visit w isOpen e).2 := by
  rcases visit_promoted w isOpen f e with ⟨hv, -⟩ | ⟨hv, ho, -, hun⟩
  · rw [hv]
    exact ⟨fun J hJ => .inl hJ, fun _ _ => rfl⟩
  · have hnd : (f.call.promfn.2.map Spawn.name).Nodup :=
      List.nodup_reverse.mp (Call.names_nodup (hinv hun ho))
    obtain ⟨hdeque, hsame, -⟩ := spawnAll_spec (w := w) f.fid hnd
      { e with heartbeat_tokens := e.heartbeat_tokens - 1 }
    rw [hv]
    refine ⟨fun J hJ => ?_, fun J hJ => hsame J ?_⟩
    · have hJ : J ∈ (Env.spawnAll w f.fid f.call.promfn.2
        { e with heartbeat_tokens := e.heartbeat_tokens - 1 }).deque := hJ
      rw [hdeque, List.mem_append] at hJ
      rcases hJ with hJ | hJ
      · obtain ⟨nm, -, rfl⟩ := List.mem_map.mp hJ
        exact .inr (List.mem_singleton_self _)
      · exact .inl hJ
    · intro hmem
      obtain ⟨nm, -, rfl⟩ := List.mem_map.mp hmem
      exact hJ (List.mem_singleton_self _)

theorem visit_debts {f : Frame V} {p : Place W V} {isOpen : Bool} {e : Env W V}
    (hl : f.Linked p) (hopen : isOpen = true → p.Promotable ∧ (p = .promoting → f.promoted = true))
    (hinv : f.promoted = false → isOpen = true → f.call.Inv false f.pend)
    (hnew : f.promoted = false → ∀ nm, f.job w nm ∉ e.deque) {jobs jobs' : Jobs W V}
    (hjobs : f.debts w jobs' p = f.debts w jobs p) :
    (f.visit w isOpen e).1.Linked p ∧
    Reaches Debt.Lt ((f.visit w isOpen e).1.debts w jobs' p +
        dequeDebts (f.visit w isOpen e).2.jobs (f.visit w isOpen e).2.deque)
      (f.debts w jobs p + dequeDebts e.jobs e.deque) := by
  rcases visit_promoted w isOpen f e with ⟨hv, -⟩ | ⟨hv, ho, -, hun⟩
  · rw [hv, hjobs]
    exact ⟨hl, .refl _⟩
  · obtain ⟨hprom, hnp⟩ := hopen ho
    have h := promote_debts (w := w) (e := { e with heartbeat_tokens := e.heartbeat_tokens - 1 })
      hl (hinv hun ho) hprom (.inl hun) (hnew hun) jobs jobs'
    have hp : p.promoted = p := by
      cases p with
      | promoting => exact absurd (hnp rfl) (by simp [hun])
      | _ => rfl
    rw [hp] at h
    rw [hv]
    exact h

/-- `promote_front`, below what is on top of the stack. -/
theorem promoteStack_debts (jobs : Jobs W V) {stack : List (Item W V)} {e : Env W V}
    (hl : ∀ p ∈ stack.flatMap Item.frames, p.1.Linked p.2)
    (hfresh : Fresh w (stack.flatMap Item.frames) e.deque)
    (hfids : ((stack.flatMap Item.frames).map fun p => p.1.fid).Pairwise (· > ·)) :
    (∀ p ∈ (promoteStack w stack e).1.flatMap Item.frames, p.1.Linked p.2) ∧
    Beside ((stack.flatMap Item.frames).map fun p => p.1.fid) e (promoteStack w stack e).2 ∧
    Reaches Debt.Lt (stackDebts w jobs (promoteStack w stack e).1 +
        dequeDebts (promoteStack w stack e).2.jobs (promoteStack w stack e).2.deque)
      (stackDebts w jobs stack + dequeDebts e.jobs e.deque) := by
  induction stack with
  | nil => exact ⟨List.forall_mem_nil _, ⟨fun _ hJ => .inl hJ, fun _ _ => rfl⟩, .refl _⟩
  | cons it rest ih =>
    cases it with
    | opr J =>
      obtain ⟨hl', hbeside, hpay⟩ := ih hl hfresh hfids
      refine ⟨hl', hbeside, ?_⟩
      rw [stackDebts_cons, promoteStack, stackDebts_cons, add_assoc, add_assoc]
      exact (Reaches.refl _).add hpay
    | frame f sus =>
      have hsub : ∀ p ∈ rest.flatMap Item.frames, p ∈ (Item.frame f sus :: rest).flatMap
          (Item.frames (W := W)) := fun p hp => List.mem_cons_of_mem _ hp
      have hself : (f, sus.place) ∈ (Item.frame f sus :: rest).flatMap (Item.frames (W := W)) :=
        List.mem_cons_self
      obtain ⟨hlt, hfids⟩ := List.pairwise_cons.mp hfids
      obtain ⟨hl', hbeside, hpay⟩ := ih (fun p hp => hl p (hsub p hp))
        (fun p hp => hfresh p (hsub p hp)) hfids
      have hinv : f.promoted = false → sus.isOpen = true → f.call.Inv false f.pend :=
        fun hun ho => (hfresh _ hself hun).1 (Sus.promotable ho)
      have hnew : f.promoted = false → ∀ nm, f.job w nm ∉ (promoteStack w rest e).2.deque := by
        intro hun nm hmem
        rcases hbeside.deque _ hmem with hmem | hmem
        · exact (hfresh _ hself hun).2 nm hmem
        · exact lt_irrefl _ (hlt _ hmem)
      obtain ⟨hlink, hvisit⟩ := visit_debts (hl _ hself)
        (fun ho => ⟨Sus.promotable ho, fun he => by cases sus <;> cases he⟩) hinv hnew
        (sus_debts jobs jobs f sus)
      refine ⟨List.forall_mem_cons.mpr ⟨hlink, hl'⟩,
        hbeside.trans (visit_beside _ f _ hinv), ?_⟩
      set e' := (promoteStack w rest e).2
      set rest' := (promoteStack w rest e).1
      have hmid : f.debts w jobs sus.place + dequeDebts e'.jobs e'.deque +
          (ticks sus.ticks + stackDebts w jobs rest') =
          stackDebts w jobs rest' + dequeDebts e'.jobs e'.deque +
            (f.debts w jobs sus.place + ticks sus.ticks) := by abel
      have h := (hvisit.add_right (ticks sus.ticks + stackDebts w jobs rest')).trans
        (hmid ▸ hpay.add_right (f.debts w jobs sus.place + ticks sus.ticks))
      rw [stackDebts_cons, promoteStack, stackDebts_cons, Item.debts, Item.debts]
      convert h using 1 <;> abel

variable {x : Worker W V}

/-- The slot of the call on top of the stack comes last. -/
theorem visit_top_debts {f : Frame V} {pc : Pc V} {fs : List (Frame V × Place W V)}
    {js : List (JobId W × Phase W)} {next : ℕ} {e e' : Env W V}
    (h : Holds w ((f, pc.place) :: fs) js e.deque next e.jobs) (hl : f.Linked pc.place (W := W))
    (hbeside : Beside (fs.map fun p => p.1.fid) e e') :
    (f.visit w pc.isOpen e').1.Linked pc.place (W := W) ∧
    Reaches Debt.Lt
      ((f.visit w pc.isOpen e').1.debts w (f.visit w pc.isOpen e').2.jobs pc.place +
        dequeDebts (f.visit w pc.isOpen e').2.jobs (f.visit w pc.isOpen e').2.deque)
      (f.debts w e.jobs pc.place + dequeDebts e'.jobs e'.deque) := by
  have hf : FrameOk w e.jobs f pc.place := h.frames _ List.mem_cons_self
  have hfresh := h.fresh_frames _ List.mem_cons_self
  have hnot : f.fid ∉ fs.map fun p => p.1.fid := fun hmem =>
    lt_irrefl _ ((List.pairwise_cons.mp (List.pairwise_cons.mp h.fids).2).1 _ hmem)
  have hnew : f.promoted = false → ∀ nm, f.job w nm ∉ e'.deque := by
    intro hun nm hmem
    rcases hbeside.deque _ hmem with hmem | hmem
    · exact (hfresh hun).2 nm hmem
    · exact hnot hmem
  -- the call may wait for the code of a job, which is of none of the frames below
  have hjobs : f.debts w (f.visit w pc.isOpen e').2.jobs pc.place = f.debts w e.jobs pc.place := by
    cases hopen : pc.isOpen with
    | true => cases pc <;> first | rfl | cases hopen
    | false =>
      rw [Frame.visit, if_neg (by simp)]
      exact debts_congr fun J => congrArg Job.run (hbeside.jobs (f.job w J) hnot)
  refine visit_debts hl (fun ho => ⟨Pc.promotable ho, fun he => ?_⟩)
    (fun hun ho => (hfresh hun).1 (Pc.promotable ho)) hnew hjobs
  cases pc with
  | prom before => exact hf.place.1
  | _ => cases he

/-- `promote_front` pays for the jobs it enqueues. -/
theorem promote_front_debts (hok : x.Ok w jobs) (hl : x.Linked) (hbs tokens : UInt32) :
    let r := Worker.promote_front w { x with
      num_heartbeats := hbs, heartbeat_tokens := tokens } jobs
    r.1.Linked ∧ Reaches Debt.Lt (r.1.debts w r.2) (x.debts w jobs) := by
  rw [Worker.Ok, Worker.frames, Worker.oprs] at hok
  rw [Worker.Linked, Worker.frames] at hl
  have hfids := (List.pairwise_cons.mp hok.fids).2
  rw [List.map_append, List.pairwise_append] at hfids
  have hfresh := hok.fresh_frames
  obtain ⟨hl', hbeside, hpay⟩ := promoteStack_debts (w := w) jobs
    (e := ⟨tokens, x.deque, jobs⟩) (fun p hp => hl p (List.mem_append_right _ hp))
    (fun p hp => hfresh p (List.mem_append_right _ hp)) hfids.2.1
  have hhome := promoteStack_atHome (w := w) x.stack ⟨tokens, x.deque, jobs⟩
  have hstack : ∀ jobs' : Jobs W V, Reaches Debt.Lt
      (stackDebts w jobs' (promoteStack w x.stack ⟨tokens, x.deque, jobs⟩).1 +
        dequeDebts (promoteStack w x.stack ⟨tokens, x.deque, jobs⟩).2.jobs
          (promoteStack w x.stack ⟨tokens, x.deque, jobs⟩).2.deque)
      (stackDebts w jobs x.stack + dequeDebts jobs x.deque) := fun jobs' => by
    rw [stackDebts_congr jobs]
    exact hpay
  obtain ⟨point, stack, deque, tokens', disable, num, missed, next⟩ := x
  cases point with
  | frame f pc =>
    obtain ⟨hlink, htop⟩ := visit_top_debts (e := ⟨tokens, deque, jobs⟩) hok
      (hl _ List.mem_cons_self) hbeside
    refine ⟨List.forall_mem_cons.mpr ⟨hlink, hl'⟩, ?_⟩
    set e := (promoteStack w stack ⟨tokens, deque, jobs⟩).2
    set stack' := (promoteStack w stack ⟨tokens, deque, jobs⟩).1
    set v := f.visit w pc.isOpen e
    have hmid : f.debts w jobs pc.place + dequeDebts e.jobs e.deque +
        (ticks pc.ticks + stackDebts w jobs stack') =
        stackDebts w jobs stack' + dequeDebts e.jobs e.deque +
          (f.debts w jobs pc.place + ticks pc.ticks) := by abel
    have h := (htop.add_right (ticks pc.ticks + stackDebts w jobs stack')).trans
      (hmid ▸ hpay.add_right (f.debts w jobs pc.place + ticks pc.ticks))
    rw [Worker.debts, Worker.debts, stackDebts_congr jobs]
    show Reaches Debt.Lt (v.1.debts w v.2.jobs pc.place + ticks pc.ticks +
      stackDebts w jobs stack' + dequeDebts v.2.jobs v.2.deque)
      (f.debts w jobs pc.place + ticks pc.ticks + stackDebts w jobs stack + dequeDebts jobs deque)
    convert h using 1 <;> abel
  | code c =>
    refine ⟨hl', ?_⟩
    rw [Worker.debts, Worker.debts, add_assoc, add_assoc]
    exact (Reaches.refl _).add (hstack _)
  | sched =>
    refine ⟨hl', ?_⟩
    rw [Worker.debts, Worker.debts, add_assoc, add_assoc]
    exact (Reaches.refl _).add (hstack _)
  | opr J stage =>
    refine ⟨hl', ?_⟩
    rw [Worker.debts, Worker.debts, add_assoc, add_assoc]
    have hoprs := hok.oprs
    have hpoint : (Point.opr J stage : Point W V).debts w
        (promoteStack w stack ⟨tokens, deque, jobs⟩).2.jobs =
        (Point.opr J stage : Point W V).debts w jobs := by
      cases stage with
      | ended => rfl
      | _ =>
        obtain ⟨-, -, hne⟩ := hoprs (J, .taken w) List.mem_cons_self
        rw [Point.debts, Point.debts, hhome.run_eq hne] <;> simp
    exact (Reaches.of_le hpoint.le).add (hstack _)

theorem heartbeat_debts (hok : x.Ok w jobs) (hl : x.Linked) :
    (x.heartbeat_handler w jobs).1.Linked ∧
    Reaches Debt.Lt ((x.heartbeat_handler w jobs).1.debts w (x.heartbeat_handler w jobs).2)
      (x.debts w jobs) := by
  rw [Worker.heartbeat_handler]
  by_cases hd : x.disable_heartbeats
  · rw [if_pos hd]
    exact ⟨hl, .refl _⟩
  · rw [if_neg hd]
    exact promote_front_debts hok hl _ _

/-! ## Steps of a worker -/

variable {r : Worker W V × Jobs W V} {f : Frame V}

theorem ticks_lt {m n : ℕ} (h : m < n) :
    Descends Debt.Lt (ticks m : Multiset (Debt V)) (ticks n) := by
  have hle : Multiset.replicate (m + 1) (.tick : Debt V) ≤ ticks n :=
    Multiset.replicate_le_replicate _ |>.mpr h
  rw [Multiset.replicate_succ, ← Multiset.singleton_add, add_comm] at hle
  exact (Descends.drop_right _ _).trans_reaches (.of_le hle)

/-- One of a family of sequences of operations follows. -/
theorem tails_pay {ι : Type} (g : ι → List (Op V)) (i : ι) :
    Descends Debt.Lt (opsDebts (g i)) {.tails g} := .pay fun _ hd => .tails g i hd

/-- A step of a worker pays, and keeps the invariant of the loops. -/
structure Repaid (w : W) (x : Worker W V) (jobs : Jobs W V) (r : Worker W V × Jobs W V) : Prop where
  linked : r.1.Linked
  pays : Descends Debt.Lt (r.1.debts w r.2) (x.debts w jobs)

omit [DecidableEq W] in
/-- What is below and what is enqueued stay. -/
theorem debts_pay {jobs' : Jobs W V} {y : Worker W V}
    (hdeque : dequeDebts jobs' y.deque = dequeDebts jobs x.deque)
    (h : Descends Debt.Lt (y.point.debts w jobs' + stackDebts w jobs y.stack)
      (x.point.debts w jobs + stackDebts w jobs x.stack)) :
    Descends Debt.Lt (y.debts w jobs') (x.debts w jobs) := by
  rw [Worker.debts, Worker.debts, hdeque, stackDebts_congr jobs]
  exact h.add _

/-- The job popped from the deque is paid with, or dropped. -/
theorem pop_pays {X : JobId W} {d : List (JobId W)} {y : Worker W V} (hd : x.deque = X :: d)
    (hy : y.deque = d) (hstack : y.stack = x.stack)
    (h : Descends Debt.Lt (y.point.debts w (Function.update jobs X ((jobs X).move .popped)))
      (x.point.debts w jobs + {.code (jobs X).run})) :
    Descends Debt.Lt (y.debts w (Function.update jobs X ((jobs X).move .popped)))
      (x.debts w jobs) := by
  rw [Worker.debts, Worker.debts, stackDebts_congr jobs, hstack, hy, hd, dequeDebts_cons,
    dequeDebts_congr fun J _ => update_run_eq (by rfl) J]
  have hpay := (h.add_reaches (Reaches.of_le (Multiset.zero_le (ticks 4)))).add
    (stackDebts w jobs x.stack + dequeDebts jobs d)
  convert hpay using 1
  · rw [add_zero, add_assoc]
  · abel

/-! ### Steps of a call -/

section
variable {ops : List (Op V)} (hbelow : ∀ p ∈ x.stack.flatMap Item.frames, p.1.Linked p.2)
include hbelow

omit [DecidableEq W] in
/-- The call moves on. -/
theorem repaid_goto {f' : Frame V} {pc pc' : Pc V} {y : Worker W V} (hp : x.point = .frame f pc)
    (hl : f'.call.Linked) (hin : pc'.place ≠ (.inside : Place W V)) (hstack : y.stack = x.stack)
    (hdeque : y.deque = x.deque)
    (h : Descends Debt.Lt (f'.debts w jobs pc'.place + ticks pc'.ticks)
      (f.debts w jobs pc.place + ticks pc.ticks)) : Repaid w x jobs (y.goto f' pc', jobs) := by
  have hy : (y.goto f' pc').frames = (f', pc'.place) :: x.stack.flatMap Item.frames := by
    rw [← hstack]
    rfl
  refine ⟨?_, debts_pay (by rw [← hdeque]; rfl) ?_⟩
  · rw [Worker.Linked, hy]
    exact linked_cons hl hin hbelow
  · rw [hp]
    show Descends Debt.Lt (_ + stackDebts w jobs y.stack) _
    rw [hstack]
    exact h.add _

omit [DecidableEq W] in
/-- The call takes a step of the library. -/
theorem repaid_tick {f' : Frame V} {pc pc' : Pc V} {y : Worker W V} (hp : x.point = .frame f pc)
    (hl : f'.call.Linked) (hin : pc'.place ≠ (.inside : Place W V)) (hstack : y.stack = x.stack)
    (hdeque : y.deque = x.deque) (hf : f'.debts w jobs pc'.place = f.debts w jobs pc.place)
    (h : pc'.ticks < pc.ticks) : Repaid w x jobs (y.goto f' pc', jobs) :=
  repaid_goto hbelow hp hl hin hstack hdeque (hf ▸ (Reaches.refl _).add_descends (ticks_lt h))

/-- The promotion function enqueues its jobs. -/
theorem repaid_prom {before : Bool} (hp : x.point = .frame f (.prom before))
    (h : Holds w ((f, .promoting) :: x.stack.flatMap Item.frames) (x.stack.flatMap (Item.oprs w))
      x.deque x.next jobs) (hprom : f.promoted = true) (hl : f.call.Linked) :
    Repaid w x jobs ((x.setEnv (f.prom w (x.env jobs)).2).goto (f.prom w (x.env jobs)).1
      (.restore before), (f.prom w (x.env jobs)).2.jobs) := by
  have hf : FrameOk w jobs f .promoting := h.frames _ List.mem_cons_self
  have hfp : { f with promoted := true } = f := by
    obtain ⟨fid, call, k, promoted, res, pend, history⟩ := f
    have hprom : promoted = true := hprom
    rw [hprom]
  obtain ⟨hl', hpay⟩ := promote_debts (e := x.env jobs) (f := f) (p := .promoting)
    (Frame.linked_of_ne hl (by simp)) hf.place.2 trivial (.inr rfl)
    (fun nm hmem => by
      have hq : (jobs (f.job w nm)).phase = .queued := h.matched.queued _ hmem
      rw [hf.idle (.inr rfl) nm] at hq
      cases hq) jobs (f.prom w (x.env jobs)).2.jobs
  rw [hfp] at hl' hpay
  refine ⟨List.forall_mem_cons.mpr ⟨hl', hbelow⟩, ?_⟩
  rw [Worker.debts, Worker.debts, stackDebts_congr jobs, hp]
  set e := (f.prom w (x.env jobs)).2
  have h := (hpay.add_descends (ticks_lt (m := 4) (n := 5) (by decide))).add
    (stackDebts w jobs x.stack)
  convert h using 1
  · show (f.prom w (x.env jobs)).1.debts w e.jobs .before + ticks 4 + stackDebts w jobs x.stack +
      dequeDebts e.jobs e.deque = (f.prom w (x.env jobs)).1.debts w e.jobs .before +
        dequeDebts e.jobs e.deque + ticks 4 + stackDebts w jobs x.stack
    abel
  · show f.debts w jobs .promoting + ticks 5 + stackDebts w jobs x.stack +
      dequeDebts jobs x.deque = f.debts w jobs .promoting + dequeDebts jobs x.deque + ticks 5 +
        stackDebts w jobs x.stack
    abel

omit [DecidableEq W] in
/-- The body runs code. -/
theorem repaid_run {c : Code V} (hp : x.point = .frame f .body)
    (hnext : f.call.next = some (.call c)) (hl : f.call.Linked) :
    Repaid w x jobs (x.enter (.frame { f with history := f.history ++ [.body] } .inBody) c,
      jobs) := by
  obtain ⟨hbody, hpay⟩ := Call.next_call_debts hnext
  refine ⟨List.forall_mem_cons.mpr ⟨⟨hl, fun _ => hbody⟩, hbelow⟩, debts_pay rfl ?_⟩
  have h := (hpay.add_descends (ticks_lt (m := 2) (n := 3) (by decide))).add
    (f.slot f.promoted + stackDebts w jobs x.stack)
  rw [hp]
  show Descends Debt.Lt ({.code c} + stackDebts w jobs (_ :: x.stack))
    (f.call.turn + f.slot f.promoted + ticks 3 + stackDebts w jobs x.stack)
  rw [stackDebts_cons]
  convert h using 1
  · show {.code c} + (f.call.turnInside + f.slot f.promoted + ticks 2 +
      stackDebts w jobs x.stack) = _
    abel
  · abel

omit [DecidableEq W] in
/-- The loop goes on. -/
theorem repaid_move {call : Call V} (hp : x.point = .frame f .body)
    (hnext : f.call.next = some (.move call)) (hl : f.call.Linked) :
    Repaid w x jobs (x.goto { f with call := call } .body, jobs) := by
  obtain ⟨hlink, hspawns, hrest, hpay⟩ := Call.move_debts hnext hl
  refine repaid_goto hbelow hp hlink (by simp [Pc.place]) rfl rfl ?_
  have h := hpay.add ((if f.promoted then 0 else f.call.spawns) + {f.call.rest} + {.any f.k} +
    ticks 3)
  convert h using 1
  · show call.turn + (call.loop + (if f.promoted then 0 else call.spawns) + {call.rest} +
      {.any f.k}) + ticks 3 = _
    rw [hspawns, hrest]
    abel
  · show f.call.turn + (f.call.loop + (if f.promoted then 0 else f.call.spawns) +
      {f.call.rest} + {.any f.k}) + ticks 3 = _
    abel

omit [DecidableEq W] in
/-- The slot is closed. -/
theorem repaid_closed (hp : x.point = .frame f .closed) (hops : f.call.after f.promoted = some ops)
    (hl : f.call.Linked) : Repaid w x jobs (x.goto f (.act ops), jobs) := by
  refine repaid_goto hbelow hp hl (by simp [Pc.place]) rfl rfl ?_
  have hpay : Descends Debt.Lt (opsDebts ops) {f.call.rest} :=
    .pay fun _ hd => Call.after_debts hops hd
  have h := (Reaches.of_le (Multiset.zero_le (f.call.loop +
    (if f.promoted then 0 else f.call.spawns) + ticks 1))).add_descends (hpay.add {.any f.k})
  convert h using 1
  · show opsDebts ops + {.any f.k} + ticks 0 = _
    rw [zero_add]
    exact add_zero _
  · show f.call.loop + (if f.promoted then 0 else f.call.spawns) + {f.call.rest} +
      {.any f.k} + ticks 1 = _
    abel

omit [DecidableEq W] in
/-- The call returns. -/
theorem repaid_return (hp : x.point = .frame f (.act [])) :
    Repaid w x jobs ({ x with point := .code (f.k f.res) }, jobs) := by
  refine ⟨hbelow, debts_pay rfl ?_⟩
  have hpay : Reaches Debt.Lt {.code (f.k f.res)} (opsDebts [.call .body (f.k f.res)]) :=
    .of_le (Multiset.singleton_le.mpr (by simp [opsDebts]))
  rw [hp]
  refine Descends.add ?_ _
  show Descends Debt.Lt {.code (f.k f.res)} (0 + {.any f.k} + ticks 0)
  rw [zero_add, ticks_zero, add_zero]
  exact hpay.trans_descends (tails_pay (fun v => [.call .body (f.k v)]) f.res)

omit [DecidableEq W] in
/-- Code is run above the call, which then has one step less to take. -/
theorem repaid_enter {jobs' : Jobs W V} {pc : Pc V} {f' : Frame V} {sus : Sus V} {c : Code V}
    (hp : x.point = .frame f pc) (hl : f'.call.Linked)
    (hin : sus.place ≠ (.inside : Place W V)) (hjobs : ∀ J, (jobs' J).run = (jobs J).run)
    (hpc : f.debts w jobs pc.place + ticks pc.ticks =
      {.code c} + ticks 1 + (f'.debts w jobs sus.place + ticks sus.ticks)) :
    Repaid w x jobs (x.enter (.frame f' sus) c, jobs') := by
  refine ⟨linked_cons hl hin hbelow,
    debts_pay (dequeDebts_congr fun J _ => hjobs J) ?_⟩
  have h := ((Descends.drop_right (r := Debt.Lt) {.code c} .tick).add
    (f'.debts w jobs sus.place + ticks sus.ticks)).add (stackDebts w jobs x.stack)
  rw [hp]
  show Descends Debt.Lt ({.code c} + stackDebts w jobs (.frame f' sus :: x.stack))
    (f.debts w jobs pc.place + ticks pc.ticks + stackDebts w jobs x.stack)
  rw [stackDebts_cons, hpc, ← add_assoc]
  exact h

/-- `sync` takes back its job, or finds that it is stolen. -/
theorem repaid_sync {J : JobName} {reclaim : Bool} {l : List JobName}
    (hp : x.point = .frame f (.act (.sync J reclaim :: ops)))
    (h : Holds w ((f, .rest (.sync J reclaim :: ops)) :: x.stack.flatMap Item.frames)
      (x.stack.flatMap (Item.oprs w)) x.deque x.next jobs) (hpend : f.pend = J :: l)
    (hl : f.call.Linked) (hstep : x.frameStep w jobs f (.act (.sync J reclaim :: ops)) = some r) :
    Repaid w x jobs r := by
  rcases h.find hpend with ⟨hq, d, hd⟩ | ⟨hst, hd⟩
  · simp only [Worker.frameStep, Worker.try_dequeue_cons jobs hd] at hstep
    cases hstep
    have hpop : ∀ n, n < 4 → Descends Debt.Lt
        ({.code (jobs (f.job w J)).run} + (opsDebts ops + {.any f.k}) + ticks n)
        ({.tails fun _ : V => ops} + ticks 4 + {.any f.k} + ticks 0 +
          {.code (jobs (f.job w J)).run}) := by
      intro n hn
      have h := ((tails_pay (fun _ : V => ops) default).add_reaches
        (ticks_lt hn).reaches).add ({.any f.k} + {.code (jobs (f.job w J)).run})
      convert h using 1
      · abel
      · rw [ticks_zero]
        abel
    have hrun : (Function.update jobs (f.job w J) ((jobs (f.job w J)).move .popped)
        (f.job w J)).run = (jobs (f.job w J)).run := update_run_eq (by rfl) _
    cases reclaim with
    | true =>
      refine ⟨linked_cons hl (by simp [Pc.place]) hbelow, pop_pays hd rfl rfl ?_⟩
      rw [hp]
      show Descends Debt.Lt ({.code (Job.run _)} + (opsDebts ops + {.any f.k}) + ticks 3) _
      exact hrun ▸ hpop 3 (by decide)
    | false =>
      refine ⟨linked_cons hl (by simp [Pc.place]) hbelow, pop_pays hd rfl rfl ?_⟩
      rw [hp]
      show Descends Debt.Lt ({.code (Job.run _)} + (opsDebts ops + {.any f.k}) + ticks 1) _
      exact hrun ▸ hpop 1 (by decide)
  · simp only [Worker.frameStep, Worker.try_dequeue_nil jobs hd] at hstep
    cases hstep
    refine repaid_goto hbelow hp hl (by simp [Pc.place]) rfl rfl ?_
    have h := (Reaches.refl ({.tails fun _ : V => ops} + {.any f.k})).add_descends
      (ticks_lt (m := 2) (n := 4) (by decide))
    convert h using 1
    · rfl
    · show {.tails fun _ : V => ops} + ticks 4 + {.any f.k} + ticks 0 = _
      rw [ticks_zero]
      abel

/-- So does `sync_is_stolen`, which drops the job that it takes back. -/
theorem repaid_sync_is_stolen {J : JobName} {unstolen : Entry V × Code V}
    {stolen : V → Entry V × Code V} {l : List JobName}
    (hp : x.point = .frame f (.act (.sync_is_stolen J unstolen stolen :: ops)))
    (h : Holds w ((f, .rest (.sync_is_stolen J unstolen stolen :: ops)) ::
      x.stack.flatMap Item.frames) (x.stack.flatMap (Item.oprs w)) x.deque x.next jobs)
    (hpend : f.pend = J :: l) (hl : f.call.Linked)
    (hstep : x.frameStep w jobs f (.act (.sync_is_stolen J unstolen stolen :: ops)) = some r) :
    Repaid w x jobs r := by
  have hops : opsDebts (.sync_is_stolen J unstolen stolen :: ops) =
      {.tails fun sr => .call (stolen sr).1 (stolen sr).2 :: ops} +
        {.tails fun _ : V => .call unstolen.1 unstolen.2 :: ops} + ticks 4 := rfl
  rcases h.find hpend with ⟨hq, d, hd⟩ | ⟨hst, hd⟩
  · simp only [Worker.frameStep, Worker.try_dequeue_cons jobs hd] at hstep
    cases hstep
    refine ⟨linked_cons hl (by simp [Pc.place]) hbelow, pop_pays hd rfl rfl ?_⟩
    have hpay := tails_pay (fun _ : V => .call unstolen.1 unstolen.2 :: ops) default
    have h := (hpay.add {.any f.k}).add_reaches (Reaches.of_le (Multiset.zero_le
      ({.tails fun sr => .call (stolen sr).1 (stolen sr).2 :: ops} + ticks 4 +
        {.code (jobs (f.job w J)).run})))
    rw [hp]
    convert h using 1
    · rfl
    · show opsDebts (.sync_is_stolen J unstolen stolen :: ops) + {.any f.k} + ticks 0 +
        {.code (jobs (f.job w J)).run} = _
      rw [hops, ticks_zero]
      abel
  · simp only [Worker.frameStep, Worker.try_dequeue_nil jobs hd] at hstep
    cases hstep
    refine repaid_goto hbelow hp hl (by simp [Pc.place]) rfl rfl ?_
    have h := ((Reaches.refl ({.tails fun sr => .call (stolen sr).1 (stolen sr).2 :: ops} +
      {.any f.k})).add_descends (ticks_lt (m := 2) (n := 4) (by decide))).add_reaches
        (.of_le (Multiset.zero_le {.tails fun _ : V => .call unstolen.1 unstolen.2 :: ops}))
    convert h using 1
    · rfl
    · show opsDebts (.sync_is_stolen J unstolen stolen :: ops) + {.any f.k} + ticks 0 = _
      rw [hops, ticks_zero]
      abel

omit [DecidableEq W] in
/-- A stolen job is finished, or the worker looks for other jobs. -/
theorem repaid_finished {J : JobName} {next : V → List (Op V)}
    (hp : x.point = .frame f (.finished J next)) (hl : f.call.Linked) (sr : V) :
    Repaid w x jobs (x.goto f.joined (.act (next sr)), jobs) ∧
    Repaid w x jobs ({ x with point := .sched, stack := .frame f (.waiting J next) :: x.stack },
      jobs) := by
  constructor
  · refine repaid_goto hbelow hp hl (by simp [Pc.place]) rfl rfl ?_
    exact ((tails_pay next sr).add _).add_reaches (.of_le (Multiset.zero_le _))
  · refine ⟨linked_cons hl (by simp [Sus.place]) hbelow, debts_pay rfl ?_⟩
    rw [hp]
    have h := ((Reaches.refl ({.tails next} + {.any f.k})).add_descends
      (ticks_lt (m := 1) (n := 2) (by decide))).add (stackDebts w jobs x.stack)
    show Descends Debt.Lt (0 + stackDebts w jobs (_ :: x.stack)) _
    rw [zero_add, stackDebts_cons]
    exact h

end

theorem frameStep_debts {pc : Pc V} (hp : x.point = .frame f pc)
    (h : Holds w ((f, pc.place) :: x.stack.flatMap Item.frames) (x.stack.flatMap (Item.oprs w))
      x.deque x.next jobs)
    (hs : SlotOk x.stack x.heartbeat_tokens x.disable_heartbeats f pc) (hl : f.call.Linked)
    (hbelow : ∀ p ∈ x.stack.flatMap Item.frames, p.1.Linked p.2)
    (hstep : x.frameStep w jobs f pc = some r) : Repaid w x jobs r := by
  -- most steps leave the debts of the call as they are
  have htick : ∀ {y : Worker W V} {pc' : Pc V}, y.stack = x.stack → y.deque = x.deque →
      f.debts w jobs pc'.place = f.debts w jobs pc.place →
      pc'.place ≠ (.inside : Place W V) → pc'.ticks < pc.ticks →
      Repaid w x jobs (y.goto f pc', jobs) :=
    fun hstack hdeque hf hin => repaid_tick hbelow hp hl hin hstack hdeque hf
  cases pc with
  | ctor => cases hstep; exact htick rfl rfl rfl (by simp [Pc.place]) (by simp [Pc.ticks])
  | check =>
    cases hstep
    by_cases htok : x.heartbeat_tokens ≠ 0
    · rw [if_pos htok]
      exact htick rfl rfl rfl (by simp [Pc.place]) (by simp [Pc.ticks])
    · rw [if_neg htok]
      exact htick rfl rfl rfl (by simp [Pc.place]) (by simp [Pc.ticks])
  | save => cases hstep; exact htick rfl rfl rfl (by simp [Pc.place]) (by simp [Pc.ticks])
  | disable before =>
    cases hstep
    exact htick rfl rfl rfl (by simp [Pc.place]) (by simp [Pc.ticks])
  | retest before =>
    cases hstep
    by_cases htok : x.heartbeat_tokens ≠ 0 ∧ f.promoted = false
    · rw [if_pos htok]
      exact htick rfl rfl rfl (by simp [Pc.place]) (by simp [Pc.ticks])
    · rw [if_neg htok]
      exact htick rfl rfl rfl (by simp [Pc.place]) (by simp [Pc.ticks])
  | dec before =>
    cases hstep
    exact htick rfl rfl rfl (by simp [Pc.place]) (by simp [Pc.ticks])
  | setPromoted before =>
    cases hstep
    refine repaid_tick hbelow hp hl (by simp [Pc.place]) rfl rfl ?_ (by simp [Pc.ticks])
    show f.call.turn + f.slot false = f.call.turn + f.slot f.promoted
    rw [hs.place.2.1]
  | prom before => cases hstep; exact repaid_prom hbelow hp h hs.place.2 hl
  | restore before =>
    cases hstep
    exact htick rfl rfl rfl (by simp [Pc.place]) (by simp [Pc.ticks])
  | body =>
    rcases Worker.frameStep_body w hstep with ⟨c, hnext, rfl⟩ | ⟨call, hnext, rfl⟩ | ⟨hnext, rfl⟩
    · exact repaid_run hbelow hp hnext hl
    · exact repaid_move hbelow hp hnext hl
    · refine repaid_goto hbelow hp hl (by simp [Pc.place]) rfl rfl ?_
      exact (Reaches.of_le (Multiset.le_add_left _ _)).add_descends (ticks_lt (by simp [Pc.ticks]))
  | close => cases hstep; exact htick rfl rfl rfl (by simp [Pc.place]) (by simp [Pc.ticks])
  | closed =>
    obtain ⟨ops, hops, rfl⟩ := Option.map_eq_some_iff.mp hstep
    exact repaid_closed hbelow hp hops hl
  | act ops =>
    have hpend : f.pend = joins ops := (h.frames (f, .rest ops) List.mem_cons_self).place
    cases ops with
    | nil => cases hstep; exact repaid_return hbelow hp
    | cons op ops =>
      cases op with
      | call e c =>
        cases hstep
        refine repaid_enter hbelow hp hl (by simp [Sus.place]) (fun _ => rfl) ?_
        show {.code c} + ticks 1 + opsDebts ops + {.any f.k} + ticks 0 =
          {.code c} + ticks 1 + (opsDebts ops + {.any f.k} + ticks 0)
        simp only [add_assoc]
      | sync J reclaim => exact repaid_sync hbelow hp h hpend hl hstep
      | sync_is_stolen J unstolen stolen => exact repaid_sync_is_stolen hbelow hp h hpend hl hstep
  | reclaim J ops => cases hstep; exact htick rfl rfl rfl (by simp [Pc.place]) (by simp [Pc.ticks])
  | reclaimed J tokens ops =>
    cases hstep
    exact htick rfl rfl rfl (by simp [Pc.place]) (by simp [Pc.ticks])
  | clone J ops =>
    cases hstep
    refine repaid_enter hbelow hp hl (by simp [Sus.place]) (update_run_eq (by rfl)) ?_
    show {.code (jobs (f.job w J)).run} + (opsDebts ops + {.any f.k}) + ticks 1 =
      {.code (jobs (f.job w J)).run} + ticks 1 + (opsDebts ops + {.any f.k} + 0)
    rw [add_zero, add_right_comm]
  | finished J next =>
    rcases Worker.frameStep_finished w hstep with ⟨-, rfl⟩ | rfl
    · exact (repaid_finished hbelow hp hl _).1
    · exact (repaid_finished hbelow hp hl default).2

/-! ### Steps of code and of stolen jobs -/

omit [DecidableEq W] in
/-- A call that waits has found its job finished. -/
theorem wake_pays {J : JobName} {next : V → List (Op V)} {rest : List (Item W V)} {sr : V}
    (hp : x.point = .sched) (hstack : x.stack = .frame f (.waiting J next) :: rest) :
    Descends Debt.Lt ((Worker.goto { x with stack := rest } f.joined
      (.act (next sr))).debts w jobs) (x.debts w jobs) := by
  refine debts_pay rfl ?_
  rw [hp, hstack, stackDebts_cons]
  have hpay : Descends Debt.Lt (opsDebts (next sr)) {.tails next} :=
    .pay fun _ hd => .tails next sr hd
  have h := ((hpay.add {.any f.k}).add_reaches (Reaches.of_le (Multiset.zero_le (ticks 1)))).add
    (stackDebts w jobs rest)
  show Descends Debt.Lt (opsDebts (next sr) + {.any f.k} + 0 + stackDebts w jobs rest)
    (0 + ({.tails next} + {.any f.k} + ticks 1 + stackDebts w jobs rest))
  rw [zero_add]
  exact h

/-- Code has returned to what is below it. -/
theorem returnStep_debts {v : V} (hp : x.point = .code (.ret v)) (hl : x.Linked)
    (hstep : x.returnStep w jobs v = some r) :
    Repaid w x jobs r := by
  rw [Worker.Linked, Worker.frames, hp] at hl
  have hdrop : ∀ {N M : Multiset (Debt V)}, Reaches Debt.Lt N M →
      Descends Debt.Lt N ({.code (.ret v)} + M) := by
    intro N M h
    have h' := (Descends.drop (r := Debt.Lt) (.code (.ret v))).add_reaches h
    rwa [zero_add] at h'
  rcases Worker.returnStep_cases w x jobs hstep with ⟨J, rest, hstack, rfl⟩ |
    ⟨f, rest, call, ended, hstack, hres, rfl⟩ | ⟨f, ops, rest, hstack, rfl⟩ |
    ⟨f, J, ops, rest, hstack, rfl⟩ <;> rw [hstack] at hl
  · refine ⟨hl, debts_pay (dequeDebts_congr fun X _ => update_run_eq (by rfl) X) ?_⟩
    rw [hp, hstack, stackDebts_cons]
    exact hdrop (.refl _)
  · obtain ⟨hlf, hrest⟩ := List.forall_mem_cons.mp hl
    obtain ⟨hlink, hspawns, hr, hloop, hturn⟩ := Call.resume_debts hres hlf.1 (hlf.2 rfl)
    refine ⟨List.forall_mem_cons.mpr ⟨⟨hlink, fun he => ?_⟩, hrest⟩, debts_pay rfl ?_⟩
    · cases ended <;> cases he
    rw [hp, hstack, stackDebts_cons]
    have hslot : Frame.slot { f with call := call, history := f.history ++ [.returned v] }
        f.promoted = f.slot f.promoted := by
      show call.loop + _ + {call.rest} + _ = _
      rw [hloop, hr]
      simp only [hspawns]
      rfl
    cases ended with
    | true =>
      have h := hdrop ((Reaches.of_le (r := Debt.Lt) (Multiset.le_add_left (f.slot f.promoted)
        f.call.turnInside)).add_right (ticks 2 + stackDebts w jobs rest))
      convert h using 1
      · show Frame.slot _ f.promoted + ticks 2 + stackDebts w jobs rest = _
        rw [hslot]
        abel
      · show {.code (.ret v)} + (f.call.turnInside + f.slot f.promoted + ticks 2 +
          stackDebts w jobs rest) = _
        abel
    | false =>
      have hpay : Descends Debt.Lt (ticks 1) {.code (.ret v)} :=
        .pay fun d hd => Multiset.eq_of_mem_replicate hd ▸ .tick _
      have h := hpay.add (f.call.turnInside + f.slot f.promoted + ticks 2 + stackDebts w jobs rest)
      convert h using 1
      · show call.turn + Frame.slot _ f.promoted + ticks (2 + 1) + stackDebts w jobs rest = _
        rw [hslot, hturn rfl, ticks, Multiset.replicate_add, ticks, ticks]
        abel
      · rfl
  · obtain ⟨hlf, hrest⟩ := List.forall_mem_cons.mp hl
    refine ⟨linked_cons hlf.1 (by simp [Pc.place]) hrest, debts_pay rfl ?_⟩
    rw [hp, hstack, stackDebts_cons]
    exact hdrop (.refl _)
  · obtain ⟨hlf, hrest⟩ := List.forall_mem_cons.mp hl
    refine ⟨linked_cons hlf.1 (by simp [Pc.place]) hrest,
      debts_pay (dequeDebts_congr fun X _ => update_run_eq (by rfl) X) ?_⟩
    rw [hp, hstack, stackDebts_cons]
    exact hdrop (.refl _)

/-- A step of a worker pays a debt. -/
theorem run_debts {n : ℕ} (hs : x.SlotsOk) (hok : x.Ok w jobs) (hl : x.Linked)
    (h : x.run w jobs n = some r) :
    Repaid w x jobs r := by
  have hpoint := hs.point
  rw [Worker.PointOk] at hpoint
  have hlinks := hl
  rw [Worker.Linked, Worker.frames] at hlinks
  rw [Worker.run] at h
  cases hp : x.point with
  | sched =>
    simp only [hp] at h
    obtain ⟨f, J, next, rest, hstack, -, rfl⟩ := Worker.schedStep_cases w x jobs h
    rw [hp, hstack] at hlinks
    obtain ⟨hlf, hrest⟩ := List.forall_mem_cons.mp hlinks
    exact ⟨linked_cons hlf.1 (by simp [Pc.place]) hrest, wake_pays hp hstack⟩
  | code c =>
    rw [hp] at hlinks
    simp only [hp] at h
    rcases Worker.codeStep_cases w x jobs h with ⟨v, rfl, hret⟩ | ⟨k, rfl, rfl⟩ |
      ⟨call, k, henter, rfl⟩
    · exact returnStep_debts hp hl hret
    · refine ⟨hlinks, debts_pay rfl ?_⟩
      rw [hp]
      refine Descends.add (Descends.pay fun d hd => ?_) _
      exact Multiset.mem_singleton.mp hd ▸ .choose k n
    · refine ⟨linked_cons (Call.linked_enter henter) (by simp [Pc.place]) hlinks,
        debts_pay rfl ?_⟩
      rw [hp]
      refine Descends.add (Descends.pay fun d hd => ?_) _
      rcases Multiset.mem_add.mp hd with hd | hd
      · refine .enter henter ?_
        have hdebts : call.debts k = call.turn + (call.loop + call.spawns + {call.rest} +
            {.any k}) := by
          rw [Call.debts]
          abel
        exact hdebts ▸ hd
      · exact Multiset.eq_of_mem_replicate hd ▸ .tick c
  | frame f pc =>
    simp only [hp] at hpoint h
    rw [hp] at hlinks
    rw [Worker.Ok, Worker.frames, Worker.oprs] at hok
    rw [hp] at hok
    obtain ⟨hlf, hrest⟩ := List.forall_mem_cons.mp hlinks
    exact frameStep_debts hp hok hpoint hlf.1 hrest h
  | opr J stage =>
    simp only [hp] at h
    cases h
    rw [hp] at hlinks
    cases stage with
    | tokens =>
      refine ⟨hlinks, debts_pay rfl ?_⟩
      rw [hp]
      exact Descends.add ((Reaches.refl _).add_descends (ticks_lt (by simp [Stage.ticks]))) _
    | run =>
      refine ⟨hlinks, debts_pay (dequeDebts_congr fun X _ => update_run_eq (by rfl) X) ?_⟩
      rw [hp]
      have h := ((Reaches.refl {.code (jobs J).run}).add_descends
        (ticks_lt (m := 1) (n := 2) (by decide))).add (stackDebts w jobs x.stack)
      show Descends Debt.Lt ({.code (jobs J).run} + stackDebts w jobs (.opr J :: x.stack)) _
      rw [stackDebts_cons, ← add_assoc]
      exact h
    | ended =>
      refine ⟨hlinks, debts_pay (dequeDebts_congr fun X _ => update_run_eq (by rfl) X) ?_⟩
      rw [hp]
      exact Descends.add (ticks_lt (m := 0) (n := 1) (by decide)) _

end

/-! ## Steps of the system -/

section
variable [DecidableEq W] [Inhabited V] {w v : W} {jobs jobs' : Jobs W V} {x : Worker W V}
  {s s' : State W V}

omit [DecidableEq W] [Inhabited V] in
/-- The debts of a worker depend on the code of its jobs and of those it has stolen. -/
theorem worker_debts_congr (hrun : ∀ J : JobId W, J.owner = v ∨ (jobs J).phase.RunBy v →
    (jobs' J).run = (jobs J).run) (hok : x.Ok v jobs) : x.debts v jobs' = x.debts v jobs := by
  have hdeque : dequeDebts jobs' x.deque = dequeDebts jobs x.deque :=
    dequeDebts_congr fun J hJ => hrun J (.inl (mem_owed (hok.matched.mem_owed hJ)).1)
  have hpoint : x.point.debts v jobs' = x.point.debts v jobs := by
    have hoprs := hok.oprs
    rw [Worker.oprs] at hoprs
    cases hp : x.point with
    | frame f pc =>
      rw [Point.debts, Point.debts, debts_congr fun J => hrun (f.job v J) (.inl rfl)]
    | opr J stage =>
      rw [hp] at hoprs
      cases stage with
      | ended => rfl
      | _ =>
        obtain ⟨hph, hrb, -⟩ := hoprs (J, .taken v) List.mem_cons_self
        have hph : (jobs J).phase = .taken v := hph
        rw [Point.debts, Point.debts, hrun J (.inr (hph ▸ hrb))] <;> simp
    | _ => rfl
  rw [Worker.debts, Worker.debts, hdeque, hpoint, stackDebts_congr jobs]

omit [DecidableEq W] [Inhabited V] in
theorem Others.run_eq {fs : List (Frame V × Place W V)} (h : Others w fs jobs jobs') (hv : v ≠ w)
    {J : JobId W} (hJ : J.owner = v ∨ (jobs J).phase.RunBy v) : (jobs' J).run = (jobs J).run := by
  rcases h J with he | ⟨⟨hown, -⟩, hno⟩ | ⟨-, -, hrun⟩
  · exact congrArg Job.run he
  · exact hJ.elim (fun hJ => absurd (hJ.symm.trans hown) hv) fun hJ => absurd hJ (hno v)
  · exact hrun

/-- The loops of all workers publish what they have done. -/
def State.Linked (s : State W V) : Prop := ∀ v, (s.workers v).Linked

omit [Inhabited V] in
theorem State.Linked.set (h : s.Linked) {r : Worker W V × Jobs W V} (hr : r.1.Linked) :
    (s.set w r).Linked := by
  intro v
  by_cases hv : v = w
  · subst hv
    rw [State.set_self]
    exact hr
  · rw [State.set_ne w s hv]
    exact h v

omit [Inhabited V] in
/-- The start of a job changes no call. -/
theorem State.Linked.start (h : s.Linked) {d : List (JobId W)} {J : JobId W}
    (hlook : (s.workers w).looking = true) : ((s.setDeque v d).start w J).Linked := by
  have hdeque : (s.setDeque v d).Linked := h.set (h v)
  refine hdeque.set ?_
  have hp : (s.workers w).point = .sched := looking_iff.mp hlook
  have hstack : ((s.setDeque v d).workers w).stack = (s.workers w).stack := by
    rw [State.setDeque_workers]
  have hlw := h w
  rw [Worker.Linked, Worker.frames, hp] at hlw
  rw [Worker.Linked, Worker.frames]
  show ∀ p ∈ [] ++ ((s.setDeque v d).workers w).stack.flatMap Item.frames, _
  rw [hstack]
  exact hlw

variable [Fintype W]

/-- The start of a job pays what its owner no longer owes. -/
theorem start_debts {d : List (JobId W)} {J : JobId W} (hinv : s.Inv)
    (hlook : (s.workers w).looking = true) (hd : (s.workers v).deque = d ++ [J]) :
    Descends Debt.Lt ((s.setDeque v d).start w J).debts s.debts := by
  have hvw : w ≠ v := by
    rintro rfl
    rw [hinv.looking hlook] at hd
    exact absurd hd.symm (by simp)
  have hrun : ∀ X, (Function.update s.jobs J ((s.jobs J).move (.taken w)) X).run =
      (s.jobs X).run := update_run_eq (by rfl)
  have hdebts : ∀ u (y : Worker W V), y.debts u (Function.update s.jobs J
      ((s.jobs J).move (.taken w))) = y.debts u s.jobs := by
    intro u y
    rw [Worker.debts, Worker.debts, dequeDebts_congr fun X _ => hrun X,
      stackDebts_congr s.jobs]
    congr 2
    cases y.point with
    | frame f pc => rw [Point.debts, Point.debts, debts_congr fun X => hrun _]
    | opr X stage => cases stage <;> simp only [Point.debts, hrun]
    | _ => rfl
  have hw : ((s.setDeque v d).start w J).workers w = (s.workers w).take J := by
    rw [State.start, State.set_self, State.setDeque, State.set_ne v s hvw]
  have hv : ((s.setDeque v d).start w J).workers v = { s.workers v with deque := d } := by
    rw [State.start, State.set_ne w _ hvw.symm, State.setDeque, State.set_self]
  have hu : ∀ u, u ≠ w → u ≠ v → ((s.setDeque v d).start w J).workers u = s.workers u :=
    fun u hu hu' => by
      rw [State.start, State.set_ne w _ hu, State.setDeque, State.set_ne v s hu']
  have hpay : Descends Debt.Lt ({.code (s.jobs J).run} + ticks 3)
      ({.code (s.jobs J).run} + ticks 4) :=
    (Reaches.refl _).add_descends (ticks_lt (by decide))
  refine Descends.move (g := fun u => (((s.setDeque v d).start w J).workers u).debts u
    (Function.update s.jobs J ((s.jobs J).move (.taken w)))) hvw ?_ ?_ hpay fun u hne hne' => ?_
  · have hp : (s.workers w).point = .sched := looking_iff.mp hlook
    simp only [hw, hdebts]
    rw [Worker.debts, Worker.debts, hp]
    show {.code (s.jobs J).run} + ticks 3 + stackDebts w s.jobs (s.workers w).stack +
      dequeDebts s.jobs (s.workers w).deque = 0 + _ + _ + _
    rw [zero_add]
    abel
  · simp only [hv, hdebts]
    rw [Worker.debts, Worker.debts, hd, dequeDebts, List.map_append, List.sum_append]
    show _ + _ + (dequeDebts s.jobs d + ({.code (s.jobs J).run} + ticks 4 + 0)) = _ + _ + _ + _
    rw [add_zero]
    abel
  · simp only [hu u hne hne', hdebts]

omit [Fintype W] [Inhabited V] in
/-- When a worker moves, the others owe what they did. -/
theorem set_debts (hinv : s.Inv) {r : Worker W V × Jobs W V}
    (hothers : Others w (s.workers w).frames s.jobs r.2) {u : W} (hu : u ≠ w) :
    ((s.set w r).workers u).debts u r.2 = (s.workers u).debts u s.jobs := by
  rw [State.set_ne w s hu]
  exact worker_debts_congr (fun J hJ => hothers.run_eq hu hJ) (hinv.workers u)

/-- Heartbeats pay for what they enqueue, and every other step pays. -/
theorem step_debts {l : Label W} (hinv : s.Inv) (hl : s.Linked) (hstep : s.step l = some s') :
    s'.Linked ∧ Reaches Debt.Lt s'.debts s.debts ∧
      ((∀ w, l ≠ .heartbeat w) → Descends Debt.Lt s'.debts s.debts) := by
  suffices h : s'.Linked ∧ (Descends Debt.Lt s'.debts s.debts ∨
      (∃ w, l = .heartbeat w) ∧ Reaches Debt.Lt s'.debts s.debts) by
    obtain ⟨hl', h | ⟨⟨w, rfl⟩, h⟩⟩ := h
    · exact ⟨hl', h.reaches, fun _ => h⟩
    · exact ⟨hl', h, fun hne => absurd rfl (hne w)⟩
  cases l with
  | heartbeat w =>
    cases hstep
    obtain ⟨hlink, hpay⟩ := heartbeat_debts (hinv.workers w) (hl w)
    have hkept := heartbeat_kept (hinv.slots w) (hinv.workers w)
    refine ⟨hl.set hlink, .inr ⟨⟨w, rfl⟩, ?_⟩⟩
    exact Reaches.sum (i := w) (by rw [State.set_self]; exact hpay)
      fun u hu => set_debts hinv hkept.others hu
  | run w n =>
    obtain ⟨r, hr, rfl⟩ := Option.map_eq_some_iff.mp hstep
    obtain ⟨hlink, hpay⟩ := run_debts (hinv.slots w) (hinv.workers w) (hl w) hr
    have hkept := run_kept (hinv.slots w) (hinv.workers w) hr
    refine ⟨hl.set hlink, .inl ?_⟩
    exact Descends.sum (i := w) (by rw [State.set_self]; exact hpay)
      fun u hu => set_debts hinv hkept.others hu
  | get_own_job w =>
    simp only [State.step] at hstep
    cases hlook : (s.workers w).looking <;> cases hd : (s.workers w).deque <;>
      simp only [hlook, hd, reduceCtorEq] at hstep
    rw [hinv.looking hlook] at hd
    cases hd
  | steal w victim =>
    simp only [State.step] at hstep
    cases hlook : (s.workers w).looking <;>
      cases hd : WorkStealing.steal (s.workers victim).deque <;>
      simp only [hlook, hd, reduceCtorEq, Option.some.injEq] at hstep
    subst hstep
    exact ⟨hl.start hlook, .inl (start_debts hinv hlook (WorkStealing.steal_eq_some.mp hd))⟩

end

end Spork.Scheduler
