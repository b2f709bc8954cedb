import Spork.Scheduler.Deque

/-!
# The invariant of the scheduler

Every step of a worker, every heartbeat and every steal keeps the invariant of all workers.
So whenever a worker joins a job, that job is the newest of its deque, or it has been stolen
and the deque is empty: `try_dequeue` need not look at what it has popped.

## Main definitions

* `Kept` — what a step of a worker does to the invariant.
* `promote_front_kept`, `frameStep_kept`, `run_kept` — the steps of a worker.
* `State.Inv`, `reachable_inv` — the invariant of all workers.
* `try_dequeue_matches` — what a worker finds when it joins a job.
-/
namespace Spork.Scheduler

open WorkStealing

variable {W V : Type} [DecidableEq W] [Inhabited V] {w : W} {x : Worker W V} {jobs : Jobs W V}
  {f : Frame V} {r : Worker W V × Jobs W V}

/-- The invariant of a worker. -/
def Worker.Ok (w : W) (x : Worker W V) (jobs : Jobs W V) : Prop :=
  Holds w x.frames (x.oprs w) x.deque x.next jobs

/-- A step of the worker `w` keeps its invariant and what the other workers rely on. It does
not go back to a call that had nothing left but to return. -/
structure Kept (w : W) (x : Worker W V) (jobs : Jobs W V) (r : Worker W V × Jobs W V) : Prop where
  ok : r.1.Ok w r.2
  others : Others w x.frames jobs r.2
  jobs : (∀ J, (jobs J).Ok) → ∀ J, (r.2 J).Ok
  next : x.next ≤ r.1.next
  busy : ∀ J : JobId W, J.frame < x.next → Busy w r.1.frames J → Busy w x.frames J

/-! ## Heartbeats -/

theorem promoteStack_oprs (stack : List (Item W V)) (e : Env W V) :
    (promoteStack w stack e).1.flatMap (Item.oprs w) = stack.flatMap (Item.oprs w) := by
  induction stack with
  | nil => rfl
  | cons it rest ih =>
    cases it with
    | opr J => exact congrArg ((J, Phase.running w) :: ·) ih
    | frame f sus => exact ih

/-- A heartbeat moves no call. -/
theorem visit_fid (isOpen : Bool) (f : Frame V) (e : Env W V) :
    (f.visit w isOpen e).1.fid = f.fid := by
  rcases visit_promoted w isOpen f e with ⟨hv, -⟩ | ⟨hv, -⟩
  · rw [hv]
  · rw [hv]
    rfl

theorem promoteStack_frames (stack : List (Item W V)) (e : Env W V) :
    ((promoteStack w stack e).1.flatMap Item.frames).map (fun p => (p.1.fid, p.2)) =
      (stack.flatMap Item.frames).map fun p => (p.1.fid, p.2) := by
  induction stack with
  | nil => rfl
  | cons it rest ih =>
    cases it with
    | opr J => exact ih
    | frame f sus =>
      have hfid := visit_fid (w := w) sus.isOpen f (promoteStack w rest e).2
      simp only [promoteStack, List.flatMap_cons, Item.frames, List.singleton_append,
        List.map_cons, ih, hfid]

section
variable {js : List (JobId W × Phase W)} {next : ℕ} {e : Env W V} {p : Place W V}
  {above below : List (Frame V × Place W V)}

/-- One slot of `promote_front`. -/
theorem Holds.visit (isOpen : Bool)
    (h : Holds w (above ++ (f, p) :: below) js e.deque next e.jobs)
    (habove : f.promoted = false → ∀ q ∈ above, q.1.pend = [])
    (hopen : isOpen = true → p.Promotable) :
    Holds w (above ++ ((f.visit w isOpen e).1, p) :: below) js (f.visit w isOpen e).2.deque next
      (f.visit w isOpen e).2.jobs ∧
    OwnOnly w (above ++ (f, p) :: below) e.jobs (f.visit w isOpen e).2.jobs ∧
    ((∀ J, (e.jobs J).Ok) → ∀ J, ((f.visit w isOpen e).2.jobs J).Ok) := by
  rcases visit_promoted w isOpen f e with ⟨hv, -⟩ | ⟨hv, ho, -, hun⟩
  · rw [hv]
    exact ⟨h, .refl _, fun hok => hok⟩
  · have hf : FrameOk w e.jobs f p :=
      h.frames (f, p) (List.mem_append_right _ List.mem_cons_self)
    have hp : p.promoted = p := by
      cases p with
      | promoting => exact absurd (hf.place.1.symm.trans hun) (by simp)
      | _ => rfl
    have hprom := Holds.prom (e := { e with heartbeat_tokens := e.heartbeat_tokens - 1 }) h
      (habove hun) (hopen ho) (.inl hun)
    rw [hp] at hprom
    rw [hv]
    exact hprom

omit [DecidableEq W] [Inhabited V] in
/-- Below a frame there is nothing to promote, or it owes no job either. -/
theorem Holds.belowFrame {f : Frame V} {sus : Sus V} {rest : List (Item W V)}
    (h : Holds w (above ++ (Item.frame f sus :: rest).flatMap Item.frames) js e.deque next e.jobs)
    (habove : ∀ q ∈ above, q.1.pend = []) (hbelow : f.promoted = true → AllPromoted rest) :
    Holds w ((above ++ [(f, sus.place)]) ++ rest.flatMap Item.frames) js e.deque next e.jobs ∧
      (AllPromoted rest ∨ ∀ q ∈ above ++ [(f, sus.place)], q.1.pend = []) := by
  have h' : Holds w (above ++ (f, sus.place) :: rest.flatMap Item.frames) js e.deque next e.jobs :=
    h
  have hf : FrameOk w e.jobs f sus.place :=
    h'.frames _ (List.mem_append_right _ List.mem_cons_self)
  refine ⟨?_, ?_⟩
  · rw [← List.append_cons]
    exact h'
  · by_cases hp : f.promoted = true
    · exact .inl (hbelow hp)
    · refine .inr (List.forall_mem_append.mpr ⟨habove, ?_⟩)
      exact List.forall_mem_singleton.mpr (hf.pend (Bool.eq_false_of_not_eq_true hp))

/-- `promote_front`, below frames that owe no job unless there is nothing to promote. -/
theorem promoteStack_holds {stack : List (Item W V)} (hn : Nested stack)
    (h : Holds w (above ++ stack.flatMap Item.frames) js e.deque next e.jobs)
    (habove : AllPromoted stack ∨ ∀ q ∈ above, q.1.pend = []) :
    Holds w (above ++ (promoteStack w stack e).1.flatMap Item.frames) js
      (promoteStack w stack e).2.deque next (promoteStack w stack e).2.jobs ∧
    OwnOnly w (above ++ stack.flatMap Item.frames) e.jobs (promoteStack w stack e).2.jobs ∧
    ((∀ J, (e.jobs J).Ok) → ∀ J, ((promoteStack w stack e).2.jobs J).Ok) := by
  rcases habove with hall | habove
  · rw [promoteStack_of_allPromoted w hall]
    exact ⟨h, .refl _, fun hok => hok⟩
  · induction stack generalizing above with
    | nil => exact ⟨h, .refl _, fun hok => hok⟩
    | cons it rest ih =>
      cases it with
      | opr J => exact ih hn.2 h habove
      | frame f sus =>
        obtain ⟨hbelow, -, hnest⟩ := hn
        obtain ⟨h', habove'⟩ := h.belowFrame habove hbelow
        -- the slots below, which are promoted first
        have hrest : Holds w (above ++ (f, sus.place) ::
              (promoteStack w rest e).1.flatMap Item.frames) js
              (promoteStack w rest e).2.deque next (promoteStack w rest e).2.jobs ∧
            OwnOnly w (above ++ (f, sus.place) :: rest.flatMap Item.frames) e.jobs
              (promoteStack w rest e).2.jobs ∧
            ((∀ J, (e.jobs J).Ok) → ∀ J, ((promoteStack w rest e).2.jobs J).Ok) := by
          rcases habove' with hall | habove'
          · rw [promoteStack_of_allPromoted w hall]
            exact ⟨h, .refl _, fun hok => hok⟩
          · have hall := ih hnest h' habove'
            rw [← List.append_cons, ← List.append_cons] at hall
            exact hall
        obtain ⟨hh, hown, hok⟩ := hrest
        obtain ⟨hh', hown', hok'⟩ := hh.visit sus.isOpen (fun _ => habove)
          Sus.promotable
        refine ⟨hh', hown.trans hown' ?_, fun h => hok' (hok h)⟩
        simp only [List.map_append, List.map_cons, promoteStack_frames]

end

omit [DecidableEq W] [Inhabited V] in
/-- The frame on top of the stack owes nothing if there is a slot below it that is not
promoted. -/
theorem Worker.Ok.top (h : x.Ok w jobs) (hs : x.SlotsOk) :
    AllPromoted x.stack ∨ ∀ q ∈ x.point.frames (W := W), q.1.pend = [] := by
  rw [Worker.Ok, Worker.frames, Worker.oprs] at h
  have hpoint := hs.point
  rw [Worker.PointOk] at hpoint
  cases hp : x.point with
  | frame f pc =>
    rw [hp] at hpoint h
    by_cases hf : f.promoted = true
    · exact .inl (hpoint.below hf)
    · have hok : FrameOk w jobs f pc.place := h.frames _ List.mem_cons_self
      refine .inr (List.forall_mem_singleton.mpr ?_)
      exact hok.pend (Bool.eq_false_of_not_eq_true hf)
  | _ => exact .inr (List.forall_mem_nil _)

/-- A heartbeat keeps the invariant. -/
theorem promote_front_kept (hs : x.SlotsOk) (h : x.Ok w jobs) (hbs tokens : UInt32) :
    Kept w x jobs (Worker.promote_front w { x with
      num_heartbeats := hbs, heartbeat_tokens := tokens } jobs) := by
  have habove := h.top hs
  rw [Worker.Ok, Worker.frames, Worker.oprs] at h
  obtain ⟨hh, hown, hok⟩ := promoteStack_holds (e := ⟨tokens, x.deque, jobs⟩) hs.nested h habove
  have hoprs := promoteStack_oprs (w := w) x.stack ⟨tokens, x.deque, jobs⟩
  rw [← hoprs] at hh
  rw [Worker.promote_front]
  cases hp : x.point with
  | frame f pc =>
    rw [hp] at hh
    have hh : Holds w ([] ++ (f, pc.place) :: _) _ _ _ _ := hh
    obtain ⟨hh', hown', hok'⟩ := hh.visit pc.isOpen
      (fun _ => List.forall_mem_nil _) Pc.promotable
    have hall := OwnOnly.trans hown hown' (by
      rw [hp]
      exact congrArg ((f.fid, pc.place) :: ·) (promoteStack_frames ..))
    have hx : x.frames = (f, pc.place) :: x.stack.flatMap Item.frames := by
      rw [Worker.frames, hp]
      rfl
    refine ⟨hh', hall.others, fun h => hok' (hok h), le_rfl, busy_congr ?_⟩
    rw [hx]
    exact congrArg₂ (fun n l => (n, pc.place) :: l) (visit_fid ..) (promoteStack_frames ..)
  | _ =>
    rw [hp] at hh
    have hx : x.frames = x.stack.flatMap Item.frames := by
      rw [Worker.frames, hp]
      rfl
    refine ⟨hh, hown.others, hok, le_rfl, busy_congr ?_⟩
    rw [hx]
    exact promoteStack_frames ..

theorem heartbeat_kept (hs : x.SlotsOk) (h : x.Ok w jobs) :
    Kept w x jobs (x.heartbeat_handler w jobs) := by
  rw [Worker.heartbeat_handler]
  by_cases hen : x.disable_heartbeats
  · rw [if_pos hen]
    exact ⟨h, .refl _, fun hok => hok, le_rfl, fun _ _ hb => hb⟩
  · rw [if_neg hen]
    exact promote_front_kept hs h _ _

/-! ## Steps of a call -/

section
variable {fs : List (Frame V × Place W V)} {f' : Frame V} {p p' : Place W V}

omit [DecidableEq W] [Inhabited V] in
/-- The newest call moves on. -/
theorem Kept.move (hx : x.frames = (f, p) :: fs) (hr : r.1.frames = (f', p') :: fs)
    (hfid : f'.fid = f.fid) (hp : p ≠ .rest [] ∨ p' = p) (hnext : r.1.next = x.next)
    (hok : r.1.Ok w r.2) (ho : Others w ((f, p) :: fs) jobs r.2)
    (hj : (∀ J, (jobs J).Ok) → ∀ J, (r.2 J).Ok) : Kept w x jobs r := by
  refine ⟨hok, hx ▸ ho, hj, hnext.ge, fun J _ hb => ?_⟩
  rw [hr] at hb
  rw [hx]
  exact busy_move hfid hp hb

omit [DecidableEq W] [Inhabited V] in
/-- The newest call moves on, and the jobs stay as they are. -/
theorem Kept.same (hx : x.frames = (f, p) :: fs) (hr : r.1.frames = (f', p') :: fs)
    (hfid : f'.fid = f.fid) (hp : p ≠ .rest [] ∨ p' = p) (hnext : r.1.next = x.next)
    (hok : r.1.Ok w jobs) (hr' : r.2 = jobs) : Kept w x jobs r := by
  obtain ⟨y, jobs'⟩ := r
  subst hr'
  exact .move hx hr hfid hp hnext hok (.refl _) fun hok => hok

end

theorem frameStep_kept {pc : Pc V} (hp : x.point = .frame f pc)
    (h : Holds w ((f, pc.place) :: x.stack.flatMap Item.frames) (x.stack.flatMap (Item.oprs w))
      x.deque x.next jobs)
    (hs : SlotOk x.stack x.heartbeat_tokens x.disable_heartbeats f pc)
    (hstep : x.frameStep w jobs f pc = some r) : Kept w x jobs r := by
  have hx : x.frames = (f, pc.place) :: x.stack.flatMap Item.frames := by
    rw [Worker.frames, hp]
    rfl
  have hf : FrameOk w jobs f pc.place := h.frames _ List.mem_cons_self
  cases pc with
  | ctor =>
    cases hstep
    exact .same hx rfl rfl (.inl (by simp [Pc.place])) rfl h rfl
  | check =>
    cases hstep
    by_cases htok : x.heartbeat_tokens ≠ 0
    · rw [if_pos htok]
      exact .same hx rfl rfl (.inl (by simp [Pc.place])) rfl h rfl
    · rw [if_neg htok]
      exact .same hx rfl rfl (.inl (by simp [Pc.place])) rfl h rfl
  | save =>
    cases hstep
    exact .same hx rfl rfl (.inl (by simp [Pc.place])) rfl h rfl
  | disable before =>
    cases hstep
    exact .same hx rfl rfl (.inl (by simp [Pc.place])) rfl h rfl
  | retest before =>
    cases hstep
    by_cases htok : x.heartbeat_tokens ≠ 0 ∧ f.promoted = false
    · rw [if_pos htok]
      exact .same hx rfl rfl (.inl (by simp [Pc.place])) rfl h rfl
    · rw [if_neg htok]
      exact .same hx rfl rfl (.inl (by simp [Pc.place])) rfl h rfl
  | dec before =>
    cases hstep
    exact .same hx rfl rfl (.inl (by simp [Pc.place])) rfl h rfl
  | setPromoted before =>
    cases hstep
    exact .same hx rfl rfl (.inl (by simp [Pc.place])) rfl
      (h.head rfl rfl (hf.setPromoted hs.place.2.1)) rfl
  | prom before =>
    cases hstep
    have hfp : { f with promoted := true } = f := by
      obtain ⟨fid, call, k, promoted, res, pend, history⟩ := f
      have hprom : promoted = true := hs.place.2
      rw [hprom]
    have h : Holds w ([] ++ (f, .promoting) :: _) _ (x.env jobs).deque _ (x.env jobs).jobs := h
    obtain ⟨hh, hown, hok⟩ := h.prom (List.forall_mem_nil _) trivial (.inr rfl)
    rw [hfp] at hh hown hok
    exact .move hx rfl rfl (.inl (by simp [Pc.place])) rfl hh hown.others hok
  | restore before =>
    cases hstep
    exact .same hx rfl rfl (.inl (by simp [Pc.place])) rfl h rfl
  | body =>
    rcases Worker.frameStep_body w hstep with ⟨c, -, rfl⟩ | ⟨call, hnext, rfl⟩ | ⟨hnext, rfl⟩
    · exact .same hx rfl rfl (.inl (by simp [Pc.place])) rfl (h.head rfl rfl hf.run_body) rfl
    · exact .same hx rfl rfl (.inl (by simp [Pc.place])) rfl (h.head rfl rfl (hf.move hnext)) rfl
    · exact .same hx rfl rfl (.inl (by simp [Pc.place])) rfl (h.head rfl rfl (hf.done hnext)) rfl
  | close =>
    cases hstep
    exact .same hx rfl rfl (.inl (by simp [Pc.place])) rfl h rfl
  | closed =>
    obtain ⟨ops, hops, rfl⟩ := Option.map_eq_some_iff.mp hstep
    exact .same hx rfl rfl (.inl (by simp [Pc.place])) rfl (h.head rfl rfl (hf.after hops)) rfl
  | act ops =>
    cases ops with
    | nil =>
      cases hstep
      refine ⟨h.ret hf.place, .refl _, fun hok => hok, le_rfl, fun J _ hb => ?_⟩
      rw [hx]
      exact busy_cons hb
    | cons op ops =>
      cases op with
      | call e c =>
        cases hstep
        exact .same hx rfl rfl (.inl (by simp [Pc.place])) rfl (h.head rfl rfl hf.run_call) rfl
      | sync J reclaim =>
        have hpend : f.pend = J :: joins ops := hf.place
        rcases h.find hpend with ⟨hq, d, hd⟩ | ⟨hst, hd⟩
        · simp only [Worker.frameStep, Worker.try_dequeue_cons jobs hd] at hstep
          cases hstep
          rw [hd] at h
          have hothers : Others w ((f, (Pc.act (.sync J reclaim :: ops)).place) ::
              x.stack.flatMap Item.frames) jobs
              (Function.update jobs (f.job w J) ((jobs (f.job w J)).move .popped)) :=
            .own (busy_head J (by simp [Pc.place])) fun v => hq ▸ fun hr => hr
          have hj : (∀ J, (jobs J).Ok) → ∀ X, (Function.update jobs (f.job w J)
              ((jobs (f.job w J)).move .popped) X).Ok := fun hok => ok_update hok
            ((hok (f.job w J)).move hq (.inl ⟨rfl, .inl rfl⟩))
          have hpop : Holds w ((f.joined, .clones J .popped ops) :: x.stack.flatMap Item.frames)
              (x.stack.flatMap (Item.oprs w)) d x.next
              (Function.update jobs (f.job w J) ((jobs (f.job w J)).move .popped)) :=
            h.pop rfl hpend (congrArg List.tail hpend) hf.sync_popped
          cases reclaim
          · exact .move hx rfl rfl (.inl (by simp [Pc.place])) rfl hpop hothers hj
          · exact .move hx rfl rfl (.inl (by simp [Pc.place])) rfl hpop hothers hj
        · simp only [Worker.frameStep, Worker.try_dequeue_nil jobs hd] at hstep
          cases hstep
          exact .same hx rfl rfl (.inl (by simp [Pc.place])) rfl
            (h.head rfl rfl (hf.sync_stolen hst)) rfl
      | sync_is_stolen J unstolen stolen =>
        have hpend : f.pend = J :: joins ops := hf.place
        rcases h.find hpend with ⟨hq, d, hd⟩ | ⟨hst, hd⟩
        · simp only [Worker.frameStep, Worker.try_dequeue_cons jobs hd] at hstep
          cases hstep
          rw [hd] at h
          refine .move hx rfl rfl (.inl (by simp [Pc.place])) rfl
            (h.pop rfl hpend (congrArg List.tail hpend) hf.is_stolen_popped) ?_
            fun hok => ok_update hok ((hok _).move hq (.inl ⟨rfl, .inl rfl⟩))
          exact .own (busy_head J (by simp [Pc.place])) fun v => hq ▸ fun hr => hr
        · simp only [Worker.frameStep, Worker.try_dequeue_nil jobs hd] at hstep
          cases hstep
          exact .same hx rfl rfl (.inl (by simp [Pc.place])) rfl
            (h.head rfl rfl (hf.is_stolen_stolen hst)) rfl
  | reclaim J ops =>
    cases hstep
    exact .same hx rfl rfl (.inl (by simp [Pc.place])) rfl h rfl
  | reclaimed J tokens ops =>
    cases hstep
    exact .same hx rfl rfl (.inl (by simp [Pc.place])) rfl h rfl
  | clone J ops =>
    cases hstep
    have hph : (jobs (f.job w J)).phase = .popped := hf.place.2.2.1
    refine .move hx rfl rfl (.inl (by simp [Pc.place])) rfl
      (h.clone rfl rfl (.inl hph) (.inl rfl) hf.clone_start) ?_
      fun hok => ok_update hok ((hok _).start (.inl hph) (.inl rfl))
    exact .own (busy_head J (by simp [Pc.place])) fun v => hph ▸ fun hr => hr
  | finished J next =>
    rcases Worker.frameStep_finished w hstep with ⟨hdone, rfl⟩ | rfl
    · have hpend := hf.place.2.1 (jobs (f.job w J)).sr
      have hh : Holds w ((f.joined, .rest (next (jobs (f.job w J)).sr)) ::
          x.stack.flatMap Item.frames) (x.stack.flatMap (Item.oprs w)) x.deque x.next jobs :=
        h.join rfl hpend (congrArg List.tail hpend) hdone (hf.waited hdone)
      exact .same hx rfl rfl (.inl (by simp [Pc.place])) rfl hh rfl
    · exact .same hx rfl rfl (.inl (by simp [Pc.place])) rfl h rfl

/-! ## Steps of code and of stolen jobs -/

omit [Inhabited V] in
theorem returnStep_kept {v : V} {c : Code V} (hp : x.point = .code c) (h : x.Ok w jobs)
    (hstep : x.returnStep w jobs v = some r) : Kept w x jobs r := by
  rw [Worker.Ok, Worker.frames, Worker.oprs] at h
  rw [hp] at h
  -- a frame that waits for code is on top of the stack
  have htop : ∀ {f sus rest}, x.stack = .frame f sus :: rest →
      x.frames = (f, sus.place) :: rest.flatMap Item.frames := by
    intro f sus rest hstack
    rw [Worker.frames, hp, hstack]
    rfl
  rcases Worker.returnStep_cases w x jobs hstep with ⟨J, rest, hstack, rfl⟩ |
    ⟨f, rest, call, ended, hstack, hres, rfl⟩ | ⟨f, ops, rest, hstack, rfl⟩ |
    ⟨f, J, ops, rest, hstack, rfl⟩
  · rw [hstack] at h
    obtain ⟨hph, -, -⟩ := h.oprs (J, .running w) List.mem_cons_self
    have hx : x.frames = rest.flatMap Item.frames := by
      rw [Worker.frames, hp, hstack]
      rfl
    refine ⟨h.opr_step (j := (jobs J).stop (.ran w) v) rfl, ?_,
      fun hok => ok_update hok ((hok J).stop (.inr ⟨w, hph⟩) (.inr ⟨w, rfl⟩)), le_rfl,
      fun J _ hb => hx ▸ hb⟩
    exact .opr (by rw [hph]; rfl) trivial rfl
  · rw [hstack] at h
    have hf : FrameOk w jobs f Sus.inBody.place := h.frames _ List.mem_cons_self
    have hh : Holds w (({ f with call := call, history := f.history ++ [.returned v] },
        if ended then .closing else .before) :: rest.flatMap Item.frames)
        (rest.flatMap (Item.oprs w)) x.deque x.next jobs :=
      h.head rfl rfl (hf.resume hres)
    cases ended
    · exact .same (htop hstack) rfl rfl (.inl (by simp [Sus.place])) rfl hh rfl
    · exact .same (htop hstack) rfl rfl (.inl (by simp [Sus.place])) rfl hh rfl
  · rw [hstack] at h
    have hf : FrameOk w jobs f (Sus.inCall ops).place := h.frames _ List.mem_cons_self
    have hh : Holds w (({ f with res := v }, .rest ops) :: rest.flatMap Item.frames)
      (rest.flatMap (Item.oprs w)) x.deque x.next jobs := h.head rfl rfl (hf.result v)
    exact .same (htop hstack) rfl rfl (.inr rfl) rfl hh rfl
  · rw [hstack] at h
    have hf : FrameOk w jobs f (Sus.inClone J ops).place := h.frames _ List.mem_cons_self
    have hph : (jobs (f.job w J)).phase = .cloning := hf.place.2.2.1
    exact .move (htop hstack) rfl rfl (.inl (by simp [Sus.place])) rfl
      (h.clone rfl rfl (.inr hph) (.inr rfl) (hf.clone_end v))
      (.own (busy_head J (by simp [Sus.place])) fun v => hph ▸ fun hr => hr)
      fun hok => ok_update hok ((hok _).stop (.inl hph) (.inl rfl))

omit [Inhabited V] in
theorem oprStep_kept {J : JobId W} {stage : Stage} (hp : x.point = .opr J stage)
    (h : x.Ok w jobs) : Kept w x jobs (x.oprStep w jobs J stage) := by
  rw [Worker.Ok, Worker.frames, Worker.oprs] at h
  rw [hp] at h
  have hx : x.frames = x.stack.flatMap Item.frames := by
    rw [Worker.frames, hp]
    rfl
  cases stage with
  | tokens => exact ⟨h, .refl _, fun hok => hok, le_rfl, fun J _ hb => hx ▸ hb⟩
  | run =>
    obtain ⟨hph, -, -⟩ := h.oprs (J, .taken w) List.mem_cons_self
    refine ⟨h.opr_step (j := (jobs J).start (.running w)) rfl, ?_,
      fun hok => ok_update hok ((hok J).start (.inr ⟨w, hph⟩) (.inr ⟨w, rfl⟩)), le_rfl,
      fun J _ hb => hx ▸ hb⟩
    exact .opr (by rw [hph]; rfl) trivial rfl
  | ended =>
    obtain ⟨hph, -, -⟩ := h.oprs (J, .ran w) List.mem_cons_self
    refine ⟨h.opr_end, ?_,
      fun hok => ok_update hok ((hok J).move hph (.inr ⟨w, w, rfl, rfl⟩)), le_rfl,
      fun J _ hb => hx ▸ hb⟩
    exact .opr (by rw [hph]; rfl) trivial rfl

theorem run_kept {n : ℕ} (hs : x.SlotsOk) (h : x.Ok w jobs) (hstep : x.run w jobs n = some r) :
    Kept w x jobs r := by
  have hpoint := hs.point
  rw [Worker.PointOk] at hpoint
  rw [Worker.run] at hstep
  cases hp : x.point with
  | sched =>
    simp only [hp] at hpoint hstep
    rw [Worker.Ok, Worker.frames, Worker.oprs] at h
    obtain ⟨f, J, next, rest, hstack, hdone, rfl⟩ := x.schedStep_cases w jobs hstep
    rw [hp, hstack] at h
    have hf : FrameOk w jobs f (.waits J next) := h.frames _ List.mem_cons_self
    have hpend := hf.place.2.1 (jobs (f.job w J)).sr
    have hx : x.frames = (f, .waits J next) :: rest.flatMap Item.frames := by
      rw [Worker.frames, hp, hstack]
      rfl
    have hh : Holds w ((f.joined, .rest (next (jobs (f.job w J)).sr)) ::
        rest.flatMap Item.frames) (rest.flatMap (Item.oprs w)) x.deque x.next jobs :=
      h.join rfl hpend (congrArg List.tail hpend) hdone (hf.waited hdone)
    exact .same hx rfl rfl (.inl (by simp)) rfl hh rfl
  | code c =>
    simp only [hp] at hstep
    rcases x.codeStep_cases w jobs hstep with ⟨v, -, hret⟩ | ⟨k, -, rfl⟩ | ⟨call, k, henter, rfl⟩
    · exact returnStep_kept hp h hret
    · have hx : x.frames = x.stack.flatMap Item.frames := by
        rw [Worker.frames, hp]
        rfl
      rw [Worker.Ok, Worker.frames, Worker.oprs] at h
      rw [hp] at h
      exact ⟨h, .refl _, fun hok => hok, le_rfl, fun J _ hb => hx ▸ hb⟩
    · have hx : x.frames = x.stack.flatMap Item.frames := by
        rw [Worker.frames, hp]
        rfl
      rw [Worker.Ok, Worker.frames, Worker.oprs] at h
      rw [hp] at h
      have hf : FrameOk w jobs ⟨x.next, call, k, false, default, [], []⟩ .before :=
        .enter henter fun J => h.fresh _ rfl le_rfl
      exact ⟨h.push hf rfl rfl, .refl _, fun hok => hok, Nat.le_succ _,
        fun J hlt hb => hx ▸ busy_tail hlt hb⟩
  | frame f pc =>
    simp only [hp] at hpoint hstep
    rw [Worker.Ok, Worker.frames, Worker.oprs] at h
    rw [hp] at h
    exact frameStep_kept hp h hpoint hstep
  | opr J stage =>
    simp only [hp] at hstep
    cases hstep
    exact oprStep_kept hp h

/-! ## Runs -/

/-- The invariant of all workers. -/
structure State.Inv (s : State W V) : Prop where
  slots : ∀ v, (s.workers v).SlotsOk
  workers : ∀ v, (s.workers v).Ok v s.jobs
  jobs : ∀ J, (s.jobs J).Ok

variable {s s' : State W V}

omit [Inhabited V] in
theorem State.Inv.set (h : s.Inv) (hk : Kept w (s.workers w) s.jobs r) (hr : r.1.SlotsOk) :
    (s.set w r).Inv where
  slots := set_slotsOk w h.slots hr
  workers v := by
    by_cases hv : v = w
    · subst hv
      rw [State.set_self]
      exact hk.ok
    · rw [State.set_ne w s hv]
      exact Holds.others (h.workers v) (Ne.symm hv) hk.others
  jobs := hk.jobs h.jobs

omit [DecidableEq W] in
/-- A worker that looks for a job has an empty deque. -/
theorem State.Inv.looking (h : s.Inv) (hl : (s.workers w).looking = true) :
    (s.workers w).deque = [] := by
  have hp := looking_iff.mp hl
  have hslots := (h.slots w).point
  have hok := h.workers w
  unfold Worker.PointOk at hslots
  unfold Worker.Ok Worker.frames Worker.oprs at hok
  rw [hp] at hslots hok
  match hstack : (s.workers w).stack, hslots with
  | [], _ =>
    rw [hstack] at hok
    exact hok.matched.eq_nil
  | .frame f (.waiting J next) :: rest, _ =>
    rw [hstack] at hok
    have hf : FrameOk w s.jobs f (.waits J next) := hok.frames _ List.mem_cons_self
    obtain ⟨-, hpend, hst⟩ := hf.place
    rcases hok.find (hpend default) with ⟨hq, -⟩ | ⟨-, hd⟩
    · rw [hq] at hst
      exact hst.elim
    · exact hd

/-- A worker that looks for a job takes the oldest of another worker's deque. -/
theorem State.Inv.start {v : W} {d : List (JobId W)} {J : JobId W} (h : s.Inv)
    (hl : (s.workers w).looking = true) (hd : (s.workers v).deque = d ++ [J]) :
    ∀ u, (((s.setDeque v d).start w J).workers u).Ok u ((s.setDeque v d).start w J).jobs := by
  have hvw : v ≠ w := by
    rintro rfl
    rw [h.looking hl] at hd
    exact absurd hd.symm (by simp)
  have hokv : Holds v (s.workers v).frames ((s.workers v).oprs v) (d ++ [J]) (s.workers v).next
      s.jobs := hd ▸ h.workers v
  have hmem : J ∈ d ++ [J] := List.mem_append_right _ (List.mem_singleton_self J)
  have hq : (s.jobs J).phase = .queued := hokv.matched.queued J hmem
  have hown : J.owner = v := (mem_owed (hokv.matched.mem_owed hmem)).1
  intro u
  show Worker.Ok u (((s.setDeque v d).start w J).workers u)
    (Function.update s.jobs J ((s.jobs J).move (.taken w)))
  by_cases hu : u = w
  · subst hu
    have hok := h.workers u
    rw [Worker.Ok, Worker.frames, Worker.oprs] at hok
    rw [looking_iff.mp hl] at hok
    rw [State.start, State.set_self, State.setDeque_workers, if_neg (Ne.symm hvw)]
    exact hok.take (hown ▸ hvw) hq
  · rw [State.start, State.set_ne w _ hu, State.setDeque_workers]
    by_cases huv : u = v
    · subst huv
      rw [if_pos rfl]
      exact hokv.stolen
    · rw [if_neg huv]
      exact Holds.others (h.workers u) (Ne.symm huv)
        (.own (hokv.busy (hokv.matched.mem_owed hmem)) fun v => hq ▸ fun hr => hr)

theorem step_inv (h : s.Inv) (hstep : s.Step s') : s'.Inv := by
  have hslots := step_slotsOk h.slots hstep
  obtain ⟨l, hl⟩ := hstep
  rcases State.step_cases hl with ⟨w, n, r, hr, rfl⟩ | ⟨w, rfl⟩ | ⟨w, v, d, J, hlook, rfl, hd⟩
  · exact h.set (run_kept (h.slots w) (h.workers w) hr) (run_slotsOk w (h.slots w) hr)
  · exact h.set (heartbeat_kept (h.slots w) (h.workers w)) (heartbeat_slotsOk w (h.slots w))
  · rcases hd with ⟨rfl, hd⟩ | hd
    · rw [h.looking hlook] at hd
      cases hd
    · refine ⟨hslots, h.start hlook hd, ok_update h.jobs ?_⟩
      have hok : Holds v (s.workers v).frames ((s.workers v).oprs v) (d ++ [J])
        (s.workers v).next s.jobs := hd ▸ h.workers v
      have hq := hok.matched.queued J (List.mem_append_right _ (List.mem_singleton_self J))
      exact (h.jobs J).move hq (.inl ⟨rfl, .inr ⟨w, rfl⟩⟩)

theorem reachable_inv (hs : s.Reachable) : s.Inv := by
  refine hs.induction (fun main => ?_) fun s s' h hstep => step_inv h hstep
  refine ⟨fun v => reachable_slotsOk ⟨main, .refl⟩ v, fun v => ?_, fun J => ⟨rfl, rfl⟩⟩
  show Worker.Ok v ⟨(main v).elim .sched .code, [], [], 0, false, 0, 0, 0⟩ fun _ => Job.new
  cases main v <;> exact Holds.init v

/-! ## What a worker finds -/

/-- In every reachable state, a worker that is about to join a job has enqueued it. Unless the
job has been stolen, it is the newest of the worker's deque, and `try_dequeue` pops it; if it
has been stolen, the deque is empty, and `try_dequeue` returns false. -/
theorem try_dequeue_matches (hs : s.Reachable) {op : Op V} {ops : List (Op V)} {J : JobName}
    (hp : (s.workers w).point = .frame f (.act (op :: ops))) (hJ : J ∈ op.joins) :
    (s.jobs (f.job w J)).phase ≠ .idle ∧
    (¬ (s.jobs (f.job w J)).phase.Stolen → ∃ d, (s.workers w).deque = f.job w J :: d ∧
      (s.workers w).try_dequeue s.jobs = some ({ s.workers w with deque := d },
        Function.update s.jobs (f.job w J) ((s.jobs (f.job w J)).move .popped))) ∧
    ((s.jobs (f.job w J)).phase.Stolen → (s.workers w).deque = [] ∧
      (s.workers w).try_dequeue s.jobs = none) := by
  have hok := (reachable_inv hs).workers w
  rw [Worker.Ok, Worker.frames, Worker.oprs] at hok
  rw [hp] at hok
  have hf : FrameOk w s.jobs f (.rest (op :: ops)) := hok.frames _ List.mem_cons_self
  have hpend : f.pend = J :: joins ops := by
    have hplace : f.pend = joins (op :: ops) := hf.place
    rw [hplace, joins_cons]
    cases op with
    | call => cases hJ
    | sync => rw [List.mem_singleton.mp hJ]; rfl
    | sync_is_stolen => rw [List.mem_singleton.mp hJ]; rfl
  rcases hok.find hpend with ⟨hq, d, hd⟩ | ⟨hst, hd⟩
  · rw [hq]
    exact ⟨by simp, fun _ => ⟨d, hd, Worker.try_dequeue_cons _ hd⟩, fun h => h.elim⟩
  · refine ⟨fun hi => ?_, fun h => absurd hst h, fun _ => ⟨hd, Worker.try_dequeue_nil _ hd⟩⟩
    rw [hi] at hst
    exact hst

theorem try_dequeue_matches_par :
    ∃ d, (parState.workers false).deque = ⟨false, 1, .jp⟩ :: d := by
  obtain ⟨f, hp, hf⟩ : ∃ f : Frame ℕ, (parState.workers false).point =
      .frame f (.act [.sync .jp false]) ∧ f.fid = 1 := ⟨_, rfl, rfl⟩
  have hns : ¬ (parState.jobs ⟨false, 1, .jp⟩).phase.Stolen := fun h => h
  obtain ⟨-, hunstolen, -⟩ := try_dequeue_matches reachable_parState hp (List.mem_singleton_self _)
  have hJ : f.job false .jp = ⟨false, 1, .jp⟩ := by rw [Frame.job, hf]
  rw [hJ] at hunstolen
  obtain ⟨d, hd, -⟩ := hunstolen hns
  exact ⟨d, hd⟩

end Spork.Scheduler
