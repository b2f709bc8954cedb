import Mathlib.Algebra.BigOperators.Group.Finset.Basic
import Mathlib.Algebra.Order.BigOperators.Group.Finset
import Spork.Scheduler.Invariant

/-!
# The tokens of the heartbeats

A heartbeat that is handled gives its worker at most `TOKENS_PER_HEARTBEAT` tokens, and a
promotion costs one. In between tokens move: a promotion function gives some to the jobs it
enqueues, a worker that takes its job back reclaims them, a thief starts with them. On the
way some are dropped or overwritten, but none is made: the promotions, with all tokens that
workers and enqueued jobs hold, never exceed the heartbeats' own. So no subtraction wraps.

## Main definitions

* `Event`, `State.log`, `State.trace` — what the steps of a run do to tokens.
* `Spent` — what a promotion function takes from its worker.
* `Worker.budget`, `State.budget` — the tokens of a worker and of all, with those on the way.
* `step_budget`, `trace_budget` — the budget pays for the promotions.
* `heartbeat_work_bound`.
-/
namespace Spork.Scheduler

open WorkStealing

/-! ## Events -/

/-- What happens to slots and to `heartbeat_tokens`. -/
inductive Event
  /-- A heartbeat comes while `disable_heartbeats` is false. -/
  | handled
  /-- A slot is promoted. -/
  | promoted
  /-- `heartbeat_tokens = heartbeat_tokens - taken`. -/
  | subtract (found taken : UInt32)
  deriving DecidableEq, Repr

/-- A subtraction does not go below zero. -/
def Event.Fits : Event → Prop
  | .subtract found taken => taken ≤ found
  | _ => True

section
variable {W V : Type} [DecidableEq W] [Inhabited V] (w : W)

/-- The events of `enqueue`. -/
def Env.enqueueLog (e : Env W V) (with_tokens : UInt32) : List Event :=
  if with_tokens ≠ 0 then [.subtract e.heartbeat_tokens with_tokens] else []

/-- The events of `spawnAll`. -/
def Env.spawnLog (fid : ℕ) : List (Spawn V) → Env W V → List Event
  | [], _ => []
  | s :: sp, e => e.enqueueLog (s.with_tokens e.heartbeat_tokens) ++
      spawnLog fid sp (e.enqueue ⟨w, fid, s.name⟩ s.run (s.with_tokens e.heartbeat_tokens))

/-- The events of `promote`. -/
def Frame.promoteLog (f : Frame V) (e : Env W V) : List Event :=
  .subtract e.heartbeat_tokens 1 :: .promoted ::
    Env.spawnLog w f.fid f.call.promfn.2 { e with heartbeat_tokens := e.heartbeat_tokens - 1 }

/-- The events of one slot of `promote_front`. -/
def Frame.visitLog (isOpen : Bool) (f : Frame V) (e : Env W V) : List Event :=
  if isOpen = true ∧ e.heartbeat_tokens ≠ 0 ∧ f.promoted = false then f.promoteLog w e else []

/-- The events of the slots of a stack. -/
def stackLog : List (Item W V) → Env W V → List Event
  | [], _ => []
  | .opr _ :: rest, e => stackLog rest e
  | .frame f sus :: rest, e =>
      stackLog rest e ++ f.visitLog w sus.isOpen (promoteStack w rest e).2

namespace Worker

variable (x : Worker W V) (jobs : Jobs W V)

/-- The events of `promote_front`. -/
def frontLog : List Event :=
  stackLog w x.stack (x.env jobs) ++
    match x.point with
    | .frame f pc => f.visitLog w pc.isOpen (promoteStack w x.stack (x.env jobs)).2
    | _ => []

/-- The events of `heartbeat_handler`. -/
def heartbeatLog : List Event :=
  if x.disable_heartbeats then []
  else .handled :: frontLog w { x with
    num_heartbeats := x.num_heartbeats + 1
    heartbeat_tokens :=
      if x.heartbeat_tokens + TOKENS_PER_HEARTBEAT > MAX_HEARTBEAT_TOKENS then
        MAX_HEARTBEAT_TOKENS
      else x.heartbeat_tokens + TOKENS_PER_HEARTBEAT } jobs

/-- The events of a step of a call: those of `eager_promote`. -/
def frameLog (f : Frame V) : Pc V → List Event
  | .dec _ => [.subtract x.heartbeat_tokens 1]
  | .setPromoted _ => [.promoted]
  | .prom _ => Env.spawnLog w f.fid f.call.promfn.2 (x.env jobs)
  | _ => []

/-- The events of a step of a worker. -/
def runLog : List Event :=
  match x.point with
  | .frame f pc => x.frameLog w jobs f pc
  | _ => []

end Worker

namespace State

/-- The events of a step. -/
def log (s : State W V) : Label W → List Event
  | .run w _ => (s.workers w).runLog w s.jobs
  | .heartbeat w => (s.workers w).heartbeatLog w s.jobs
  | .get_own_job _ | .steal _ _ => []

/-- The events of a run. -/
def trace : List (Label W) → State W V → List Event
  | [], _ => []
  | l :: ls, s => s.log l ++ (s.step l).elim [] (trace ls)

end State

/-! ## What a promotion function takes -/

/-- The tokens of a list of jobs. -/
def tokensOf (jobs : Jobs W V) (d : List (JobId W)) : ℕ := (d.map fun J => (jobs J).hbt.toNat).sum

/-- The tokens of a worker and of its enqueued jobs. -/
def Env.tokens (e : Env W V) : ℕ := e.heartbeat_tokens.toNat + tokensOf e.jobs e.deque

/-- The jobs in use keep their tokens. -/
def KeepsHbt (jobs jobs' : Jobs W V) : Prop :=
  ∀ J, (jobs J).phase ≠ .idle → (jobs' J).phase ≠ .idle ∧ (jobs' J).hbt = (jobs J).hbt

/-- Tokens are spent on the promotions of the log, and on nothing else. -/
structure Spent (e : Env W V) (log : List Event) (e' : Env W V) : Prop where
  tokens : e'.tokens + log.count .promoted = e.tokens
  fits : ∀ ev ∈ log, ev.Fits
  unhandled : log.count .handled = 0
  keeps : KeepsHbt e.jobs e'.jobs

omit [DecidableEq W] [Inhabited V] in
theorem KeepsHbt.refl (jobs : Jobs W V) : KeepsHbt jobs jobs := fun _ h => ⟨h, rfl⟩

omit [DecidableEq W] [Inhabited V] in
theorem KeepsHbt.trans {jobs jobs' jobs'' : Jobs W V} (h : KeepsHbt jobs jobs')
    (h' : KeepsHbt jobs' jobs'') : KeepsHbt jobs jobs'' := by
  intro J hJ
  obtain ⟨hJ', he⟩ := h J hJ
  obtain ⟨hJ'', he'⟩ := h' J hJ'
  exact ⟨hJ'', he'.trans he⟩

omit [DecidableEq W] [Inhabited V] in
theorem Spent.refl (e : Env W V) : Spent e [] e :=
  ⟨rfl, List.forall_mem_nil _, rfl, .refl _⟩

omit [DecidableEq W] [Inhabited V] in
theorem Spent.trans {e e' e'' : Env W V} {l l' : List Event} (h : Spent e l e')
    (h' : Spent e' l' e'') : Spent e (l ++ l') e'' where
  tokens := by
    have := h.tokens
    have := h'.tokens
    rw [List.count_append]
    omega
  fits := List.forall_mem_append.mpr ⟨h.fits, h'.fits⟩
  unhandled := by rw [List.count_append, h.unhandled, h'.unhandled]
  keeps := h.keeps.trans h'.keeps

omit [DecidableEq W] [Inhabited V] in
/-- Jobs that keep their tokens have as many together. -/
theorem KeepsHbt.tokensOf {jobs jobs' : Jobs W V} (h : KeepsHbt jobs jobs') {d : List (JobId W)}
    (hd : ∀ J ∈ d, (jobs J).phase ≠ .idle) : tokensOf jobs' d = tokensOf jobs d := by
  rw [Scheduler.tokensOf]
  congr 1
  apply List.map_congr_left
  intro J hJ
  rw [(h J (hd J hJ)).2]

omit [DecidableEq W] [Inhabited V] in
@[simp] theorem tokensOf_nil (jobs : Jobs W V) : tokensOf jobs [] = 0 := rfl

omit [DecidableEq W] [Inhabited V] in
@[simp] theorem tokensOf_cons (jobs : Jobs W V) (J : JobId W) (d : List (JobId W)) :
    tokensOf jobs (J :: d) = (jobs J).hbt.toNat + tokensOf jobs d := rfl

omit [DecidableEq W] [Inhabited V] in
@[simp] theorem tokensOf_append (jobs : Jobs W V) (d d' : List (JobId W)) :
    tokensOf jobs (d ++ d') = tokensOf jobs d + tokensOf jobs d' := by
  simp [tokensOf]

omit [Inhabited V] in
/-- A job that is not in use is enqueued. -/
theorem enqueue_spent {e : Env W V} {J : JobId W} (run : Code V) {with_tokens : UInt32}
    (hle : with_tokens ≤ e.heartbeat_tokens) (hJ : (e.jobs J).phase = .idle)
    (hd : ∀ X ∈ e.deque, (e.jobs X).phase ≠ .idle) :
    Spent e (e.enqueueLog with_tokens) (e.enqueue J run with_tokens) := by
  have hkeeps : KeepsHbt e.jobs (e.enqueue J run with_tokens).jobs := by
    intro X hX
    have hne : X ≠ J := by
      rintro rfl
      exact hX hJ
    have hsame : (e.enqueue J run with_tokens).jobs X = e.jobs X := Function.update_of_ne hne ..
    rw [hsame]
    exact ⟨hX, rfl⟩
  have hnew : ((e.enqueue J run with_tokens).jobs J).hbt = with_tokens := by
    simp [Env.enqueue, Job.enqueued]
  have hold : tokensOf (e.enqueue J run with_tokens).jobs e.deque = tokensOf e.jobs e.deque :=
    hkeeps.tokensOf hd
  have hdeque : (e.enqueue J run with_tokens).deque = J :: e.deque := rfl
  rw [Env.enqueueLog]
  by_cases hz : with_tokens = 0
  · have htok : (e.enqueue J run with_tokens).heartbeat_tokens = e.heartbeat_tokens := by
      simp [Env.enqueue, hz]
    rw [if_neg (not_not.mpr hz)]
    refine ⟨?_, List.forall_mem_nil _, rfl, hkeeps⟩
    rw [Env.tokens, Env.tokens, hdeque, tokensOf_cons, hnew, hold, htok, hz]
    simp
  · have htok : (e.enqueue J run with_tokens).heartbeat_tokens =
        e.heartbeat_tokens - with_tokens := by
      simp [Env.enqueue, hz]
    rw [if_pos hz]
    refine ⟨?_, List.forall_mem_singleton.mpr hle, by simp, hkeeps⟩
    rw [Env.tokens, Env.tokens, hdeque, tokensOf_cons, hnew, hold, htok,
      UInt32.toNat_sub_of_le _ _ hle]
    have := UInt32.le_iff_toNat_le.mp hle
    simp
    omega

/-- A promotion function gives no job more than it finds. -/
theorem Call.promfn_tokens (call : Call V) :
    ∀ s ∈ call.promfn.2, ∀ t, s.with_tokens t ≤ t := by
  have hhalf : ∀ t : UInt32, t >>> 1 ≤ t := by
    intro t
    rw [UInt32.le_iff_toNat_le, UInt32.toNat_shiftRight]
    simp [Nat.shiftRight_eq_div_pow]
    omega
  have hceil : ∀ t : UInt32, (t + 1) >>> 1 ≤ t := by
    intro t
    rw [UInt32.le_iff_toNat_le, UInt32.toNat_shiftRight, UInt32.toNat_add]
    have := t.toNat_lt
    simp [Nat.shiftRight_eq_div_pow]
    omega
  cases call with
  | par => exact List.forall_mem_singleton.mpr hhalf
  | spork => exact List.forall_mem_singleton.mpr hhalf
  | parfor factor j body binop c lr =>
    intro s hs
    obtain ⟨h, -, rfl⟩ := List.mem_map.mp hs
    cases h
    · exact fun t => UInt32.le_refl t
    · exact hceil
  | scan n body first up rest c =>
    cases hp : Scan.promotion n c.vars.sig_safe_i with
    | none => simp only [Call.promfn, hp, List.not_mem_nil, false_imp_iff, implies_true]
    | some p =>
      simp only [Call.promfn, hp]
      exact List.forall_mem_singleton.mpr hceil

omit [Inhabited V] in
/-- The jobs of a frame are enqueued, if none is in use. -/
theorem spawnAll_spent (fid : ℕ) {sp : List (Spawn V)} (hnodup : (sp.map Spawn.name).Nodup)
    (hsp : ∀ s ∈ sp, ∀ t, s.with_tokens t ≤ t) {e : Env W V}
    (hidle : ∀ s ∈ sp, (e.jobs ⟨w, fid, s.name⟩).phase = .idle)
    (hd : ∀ J ∈ e.deque, (e.jobs J).phase ≠ .idle) :
    Spent e (Env.spawnLog w fid sp e) (e.spawnAll w fid sp) := by
  induction sp generalizing e with
  | nil => exact .refl e
  | cons s sp ih =>
    obtain ⟨hs, hnodup⟩ := List.nodup_cons.mp hnodup
    obtain ⟨hle, hsp⟩ := List.forall_mem_cons.mp hsp
    obtain ⟨hfirst, hidle⟩ := List.forall_mem_cons.mp hidle
    have hspent := enqueue_spent s.run (hle e.heartbeat_tokens) hfirst hd
    refine hspent.trans (ih hnodup hsp ?_ ?_)
    · intro s' hs'
      have hne : (⟨w, fid, s'.name⟩ : JobId W) ≠ ⟨w, fid, s.name⟩ := by
        intro he
        have hname : s'.name = s.name := congrArg JobId.name he
        exact hs (hname ▸ List.mem_map_of_mem hs')
      have hsame : (e.enqueue ⟨w, fid, s.name⟩ s.run (s.with_tokens e.heartbeat_tokens)).jobs
          ⟨w, fid, s'.name⟩ = e.jobs ⟨w, fid, s'.name⟩ := Function.update_of_ne hne ..
      rw [hsame]
      exact hidle s' hs'
    · refine List.forall_mem_cons.mpr ⟨?_, ?_⟩
      · simp [Env.enqueue, Job.enqueued]
      · intro J hJ
        exact (hspent.keeps J (hd J hJ)).1

section
variable {w : W} {above below : List (Frame V × Place W V)} {js : List (JobId W × Phase W)}
  {next : ℕ} {e : Env W V} {f : Frame V} {p : Place W V}

omit [DecidableEq W] [Inhabited V] in
/-- The enqueued jobs are in use. -/
theorem Holds.deque_used {fs : List (Frame V × Place W V)} {deque : List (JobId W)}
    {jobs : Jobs W V} (h : Holds w fs js deque next jobs) :
    ∀ J ∈ deque, (jobs J).phase ≠ .idle := by
  intro J hJ
  rw [h.matched.queued J hJ]
  exact fun he => by cases he

/-- The promotion function of a frame. -/
theorem Holds.prom_spent (h : Holds w (above ++ (f, p) :: below) js e.deque next e.jobs)
    (hp : p.Promotable) (hun : f.promoted = false ∨ p = .promoting) :
    Spent e (Env.spawnLog w f.fid f.call.promfn.2 e) (e.spawnAll w f.fid f.call.promfn.2) := by
  have hf : FrameOk w e.jobs f p :=
    h.frames (f, p) (List.mem_append_right _ List.mem_cons_self)
  apply spawnAll_spent
  · exact List.nodup_reverse.mp (Call.names_nodup (hf.promotable hp hun))
  · exact f.call.promfn_tokens
  · exact fun s _ => hf.idle hun s.name
  · exact h.deque_used

/-- One slot of `promote_front`. -/
theorem Holds.visit_spent (isOpen : Bool)
    (h : Holds w (above ++ (f, p) :: below) js e.deque next e.jobs)
    (hopen : isOpen = true → p.Promotable) :
    Spent e (f.visitLog w isOpen e) (f.visit w isOpen e).2 := by
  rw [Frame.visitLog, Frame.visit]
  by_cases hc : isOpen = true ∧ e.heartbeat_tokens ≠ 0 ∧ f.promoted = false
  · obtain ⟨ho, ht, hun⟩ := hc
    rw [if_pos ⟨ho, ht, hun⟩, if_pos ⟨ho, ht, hun⟩]
    have hone : (1 : UInt32) ≤ e.heartbeat_tokens := by
      have hne : e.heartbeat_tokens.toNat ≠ 0 := fun h0 => ht (UInt32.toNat_inj.mp h0)
      rw [UInt32.le_iff_toNat_le, UInt32.toNat_one]
      omega
    have hprom := Holds.prom_spent (e := { e with heartbeat_tokens := e.heartbeat_tokens - 1 }) h
      (hopen ho) (.inl hun)
    -- the token of the promotion itself
    have hpay : Spent e [.subtract e.heartbeat_tokens 1, .promoted]
        { e with heartbeat_tokens := e.heartbeat_tokens - 1 } := by
      refine ⟨?_, by simp [Event.Fits, hone], by simp, .refl _⟩
      have := UInt32.le_iff_toNat_le.mp hone
      rw [Env.tokens, Env.tokens, UInt32.toNat_sub_of_le _ _ hone]
      simp at this ⊢
      omega
    exact hpay.trans hprom
  · rw [if_neg hc, if_neg hc]
    exact .refl e

theorem stackLog_of_allPromoted {stack : List (Item W V)} (h : AllPromoted stack) (e : Env W V) :
    stackLog w stack e = [] := by
  induction stack with
  | nil => rfl
  | cons it rest ih =>
    obtain ⟨hit, hrest⟩ := allPromoted_cons.mp h
    cases it with
    | opr J => exact ih hrest
    | frame f sus =>
      have hno : ¬ (sus.isOpen = true ∧ (promoteStack w rest e).2.heartbeat_tokens ≠ 0 ∧
          f.promoted = false) := by
        rintro ⟨ho, -, hp⟩
        exact absurd (hit ho) (by simp [hp])
      rw [stackLog, ih hrest, Frame.visitLog, if_neg hno]
      rfl

/-- The slots of a stack, below frames that owe no job unless there is nothing to promote. -/
theorem promoteStack_spent {stack : List (Item W V)} (hn : Nested stack)
    (h : Holds w (above ++ stack.flatMap Item.frames) js e.deque next e.jobs)
    (habove : AllPromoted stack ∨ ∀ q ∈ above, q.1.pend = []) :
    Spent e (stackLog w stack e) (promoteStack w stack e).2 := by
  rcases habove with hall | habove
  · rw [promoteStack_of_allPromoted w hall, stackLog_of_allPromoted hall]
    exact .refl e
  · induction stack generalizing above with
    | nil => exact .refl e
    | cons it rest ih =>
      cases it with
      | opr J => exact ih hn.2 h habove
      | frame f sus =>
        obtain ⟨hbelow, -, hnest⟩ := hn
        obtain ⟨h', habove'⟩ := h.belowFrame habove hbelow
        have hrest : Spent e (stackLog w rest e) (promoteStack w rest e).2 := by
          rcases habove' with hall | habove'
          · rw [promoteStack_of_allPromoted w hall, stackLog_of_allPromoted hall]
            exact .refl e
          · exact ih hnest h' habove'
        have hholds := (promoteStack_holds hnest h' habove').1
        rw [← List.append_cons] at hholds
        exact hrest.trans (hholds.visit_spent sus.isOpen Sus.promotable)

end
end

/-! ## The budget of a worker -/

section
variable {W V : Type} (w : W)

/-- The tokens of a worker: with the one that a slot is about to be promoted for, and with
those it overwrites when it adds the tokens of a job to what it has read. -/
def Point.kept (tokens : UInt32) : Point W V → ℕ
  | .frame _ (.setPromoted _) => tokens.toNat + 1
  | .frame _ (.reclaimed _ read _) => max tokens.toNat read.toNat
  | _ => tokens.toNat

/-- The job whose tokens the worker is about to take. -/
def Point.coming : Point W V → List (JobId W)
  | .frame f (.reclaim J _) => [f.job w J]
  | .frame f (.reclaimed J _ _) => [f.job w J]
  | .opr J .tokens => [J]
  | _ => []

/-- The tokens of a worker, of the job it is about to take them from, and of its deque. -/
def Worker.budget (x : Worker W V) (jobs : Jobs W V) : ℕ :=
  x.point.kept x.heartbeat_tokens + (tokensOf jobs (x.point.coming w) + tokensOf jobs x.deque)

/-- A step of a worker pays for the promotions of its log with its budget, and a heartbeat
raises the budget by `TOKENS_PER_HEARTBEAT` at most. -/
structure Paid (x : Worker W V) (jobs : Jobs W V) (log : List Event) (r : Worker W V × Jobs W V) :
    Prop where
  budget : r.1.budget w r.2 + log.count .promoted ≤
    x.budget w jobs + TOKENS_PER_HEARTBEAT.toNat * log.count .handled
  fits : ∀ ev ∈ log, ev.Fits
  keeps : KeepsHbt jobs r.2

variable {w} {x : Worker W V} {jobs : Jobs W V} {r : Worker W V × Jobs W V} {f : Frame V}

/-- A step without events. -/
theorem Paid.quiet (hb : r.1.budget w r.2 ≤ x.budget w jobs) (hk : KeepsHbt jobs r.2) :
    Paid w x jobs [] r :=
  ⟨hb, List.forall_mem_nil _, hk⟩

/-- The jobs that a worker has tokens of are in use. -/
theorem Worker.Ok.used (h : x.Ok w jobs) :
    (∀ J ∈ x.point.coming w, (jobs J).phase ≠ .idle) ∧ ∀ J ∈ x.deque, (jobs J).phase ≠ .idle := by
  refine ⟨?_, h.deque_used⟩
  have hframe : ∀ f pc, x.point = .frame f pc → FrameOk w jobs f pc.place := by
    intro f pc hp
    apply h.frames (f, pc.place)
    rw [Worker.frames, hp]
    exact List.mem_cons_self
  have hopr : ∀ J, x.point = .opr J .tokens → (jobs J).phase = .taken w := by
    intro J hp
    refine (h.oprs (J, .taken w) ?_).1
    rw [Worker.oprs, hp]
    exact List.mem_cons_self
  cases hp : x.point with
  | sched => exact List.forall_mem_nil _
  | code c => exact List.forall_mem_nil _
  | opr J stage =>
    cases stage with
    | tokens =>
      refine List.forall_mem_singleton.mpr ?_
      rw [hopr J hp]
      exact fun he => by cases he
    | _ => exact List.forall_mem_nil _
  | frame f pc =>
    cases pc with
    | reclaim J ops =>
      refine List.forall_mem_singleton.mpr ?_
      rw [(hframe f _ hp).place.2.2.1]
      exact fun he => by cases he
    | reclaimed J read ops =>
      refine List.forall_mem_singleton.mpr ?_
      rw [(hframe f _ hp).place.2.2.1]
      exact fun he => by cases he
    | _ => exact List.forall_mem_nil _

/-- The other workers keep their budgets. -/
theorem Worker.Ok.budget_keeps (h : x.Ok w jobs) {jobs' : Jobs W V} (hk : KeepsHbt jobs jobs') :
    x.budget w jobs' = x.budget w jobs := by
  rw [Worker.budget, Worker.budget, hk.tokensOf h.used.1, hk.tokensOf h.used.2]

/-! ## Heartbeats -/

theorem kept_le (p : Point W V) (t : UInt32) : t.toNat ≤ p.kept t := by
  unfold Point.kept
  split
  · omega
  · omega
  · omega

/-- More tokens by the heartbeat, or up to its number. -/
theorem kept_mono {p : Point W V} (hp : ∀ f before, p ≠ .frame f (.setPromoted before))
    {t t' : UInt32} {n m k : ℕ} (hm : t'.toNat + n ≤ k + m) (hk : k ≤ t.toNat + 30)
    (hk' : k ≤ 30) : p.kept t' + n ≤ p.kept t + 30 + m := by
  unfold Point.kept
  split
  · next f before => exact absurd rfl (hp f before)
  · omega
  · omega

variable [DecidableEq W] [Inhabited V]

/-- `promote_front` spends tokens, and moves no call. -/
theorem promote_front_spent (hs : x.SlotsOk) (h : x.Ok w jobs) (hbs tokens : UInt32)
    {y : Worker W V} (hy : y = { x with num_heartbeats := hbs, heartbeat_tokens := tokens }) :
    Spent (y.env jobs) (y.frontLog w jobs)
      ((y.promote_front w jobs).1.env (y.promote_front w jobs).2) ∧
    (y.promote_front w jobs).1.point.coming w = x.point.coming w ∧
    ∀ t, (y.promote_front w jobs).1.point.kept t = x.point.kept t := by
  have hh : Holds w (x.point.frames ++ x.stack.flatMap Item.frames) (x.oprs w)
      (y.env jobs).deque x.next (y.env jobs).jobs := by
    rw [hy]
    exact h
  have habove := h.top hs
  have hstack := promoteStack_spent hs.nested hh habove
  have hxy : y.stack = x.stack := by rw [hy]
  have hpy : y.point = x.point := by rw [hy]
  rw [Worker.frontLog, Worker.promote_front]
  rw [hxy, hpy]
  cases hp : x.point with
  | frame f pc =>
    rw [hp] at hh habove
    have hholds := (promoteStack_holds hs.nested hh habove).1
    have hholds : Holds w ([] ++ (f, pc.place) :: _) _ _ _ _ := hholds
    have hvisit := hholds.visit_spent pc.isOpen Pc.promotable
    refine ⟨hstack.trans hvisit, ?_, ?_⟩
    · cases pc <;> simp [Point.coming, Frame.job, visit_fid]
    · intro t
      cases pc <;> rfl
  | _ =>
    have hpoint : y.point = _ := hpy.trans hp
    exact ⟨hstack.trans (.refl _), congrArg (Point.coming w) hpoint,
      fun t => congrArg (Point.kept t) hpoint⟩

omit [DecidableEq W] [Inhabited V] in
/-- A promotion pays with what the heartbeat has given. -/
theorem Spent.paid {e : Env W V} {log : List Event} (hspent : Spent e log (r.1.env r.2))
    (hok : x.Ok w jobs) (hjobs : e.jobs = jobs) (hdeque : e.deque = x.deque)
    (hcap : e.heartbeat_tokens.toNat ≤ x.heartbeat_tokens.toNat + 30 ∧
      e.heartbeat_tokens.toNat ≤ 30)
    (hset : ∀ f before, x.point ≠ .frame f (.setPromoted before))
    (hcoming : r.1.point.coming w = x.point.coming w)
    (hkept : ∀ t, r.1.point.kept t = x.point.kept t) :
    Paid w x jobs (.handled :: log) r := by
  subst hjobs
  refine ⟨?_, List.forall_mem_cons.mpr ⟨trivial, hspent.fits⟩, hspent.keeps⟩
  have hcome : tokensOf r.2 (x.point.coming w) = tokensOf e.jobs (x.point.coming w) :=
    hspent.keeps.tokensOf hok.used.1
  have htok : r.1.heartbeat_tokens.toNat + tokensOf r.2 r.1.deque + log.count .promoted =
      e.heartbeat_tokens.toNat + tokensOf e.jobs e.deque := hspent.tokens
  rw [hdeque, add_assoc] at htok
  have hmono := kept_mono hset htok.le hcap.1 hcap.2
  have hper : TOKENS_PER_HEARTBEAT.toNat = 30 := rfl
  have hhand : (Event.handled :: log).count .handled = 1 := by
    rw [List.count_cons_self, hspent.unhandled]
  have hprom : (Event.handled :: log).count .promoted = log.count .promoted :=
    List.count_cons_of_ne (by simp)
  rw [Worker.budget, Worker.budget, hcoming, hkept, hcome, hhand, hprom, hper]
  omega

/-- A heartbeat pays for its promotions. -/
theorem heartbeat_paid (hs : x.SlotsOk) (h : x.Ok w jobs) :
    Paid w x jobs (x.heartbeatLog w jobs) (x.heartbeat_handler w jobs) := by
  rw [Worker.heartbeatLog, Worker.heartbeat_handler]
  by_cases hen : x.disable_heartbeats
  · rw [if_pos hen, if_pos hen]
    exact .quiet le_rfl (.refl _)
  · rw [if_neg hen, if_neg hen]
    set t := if x.heartbeat_tokens + TOKENS_PER_HEARTBEAT > MAX_HEARTBEAT_TOKENS then
      MAX_HEARTBEAT_TOKENS else x.heartbeat_tokens + TOKENS_PER_HEARTBEAT with ht
    have hcap : t.toNat ≤ x.heartbeat_tokens.toNat + 30 ∧ t.toNat ≤ 30 := by
      have hmax : MAX_HEARTBEAT_TOKENS.toNat = 30 := rfl
      have hper : TOKENS_PER_HEARTBEAT.toNat = 30 := rfl
      have hadd := UInt32.toNat_add x.heartbeat_tokens TOKENS_PER_HEARTBEAT
      by_cases hc : x.heartbeat_tokens + TOKENS_PER_HEARTBEAT > MAX_HEARTBEAT_TOKENS
      · have hlt := UInt32.lt_iff_toNat_lt.mp hc
        rw [ht, if_pos hc]
        omega
      · have hle := UInt32.le_iff_toNat_le.mp (UInt32.not_lt.mp hc)
        rw [ht, if_neg hc]
        omega
    -- between the subtraction and the promotion heartbeats are disabled
    have hset : ∀ f before, x.point ≠ .frame f (.setPromoted before) := by
      intro f before hp
      have hpoint := hs.point
      rw [Worker.PointOk, hp] at hpoint
      exact hen hpoint.place.1
    obtain ⟨hspent, hcoming, hkept⟩ := promote_front_spent hs h (x.num_heartbeats + 1) t rfl
    exact hspent.paid h rfl rfl hcap hset hcoming hkept


/-! ## Steps -/

omit [Inhabited V] in
/-- A job that keeps its tokens. -/
theorem tokensOf_update {J : JobId W} {j : Job W V} (hj : j.hbt = (jobs J).hbt)
    (d : List (JobId W)) : tokensOf (Function.update jobs J j) d = tokensOf jobs d := by
  rw [tokensOf]
  congr 1
  apply List.map_congr_left
  intro X _
  by_cases hX : X = J
  · rw [hX, Function.update_self, hj]
  · rw [Function.update_of_ne hX]

omit [Inhabited V] in
theorem keepsHbt_update {J : JobId W} {j : Job W V} (hj : j.hbt = (jobs J).hbt)
    (hph : j.phase ≠ .idle) : KeepsHbt jobs (Function.update jobs J j) := by
  intro X hX
  by_cases he : X = J
  · subst he
    rw [Function.update_self]
    exact ⟨hph, hj⟩
  · rw [Function.update_of_ne he]
    exact ⟨hX, rfl⟩

/-- The test before the subtraction of `eager_promote` still holds. -/
def Worker.DecOk (x : Worker W V) : Prop :=
  ∀ f before, x.point = .frame f (.dec before) → x.heartbeat_tokens ≠ 0

omit [Inhabited V] in
/-- A worker takes back its newest job, and may be about to take its tokens. -/
theorem Paid.popped {y : Worker W V} {J : JobId W} {d : List (JobId W)} (hd : x.deque = J :: d)
    (hy : y.deque = d) (hkept : y.point.kept y.heartbeat_tokens = x.point.kept x.heartbeat_tokens)
    (hcoming : y.point.coming w = [] ∨ y.point.coming w = [J]) :
    Paid w x jobs [] (y, Function.update jobs J ((jobs J).move .popped)) := by
  have hupd : ∀ d, tokensOf (Function.update jobs J ((jobs J).move .popped)) d = tokensOf jobs d :=
    tokensOf_update rfl
  refine .quiet ?_ (keepsHbt_update rfl (by simp [Job.move]))
  rw [Worker.budget, Worker.budget, hupd, hupd, hd, hy, hkept, tokensOf_cons]
  rcases hcoming with hc | hc
  · rw [hc, tokensOf_nil]
    omega
  · rw [hc, tokensOf_cons, tokensOf_nil]
    omega

omit [Inhabited V] in
/-- A worker starts or ends the run of a job. -/
theorem Paid.update {y : Worker W V} {J : JobId W} {j : Job W V} (hj : j.hbt = (jobs J).hbt)
    (hph : j.phase ≠ .idle) (hb : y.budget w jobs ≤ x.budget w jobs) :
    Paid w x jobs [] (y, Function.update jobs J j) := by
  refine .quiet ?_ (keepsHbt_update hj hph)
  rw [Worker.budget, tokensOf_update hj, tokensOf_update hj]
  exact hb

theorem frameStep_paid {pc : Pc V} (hp : x.point = .frame f pc)
    (h : Holds w ((f, pc.place) :: x.stack.flatMap Item.frames) (x.stack.flatMap (Item.oprs w))
      x.deque x.next jobs)
    (hs : SlotOk x.stack x.heartbeat_tokens x.disable_heartbeats f pc) (hdec : x.DecOk)
    (hstep : x.frameStep w jobs f pc = some r) : Paid w x jobs (x.runLog w jobs) r := by
  have hf : FrameOk w jobs f pc.place := h.frames _ List.mem_cons_self
  have hlog : x.runLog w jobs = x.frameLog w jobs f pc := by
    rw [Worker.runLog, hp]
  have hx : x.budget w jobs = (Point.frame f pc : Point W V).kept x.heartbeat_tokens +
      (tokensOf jobs ((Point.frame f pc).coming w) + tokensOf jobs x.deque) := by
    rw [Worker.budget, hp]
  rw [hlog]
  cases pc with
  | ctor =>
    cases hstep
    exact .quiet hx.ge (.refl _)
  | check =>
    cases hstep
    refine .quiet (hx.ge.trans' ?_) (.refl _)
    by_cases htok : x.heartbeat_tokens ≠ 0
    · rw [if_pos htok]
      exact le_rfl
    · rw [if_neg htok]
      exact le_rfl
  | save =>
    cases hstep
    exact .quiet hx.ge (.refl _)
  | disable before =>
    cases hstep
    exact .quiet hx.ge (.refl _)
  | retest before =>
    cases hstep
    refine .quiet (hx.ge.trans' ?_) (.refl _)
    by_cases htok : x.heartbeat_tokens ≠ 0 ∧ f.promoted = false
    · rw [if_pos htok]
      exact le_rfl
    · rw [if_neg htok]
      exact le_rfl
  | dec before =>
    cases hstep
    have hone : (1 : UInt32) ≤ x.heartbeat_tokens := by
      have hne : x.heartbeat_tokens.toNat ≠ 0 := fun h0 => hdec f before hp (UInt32.toNat_inj.mp h0)
      rw [UInt32.le_iff_toNat_le, UInt32.toNat_one]
      omega
    have hsub := UInt32.toNat_sub_of_le _ _ hone
    have hle := UInt32.le_iff_toNat_le.mp hone
    refine ⟨?_, List.forall_mem_singleton.mpr hone, .refl _⟩
    rw [hx]
    simp [Worker.budget, Worker.goto, Worker.frameLog, Point.kept, Point.coming] at hsub hle ⊢
    omega
  | setPromoted before =>
    cases hstep
    refine ⟨?_, List.forall_mem_singleton.mpr trivial, .refl _⟩
    rw [hx]
    have hhandled : (x.frameLog w jobs f (.setPromoted before)).count .handled = 0 := by
      simp [Worker.frameLog]
    have hpromoted : (x.frameLog w jobs f (.setPromoted before)).count .promoted = 1 := by
      simp [Worker.frameLog]
    rw [hhandled, hpromoted]
    simp only [Worker.budget, Worker.goto, Point.kept, Point.coming, tokensOf_nil]
    omega
  | prom before =>
    cases hstep
    have hframe : Holds w ([] ++ (f, (Pc.prom before).place) :: _) _ _ _ _ := h
    have hspent : Spent (x.env jobs) (Env.spawnLog w f.fid f.call.promfn.2 (x.env jobs))
        ((x.env jobs).spawnAll w f.fid f.call.promfn.2) := by
      apply hframe.prom_spent
      · trivial
      · exact .inr rfl
    refine ⟨?_, hspent.fits, hspent.keeps⟩
    have htok := hspent.tokens
    have hhand : (x.frameLog w jobs f (.prom before)).count .handled = 0 := hspent.unhandled
    rw [hx, hhand]
    simp only [Worker.env, Env.tokens] at htok
    simp [Worker.budget, Worker.goto, Worker.frameLog, Worker.setEnv, Frame.prom, Point.kept,
      Point.coming, Worker.env, tokensOf] at htok ⊢
    omega
  | restore before =>
    cases hstep
    exact .quiet hx.ge (.refl _)
  | body =>
    rcases Worker.frameStep_body w hstep with ⟨c, -, rfl⟩ | ⟨call, -, rfl⟩ | ⟨-, rfl⟩
    · exact .quiet hx.ge (.refl _)
    · exact .quiet hx.ge (.refl _)
    · exact .quiet hx.ge (.refl _)
  | close =>
    cases hstep
    exact .quiet hx.ge (.refl _)
  | closed =>
    obtain ⟨ops, hops, rfl⟩ := Option.map_eq_some_iff.mp hstep
    exact .quiet hx.ge (.refl _)
  | act ops =>
    cases ops with
    | nil =>
      cases hstep
      exact .quiet hx.ge (.refl _)
    | cons op ops =>
      cases op with
      | call e c =>
        cases hstep
        exact .quiet hx.ge (.refl _)
      | sync J reclaim =>
        have hpend : f.pend = J :: joins ops := hf.place
        rcases h.find hpend with ⟨hq, d, hd⟩ | ⟨hst, hd⟩
        · simp only [Worker.frameStep, Worker.try_dequeue_cons jobs hd] at hstep
          cases hstep
          have hkept := congrArg (Point.kept x.heartbeat_tokens) hp
          cases reclaim
          · exact .popped hd rfl hkept.symm (.inl rfl)
          · exact .popped hd rfl hkept.symm (.inr rfl)
        · simp only [Worker.frameStep, Worker.try_dequeue_nil jobs hd] at hstep
          cases hstep
          exact .quiet hx.ge (.refl _)
      | sync_is_stolen J unstolen stolen =>
        have hpend : f.pend = J :: joins ops := hf.place
        rcases h.find hpend with ⟨hq, d, hd⟩ | ⟨hst, hd⟩
        · simp only [Worker.frameStep, Worker.try_dequeue_cons jobs hd] at hstep
          cases hstep
          exact .popped hd rfl (congrArg (Point.kept x.heartbeat_tokens) hp).symm (.inl rfl)
        · simp only [Worker.frameStep, Worker.try_dequeue_nil jobs hd] at hstep
          cases hstep
          exact .quiet hx.ge (.refl _)
  | reclaim J ops =>
    cases hstep
    refine .quiet (hx.ge.trans' ?_) (.refl _)
    simp [Worker.budget, Worker.goto, Point.kept, Point.coming]
  | reclaimed J tokens ops =>
    cases hstep
    refine .quiet (hx.ge.trans' ?_) (.refl _)
    have hadd := UInt32.toNat_add tokens (jobs (f.job w J)).hbt
    have hmod := Nat.mod_le (tokens.toNat + (jobs (f.job w J)).hbt.toNat) (2 ^ 32)
    simp only [Worker.budget, Worker.goto, Point.kept, Point.coming, tokensOf_cons, tokensOf_nil]
    omega
  | clone J ops =>
    cases hstep
    exact .update rfl (by simp [Job.start]) hx.ge
  | finished J next =>
    rcases Worker.frameStep_finished w hstep with ⟨-, rfl⟩ | rfl
    · exact .quiet hx.ge (.refl _)
    · exact .quiet hx.ge (.refl _)

omit [Inhabited V] in
theorem returnStep_paid {v : V} {c : Code V} (hp : x.point = .code c)
    (hstep : x.returnStep w jobs v = some r) : Paid w x jobs [] r := by
  have hx : x.budget w jobs = (Point.code c : Point W V).kept x.heartbeat_tokens +
      (tokensOf jobs ((Point.code c).coming w) + tokensOf jobs x.deque) := by
    rw [Worker.budget, hp]
  rcases Worker.returnStep_cases w x jobs hstep with ⟨J, rest, -, rfl⟩ |
    ⟨f, rest, call, ended, -, -, rfl⟩ | ⟨f, ops, rest, -, rfl⟩ | ⟨f, J, ops, rest, -, rfl⟩
  · exact .update rfl (by simp [Job.stop]) hx.ge
  · cases ended
    · exact .quiet hx.ge (.refl _)
    · exact .quiet hx.ge (.refl _)
  · exact .quiet hx.ge (.refl _)
  · exact .update rfl (by simp [Job.stop]) hx.ge

omit [Inhabited V] in
theorem oprStep_paid {J : JobId W} {stage : Stage} (hp : x.point = .opr J stage) :
    Paid w x jobs [] (x.oprStep w jobs J stage) := by
  have hx : x.budget w jobs = (Point.opr J stage : Point W V).kept x.heartbeat_tokens +
      (tokensOf jobs ((Point.opr J stage : Point W V).coming w) + tokensOf jobs x.deque) := by
    rw [Worker.budget, hp]
  cases stage with
  | tokens =>
    -- what the thief has left is overwritten
    refine .quiet (hx.ge.trans' ?_) (.refl _)
    simp [Worker.oprStep, Worker.budget, Point.kept, Point.coming]
  | run => exact .update rfl (by simp [Job.start]) hx.ge
  | ended => exact .update rfl (by simp [Job.move]) hx.ge

/-- A step of a worker pays for its promotions. -/
theorem run_paid {n : ℕ} (hs : x.SlotsOk) (h : x.Ok w jobs) (hdec : x.DecOk)
    (hstep : x.run w jobs n = some r) : Paid w x jobs (x.runLog w jobs) r := by
  have hpoint := hs.point
  rw [Worker.PointOk] at hpoint
  rw [Worker.run] at hstep
  cases hp : x.point with
  | sched =>
    have hlog : x.runLog w jobs = [] := by rw [Worker.runLog, hp]
    have hx : x.budget w jobs = x.heartbeat_tokens.toNat + (0 + tokensOf jobs x.deque) := by
      rw [Worker.budget, hp]
      rfl
    simp only [hp] at hpoint hstep
    rw [hlog]
    obtain ⟨f, J, next, rest, -, -, rfl⟩ := x.schedStep_cases w jobs hstep
    exact .quiet hx.ge (.refl _)
  | code c =>
    have hlog : x.runLog w jobs = [] := by rw [Worker.runLog, hp]
    have hx : x.budget w jobs = x.heartbeat_tokens.toNat + (0 + tokensOf jobs x.deque) := by
      rw [Worker.budget, hp]
      rfl
    simp only [hp] at hstep
    rw [hlog]
    rcases x.codeStep_cases w jobs hstep with ⟨v, -, hret⟩ | ⟨k, -, rfl⟩ | ⟨call, k, henter, rfl⟩
    · exact returnStep_paid hp hret
    · exact .quiet hx.ge (.refl _)
    · exact .quiet hx.ge (.refl _)
  | frame f pc =>
    simp only [hp] at hpoint hstep
    rw [Worker.Ok, Worker.frames, Worker.oprs] at h
    rw [hp] at h
    exact frameStep_paid hp h hpoint hdec hstep
  | opr J stage =>
    have hlog : x.runLog w jobs = [] := by rw [Worker.runLog, hp]
    simp only [hp] at hstep
    cases hstep
    rw [hlog]
    exact oprStep_paid hp

/-! ## The budget of all workers -/

/-- Only the test before it leads to the subtraction of `eager_promote`. -/
theorem frameStep_dec {pc : Pc V} {f' : Frame V} {before : Bool}
    (hstep : x.frameStep w jobs f pc = some r) (hp' : r.1.point = .frame f' (.dec before)) :
    r.1.heartbeat_tokens ≠ 0 := by
  cases pc with
  | check =>
    cases hstep
    by_cases htok : x.heartbeat_tokens ≠ 0
    · exact htok
    · rw [if_neg htok] at hp'
      cases hp'
  | retest before =>
    cases hstep
    by_cases htok : x.heartbeat_tokens ≠ 0 ∧ f.promoted = false
    · exact htok.1
    · rw [if_neg htok] at hp'
      cases hp'
  | body =>
    rcases Worker.frameStep_body w hstep with ⟨c, -, rfl⟩ | ⟨call, -, rfl⟩ | ⟨-, rfl⟩ <;> cases hp'
  | closed =>
    obtain ⟨ops, hops, rfl⟩ := Option.map_eq_some_iff.mp hstep
    cases hp'
  | act ops =>
    cases ops with
    | nil =>
      cases hstep
      cases hp'
    | cons op ops =>
      cases op with
      | call e c =>
        cases hstep
        cases hp'
      | sync J reclaim =>
        rcases Worker.frameStep_sync w hstep with ⟨-, rfl⟩ | ⟨X, d, -, rfl⟩
        · cases hp'
        · cases reclaim <;> cases hp'
      | sync_is_stolen J unstolen stolen =>
        rcases Worker.frameStep_sync_is_stolen w hstep with ⟨-, rfl⟩ | ⟨X, d, -, rfl⟩ <;> cases hp'
  | finished J next =>
    rcases Worker.frameStep_finished w hstep with ⟨-, rfl⟩ | rfl <;> cases hp'
  | _ =>
    cases hstep
    cases hp'

theorem run_decOk {n : ℕ} (hstep : x.run w jobs n = some r) : r.1.DecOk := by
  intro f' before hp'
  rw [Worker.run] at hstep
  cases hp : x.point with
  | sched =>
    simp only [hp] at hstep
    obtain ⟨f, J, next, rest, -, -, rfl⟩ := x.schedStep_cases w jobs hstep
    cases hp'
  | code c =>
    simp only [hp] at hstep
    rcases x.codeStep_cases w jobs hstep with ⟨v, -, hret⟩ | ⟨k, -, rfl⟩ | ⟨call, k, henter, rfl⟩
    · rcases Worker.returnStep_cases w x jobs hret with ⟨J, rest, -, rfl⟩ |
        ⟨f, rest, call, ended, -, -, rfl⟩ | ⟨f, ops, rest, -, rfl⟩ | ⟨f, J, ops, rest, -, rfl⟩
      · cases hp'
      · cases ended <;> cases hp'
      · cases hp'
      · cases hp'
    · cases hp'
    · cases hp'
  | opr J stage =>
    simp only [hp] at hstep
    cases hstep
    cases stage <;> cases hp'
  | frame f pc =>
    simp only [hp] at hstep
    exact frameStep_dec hstep hp'

theorem heartbeat_decOk (hs : x.SlotsOk) (h : x.DecOk) : (x.heartbeat_handler w jobs).1.DecOk := by
  intro f' before hp'
  rw [Worker.heartbeat_handler] at hp' ⊢
  by_cases hen : x.disable_heartbeats
  · rw [if_pos hen] at hp' ⊢
    exact h f' before hp'
  · rw [if_neg hen] at hp'
    have hpoint := hs.point
    rw [Worker.PointOk] at hpoint
    rw [Worker.promote_front] at hp'
    cases hp : x.point with
    | frame f pc =>
      simp only [hp] at hpoint hp'
      cases hp'
      exact absurd hpoint.place.1 hen
    | _ =>
      simp only [hp] at hp'
      cases hp'

variable {s s' : State W V}

omit [Inhabited V] in
theorem start_decOk {v : W} {J : JobId W} {d : List (JobId W)}
    (h : ∀ u, (s.workers u).DecOk) (u : W) : (((s.setDeque v d).start w J).workers u).DecOk := by
  intro f before hp
  by_cases hu : u = w
  · subst hu
    rw [State.start, State.set_self] at hp
    cases hp
  · rw [State.start, State.set_ne w _ hu, State.setDeque_workers] at hp ⊢
    exact h u f before hp

variable [Fintype W]

/-- The budget of all workers. -/
def State.budget (s : State W V) : ℕ := ∑ v, (s.workers v).budget v s.jobs

omit [Inhabited V] in
/-- One worker changes. -/
theorem sum_change {g g' : W → ℕ} {a b : ℕ} (hsame : ∀ v, v ≠ w → g' v = g v)
    (hw : g' w + a ≤ g w + b) : ∑ v, g' v + a ≤ ∑ v, g v + b := by
  have hrest : ∑ v ∈ Finset.univ.erase w, g' v = ∑ v ∈ Finset.univ.erase w, g v :=
    Finset.sum_congr rfl fun v hv => hsame v (Finset.ne_of_mem_erase hv)
  rw [← Finset.add_sum_erase _ g' (Finset.mem_univ w),
    ← Finset.add_sum_erase _ g (Finset.mem_univ w)]
  omega

omit [Inhabited V] in
/-- One worker pays. -/
theorem State.Inv.paid {log : List Event} (h : s.Inv) (hp : Paid w (s.workers w) s.jobs log r) :
    (s.set w r).budget + log.count .promoted ≤
      s.budget + TOKENS_PER_HEARTBEAT.toNat * log.count .handled := by
  apply sum_change (w := w)
  · intro v hv
    rw [State.set_ne w s hv]
    exact (h.workers v).budget_keeps hp.keeps
  · rw [State.set_self]
    exact hp.budget

omit [Inhabited V] in
/-- The tokens of a job go with it from the deque to the thief. -/
theorem start_budget {v : W} {J : JobId W} {d d' : List (JobId W)}
    (hlook : (s.workers w).looking = true) (hd : (s.workers v).deque = d ++ J :: d') :
    ((s.setDeque v (d ++ d')).start w J).budget ≤ s.budget := by
  have hgive : (s.setDeque v (d ++ d')).budget + (s.jobs J).hbt.toNat ≤ s.budget + 0 := by
    apply sum_change (w := v)
    · intro u hu
      rw [State.setDeque_workers, if_neg hu]
      rfl
    · rw [State.setDeque_workers, if_pos rfl, Worker.budget, Worker.budget, hd]
      simp [State.setDeque, State.set]
      omega
  have htake : ((s.setDeque v (d ++ d')).start w J).budget + 0 ≤
      (s.setDeque v (d ++ d')).budget + (s.jobs J).hbt.toNat := by
    have hupd : ∀ d,
        tokensOf (Function.update s.jobs J ((s.jobs J).move (.taken w))) d = tokensOf s.jobs d :=
      tokensOf_update rfl
    have hpoint : ((s.setDeque v (d ++ d')).workers w).point = .sched := by
      rw [State.setDeque_workers]
      exact looking_iff.mp hlook
    apply sum_change (w := w)
    · intro u hu
      rw [State.start, State.set_ne w _ hu, Worker.budget, Worker.budget]
      exact congrArg₂ (fun a b => _ + (a + b)) (hupd _) (hupd _)
    · have hw : ((s.setDeque v (d ++ d')).start w J).workers w =
          ((s.setDeque v (d ++ d')).workers w).take J := by
        rw [State.start, State.set_self]
      have hjobs : ((s.setDeque v (d ++ d')).start w J).jobs =
        Function.update s.jobs J ((s.jobs J).move (.taken w)) := rfl
      rw [hw, hjobs, Worker.budget, Worker.budget, hpoint, hupd, hupd]
      simp [Worker.take, Point.kept, Point.coming, State.setDeque, State.set]
      omega
  omega

/-- A step pays for its promotions. -/
theorem step_budget {l : Label W} (h : s.Inv) (hdec : ∀ v, (s.workers v).DecOk)
    (hstep : s.step l = some s') :
    s'.budget + (s.log l).count .promoted ≤
      s.budget + TOKENS_PER_HEARTBEAT.toNat * (s.log l).count .handled ∧
    (∀ ev ∈ s.log l, ev.Fits) ∧ ∀ v, (s'.workers v).DecOk := by
  cases l with
  | run w n =>
    obtain ⟨r, hr, rfl⟩ := Option.map_eq_some_iff.mp hstep
    have hp := run_paid (h.slots w) (h.workers w) (hdec w) hr
    refine ⟨h.paid hp, hp.fits, fun v => ?_⟩
    by_cases hv : v = w
    · subst hv
      rw [State.set_self]
      exact run_decOk hr
    · rw [State.set_ne w s hv]
      exact hdec v
  | heartbeat w =>
    cases hstep
    have hp := heartbeat_paid (h.slots w) (h.workers w)
    refine ⟨h.paid hp, hp.fits, fun v => ?_⟩
    by_cases hv : v = w
    · subst hv
      rw [State.set_self]
      exact heartbeat_decOk (h.slots v) (hdec v)
    · rw [State.set_ne w s hv]
      exact hdec v
  | get_own_job w =>
    simp only [State.step] at hstep
    cases hl : (s.workers w).looking <;> cases hd : (s.workers w).deque <;>
      simp only [hl, hd, reduceCtorEq, Option.some.injEq] at hstep
    subst hstep
    exact ⟨start_budget (d := []) hl hd, List.forall_mem_nil _, start_decOk hdec⟩
  | steal w victim =>
    simp only [State.step] at hstep
    cases hl : (s.workers w).looking <;> cases hd : steal (s.workers victim).deque <;>
      simp only [hl, hd, reduceCtorEq, Option.some.injEq] at hstep
    next _ r =>
    obtain ⟨d, J⟩ := r
    subst hstep
    have hdeque : (s.workers victim).deque = d ++ J :: [] := steal_eq_some.mp hd
    have hbudget := start_budget hl hdeque
    rw [List.append_nil] at hbudget
    exact ⟨hbudget, List.forall_mem_nil _, start_decOk hdec⟩

/-- A run pays for its promotions. -/
theorem trace_budget {ls : List (Label W)} (h : s.Inv) (hdec : ∀ v, (s.workers v).DecOk)
    (hrun : State.exec ls s = some s') :
    s'.budget + (s.trace ls).count .promoted ≤
      s.budget + TOKENS_PER_HEARTBEAT.toNat * (s.trace ls).count .handled ∧
    ∀ ev ∈ s.trace ls, ev.Fits := by
  induction ls generalizing s with
  | nil =>
    cases hrun
    exact ⟨le_rfl, List.forall_mem_nil _⟩
  | cons l ls ih =>
    obtain ⟨s₁, hl, hrest⟩ := Option.bind_eq_some_iff.mp hrun
    obtain ⟨hstep, hfits, hdec'⟩ := step_budget h hdec hl
    obtain ⟨hbudget, hfits'⟩ := ih (step_inv h ⟨l, hl⟩) hdec' hrest
    have htrace : s.trace (l :: ls) = s.log l ++ s₁.trace ls := by rw [State.trace, hl]; rfl
    rw [htrace, List.count_append, List.count_append, Nat.mul_add]
    exact ⟨by omega, List.forall_mem_append.mpr ⟨hfits, hfits'⟩⟩

omit [DecidableEq W] [Inhabited V] in
/-- The tokens of the workers and of the enqueued jobs are in the budget. -/
theorem tokens_le_budget : ∑ v, (s.workers v).heartbeat_tokens.toNat +
    ∑ v, tokensOf s.jobs (s.workers v).deque ≤ s.budget := by
  rw [← Finset.sum_add_distrib]
  apply Finset.sum_le_sum
  intro v _
  have := kept_le (s.workers v).point (s.workers v).heartbeat_tokens
  rw [Worker.budget]
  omega

end

/-- In every run of every program, over any number of workers and with heartbeats between any
two steps, the promotions, the tokens of all workers and those of the enqueued jobs are paid
by the heartbeats handled, and no subtraction from `heartbeat_tokens` goes below zero. -/
theorem heartbeat_work_bound {W V : Type} [DecidableEq W] [Inhabited V] [Fintype W]
    (main : W → Option (Code V)) {ls : List (Label W)} {s : State W V}
    (h : State.exec ls (State.init main) = some s) :
    ((State.init main).trace ls).count .promoted +
        ∑ v, (s.workers v).heartbeat_tokens.toNat + ∑ v, tokensOf s.jobs (s.workers v).deque ≤
      TOKENS_PER_HEARTBEAT.toNat * ((State.init main).trace ls).count .handled ∧
    ((State.init main).trace ls).count .promoted ≤
      TOKENS_PER_HEARTBEAT.toNat * ((State.init main).trace ls).count .handled ∧
    ∀ found taken, .subtract found taken ∈ (State.init main).trace ls → taken ≤ found := by
  have hinv : (State.init main).Inv := reachable_inv ⟨main, .refl⟩
  have hpoint : ∀ v, ((State.init main).workers v).point = (main v).elim .sched .code :=
    fun _ => rfl
  have hdec : ∀ v, ((State.init main).workers v).DecOk := by
    intro v f before hp
    rw [hpoint] at hp
    cases hm : main v <;> rw [hm] at hp <;> cases hp
  have hzero : (State.init main).budget = 0 := by
    apply Finset.sum_eq_zero
    intro v _
    rw [Worker.budget, hpoint]
    cases main v <;> rfl
  obtain ⟨hbudget, hfits⟩ := trace_budget hinv hdec h
  have hle := tokens_le_budget (s := s)
  refine ⟨by omega, by omega, fun found taken hmem => hfits _ hmem⟩

/-- The run `parRun`. -/
theorem heartbeat_work_bound_par :
    ((State.init parMain).trace parRun).count .promoted +
        ∑ v, (parState.workers v).heartbeat_tokens.toNat +
        ∑ v, tokensOf parState.jobs (parState.workers v).deque ≤
      TOKENS_PER_HEARTBEAT.toNat * ((State.init parMain).trace parRun).count .handled :=
  (heartbeat_work_bound parMain (Option.some_get _).symm).1

end Spork.Scheduler
