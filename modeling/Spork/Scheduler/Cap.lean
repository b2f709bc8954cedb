import Spork.Scheduler.Tokens

/-!
# The cap on the tokens of a worker

`heartbeat_handler` cuts the tokens of its worker at `MAX_HEARTBEAT_TOKENS`. A promotion
function only gives tokens away, to jobs that then hold no more than the cap either, and a
thief starts with those of its job. `fast_clone` adds the tokens of a job to whatever its
worker has, and does not cut the sum: heartbeats may have filled the worker up since the job
was enqueued.

## Main definitions

* `State.Capped` — no worker is above the cap.
* `Label.ReclaimFits` — a step that adds the tokens of a job stays below the cap.
* `State.Throughout`, `State.EachStep` — what holds in all states, or of all steps, of a run.
* `TokenWrite` — the writes to `heartbeat_tokens` in the code of a worker.
* `capped_iff`.
-/
namespace Spork.Scheduler

open WorkStealing

section
variable {W V : Type}

/-- No worker has more than `MAX_HEARTBEAT_TOKENS`. -/
def State.Capped (s : State W V) : Prop :=
  ∀ w, (s.workers w).heartbeat_tokens ≤ MAX_HEARTBEAT_TOKENS

/-- No job holds more. -/
def Jobs.Capped (jobs : Jobs W V) : Prop := ∀ J, (jobs J).hbt ≤ MAX_HEARTBEAT_TOKENS

/-- If the worker is about to add the tokens of a job to those it has read, the sum is below the
cap. -/
def Worker.ReclaimFits (w : W) (x : Worker W V) (jobs : Jobs W V) : Prop :=
  ∀ f J read ops, x.point = .frame f (.reclaimed J read ops) →
    read.toNat + (jobs (f.job w J)).hbt.toNat ≤ MAX_HEARTBEAT_TOKENS.toNat

/-- The same of the worker that takes a step. -/
def Label.ReclaimFits (s : State W V) : Label W → Prop
  | .run w _ => (s.workers w).ReclaimFits w s.jobs
  | _ => True

variable [DecidableEq W] [Inhabited V] (w : W)

/-- `P` holds in all states of a run. -/
def State.Throughout (P : State W V → Prop) : List (Label W) → State W V → Prop
  | [], s => P s
  | l :: ls, s => P s ∧ ∀ s', s.step l = some s' → Throughout P ls s'

/-- `P` holds of all steps of a run. -/
def State.EachStep (P : State W V → Label W → Prop) : List (Label W) → State W V → Prop
  | [], _ => True
  | l :: ls, s => P s l ∧ ∀ s', s.step l = some s' → EachStep P ls s'

theorem State.Throughout.last {P : State W V → Prop} {ls : List (Label W)} {s s' : State W V}
    (h : s.Throughout P ls) (hrun : State.exec ls s = some s') : P s' := by
  induction ls generalizing s with
  | nil =>
    cases hrun
    exact h
  | cons l ls ih =>
    obtain ⟨s₁, hl, hrest⟩ := Option.bind_eq_some_iff.mp hrun
    exact ih (h.2 s₁ hl) hrest

/-! ## Promotion functions -/

/-- A worker and all jobs are below the cap. -/
structure Env.Capped (e : Env W V) : Prop where
  tokens : e.heartbeat_tokens ≤ MAX_HEARTBEAT_TOKENS
  jobs : e.jobs.Capped

omit [DecidableEq W] [Inhabited V] in
theorem sub_le_cap {t n : UInt32} (ht : t ≤ MAX_HEARTBEAT_TOKENS) (hn : n ≤ t) :
    t - n ≤ MAX_HEARTBEAT_TOKENS := by
  have hsub := UInt32.toNat_sub_of_le _ _ hn
  have hcap := UInt32.le_iff_toNat_le.mp ht
  rw [UInt32.le_iff_toNat_le]
  omega

omit [DecidableEq W] [Inhabited V] in
theorem one_le_tokens {t : UInt32} (ht : t ≠ 0) : 1 ≤ t := by
  have hne : t.toNat ≠ 0 := fun h0 => ht (UInt32.toNat_inj.mp h0)
  rw [UInt32.le_iff_toNat_le, UInt32.toNat_one]
  omega

namespace Env.Capped

variable {e : Env W V}

omit [Inhabited V] in
theorem enqueue (h : e.Capped) (J : JobId W) (run : Code V) {with_tokens : UInt32}
    (hle : with_tokens ≤ e.heartbeat_tokens) : (e.enqueue J run with_tokens).Capped := by
  constructor
  · rw [Env.enqueue]
    by_cases hz : with_tokens ≠ 0
    · simp only [if_pos hz]
      exact sub_le_cap h.tokens hle
    · simp only [if_neg hz]
      exact h.tokens
  · intro X
    rw [Env.enqueue]
    by_cases hX : X = J
    · subst hX
      simp only [Function.update_self]
      exact UInt32.le_trans hle h.tokens
    · simp only [Function.update_of_ne hX]
      exact h.jobs X

omit [Inhabited V] in
theorem spawnAll (h : e.Capped) (fid : ℕ) {sp : List (Spawn V)}
    (hsp : ∀ s ∈ sp, ∀ t, s.with_tokens t ≤ t) : (e.spawnAll w fid sp).Capped := by
  induction sp generalizing e with
  | nil => exact h
  | cons s sp ih =>
    obtain ⟨hs, hsp⟩ := List.forall_mem_cons.mp hsp
    exact ih (h.enqueue _ s.run (hs e.heartbeat_tokens)) hsp

theorem prom (h : e.Capped) (f : Frame V) : (f.prom w e).2.Capped :=
  h.spawnAll w f.fid f.call.promfn_tokens

theorem visit (h : e.Capped) (isOpen : Bool) (f : Frame V) : (f.visit w isOpen e).2.Capped := by
  rw [Frame.visit]
  by_cases hc : isOpen = true ∧ e.heartbeat_tokens ≠ 0 ∧ f.promoted = false
  · rw [if_pos hc]
    have hpay : Env.Capped { e with heartbeat_tokens := e.heartbeat_tokens - 1 } :=
      ⟨sub_le_cap h.tokens (one_le_tokens hc.2.1), h.jobs⟩
    exact hpay.prom w _
  · rw [if_neg hc]
    exact h

theorem promoteStack (h : e.Capped) (stack : List (Item W V)) :
    (promoteStack w stack e).2.Capped := by
  induction stack with
  | nil => exact h
  | cons it rest ih =>
    cases it with
    | opr J => exact ih
    | frame f sus => exact ih.visit w sus.isOpen f

end Env.Capped

/-! ## Steps -/

variable {w} {x : Worker W V} {jobs : Jobs W V} {r : Worker W V × Jobs W V} {f : Frame V}

/-- What `fast_clone` has read of `heartbeat_tokens` to add to. -/
def Point.read? : Point W V → Option UInt32
  | .frame _ (.reclaimed _ read _) => some read
  | _ => none

/-- That is below the cap. -/
def Worker.ReadCapped (x : Worker W V) : Prop :=
  ∀ read, x.point.read? = some read → read ≤ MAX_HEARTBEAT_TOKENS

/-- `promote_front` gives tokens away, and does not move the worker. -/
theorem promote_front_capped (h : (x.env jobs).Capped) (hread : x.ReadCapped) :
    ((x.promote_front w jobs).1.env (x.promote_front w jobs).2).Capped ∧
      (x.promote_front w jobs).1.ReadCapped := by
  have hstack := h.promoteStack w x.stack
  rw [Worker.promote_front]
  cases hp : x.point with
  | frame f pc =>
    have hvisit := hstack.visit w pc.isOpen f
    refine ⟨⟨hvisit.tokens, hvisit.jobs⟩, ?_⟩
    intro read hr
    have hsame : (.frame f pc : Point W V).read? = some read := by cases pc <;> exact hr
    exact hread read (hp ▸ hsame)
  | _ => exact ⟨⟨hstack.tokens, hstack.jobs⟩, hread⟩

/-- A heartbeat keeps the cap. -/
theorem heartbeat_capped (h : (x.env jobs).Capped) (hread : x.ReadCapped) :
    ((x.heartbeat_handler w jobs).1.env (x.heartbeat_handler w jobs).2).Capped ∧
      (x.heartbeat_handler w jobs).1.ReadCapped := by
  rw [Worker.heartbeat_handler]
  by_cases hen : x.disable_heartbeats
  · rw [if_pos hen]
    exact ⟨⟨h.tokens, h.jobs⟩, hread⟩
  · rw [if_neg hen]
    refine promote_front_capped ⟨?_, h.jobs⟩ hread
    simp only [Worker.env]
    split
    · exact UInt32.le_refl _
    · next hle => exact UInt32.not_lt.mp hle

/-- The writes to `heartbeat_tokens`, and to the tokens of jobs, in the code of a worker. -/
inductive TokenWrite (w : W) (x : Worker W V) (jobs : Jobs W V) : UInt32 → Jobs W V → Prop
  | none {jobs' : Jobs W V} (hjobs : ∀ J, (jobs' J).hbt = (jobs J).hbt) :
      TokenWrite w x jobs x.heartbeat_tokens jobs'
  | eager_promote {f : Frame V} {before : Bool} (hp : x.point = .frame f (.dec before)) :
      TokenWrite w x jobs (x.heartbeat_tokens - 1) jobs
  | prom {f : Frame V} {before : Bool} (hp : x.point = .frame f (.prom before)) :
      TokenWrite w x jobs (f.prom w (x.env jobs)).2.heartbeat_tokens (f.prom w (x.env jobs)).2.jobs
  | fast_clone {f : Frame V} {J : JobName} {read : UInt32} {ops : List (Op V)}
      (hp : x.point = .frame f (.reclaimed J read ops)) :
      TokenWrite w x jobs (read + (jobs (f.job w J)).hbt) jobs
  | operator {J : JobId W} (hp : x.point = .opr J .tokens) :
      TokenWrite w x jobs (jobs J).hbt jobs

omit [Inhabited V] in
theorem hbt_update {J : JobId W} {j : Job W V} (hj : j.hbt = (jobs J).hbt) (X : JobId W) :
    (Function.update jobs J j X).hbt = (jobs X).hbt := by
  by_cases hX : X = J
  · subst hX
    rw [Function.update_self, hj]
  · rw [Function.update_of_ne hX]

/-- What a worker does to tokens in a step: its write, and its read for the next one. -/
structure TokenStep (w : W) (x : Worker W V) (jobs : Jobs W V) (r : Worker W V × Jobs W V) :
    Prop where
  write : TokenWrite w x jobs r.1.heartbeat_tokens r.2
  read : ∀ read, r.1.point.read? = some read → read = x.heartbeat_tokens

/-- A step without a write, to a point where nothing has been read. -/
theorem TokenStep.quiet {y : Worker W V} {jobs' : Jobs W V}
    (htokens : y.heartbeat_tokens = x.heartbeat_tokens)
    (hjobs : ∀ J, (jobs' J).hbt = (jobs J).hbt)
    (hpoint : y.point.read? = none) : TokenStep w x jobs (y, jobs') := by
  refine ⟨?_, fun read hread => absurd (hpoint.symm.trans hread) (by simp)⟩
  simp only [htokens]
  exact .none hjobs

theorem frameStep_tokens {pc : Pc V} (hp : x.point = .frame f pc)
    (hstep : x.frameStep w jobs f pc = some r) : TokenStep w x jobs r := by
  cases pc with
  | ctor =>
    cases hstep
    exact .quiet rfl (fun _ => rfl) rfl
  | check =>
    cases hstep
    refine .quiet rfl (fun _ => rfl) ?_
    split <;> rfl
  | retest before =>
    cases hstep
    refine .quiet rfl (fun _ => rfl) ?_
    split <;> rfl
  | dec before =>
    cases hstep
    exact ⟨.eager_promote hp, by simp [Worker.goto, Point.read?]⟩
  | prom before =>
    cases hstep
    exact ⟨.prom hp, by simp [Worker.goto, Point.read?]⟩
  | body =>
    rcases Worker.frameStep_body w hstep with ⟨c, -, rfl⟩ | ⟨call, -, rfl⟩ | ⟨-, rfl⟩
    · exact .quiet rfl (fun _ => rfl) rfl
    · exact .quiet rfl (fun _ => rfl) rfl
    · exact .quiet rfl (fun _ => rfl) rfl
  | closed =>
    obtain ⟨ops, hops, rfl⟩ := Option.map_eq_some_iff.mp hstep
    exact .quiet rfl (fun _ => rfl) rfl
  | act ops =>
    cases ops with
    | nil =>
      cases hstep
      exact .quiet rfl (fun _ => rfl) rfl
    | cons op ops =>
      cases op with
      | call e c =>
        cases hstep
        exact .quiet rfl (fun _ => rfl) rfl
      | sync J reclaim =>
        rcases Worker.frameStep_sync w hstep with ⟨-, rfl⟩ | ⟨X, d, -, rfl⟩
        · exact .quiet rfl (fun _ => rfl) rfl
        · refine .quiet rfl (hbt_update rfl) ?_
          cases reclaim <;> rfl
      | sync_is_stolen J unstolen stolen =>
        rcases Worker.frameStep_sync_is_stolen w hstep with ⟨-, rfl⟩ | ⟨X, d, -, rfl⟩
        · exact .quiet rfl (fun _ => rfl) rfl
        · exact .quiet rfl (hbt_update rfl) rfl
  | reclaim J ops =>
    cases hstep
    exact ⟨.none fun _ => rfl, fun read hread => (Option.some.inj hread).symm⟩
  | reclaimed J read ops =>
    cases hstep
    exact ⟨.fast_clone hp, by simp [Worker.goto, Point.read?]⟩
  | clone J ops =>
    cases hstep
    exact .quiet rfl (hbt_update rfl) rfl
  | finished J next =>
    rcases Worker.frameStep_finished w hstep with ⟨-, rfl⟩ | rfl
    · exact .quiet rfl (fun _ => rfl) rfl
    · exact .quiet rfl (fun _ => rfl) rfl
  | _ =>
    cases hstep
    exact .quiet rfl (fun _ => rfl) rfl

theorem returnStep_tokens {v : V} (hstep : x.returnStep w jobs v = some r) :
    TokenStep w x jobs r := by
  rcases Worker.returnStep_cases w x jobs hstep with ⟨J, rest, -, rfl⟩ |
    ⟨f, rest, call, ended, -, -, rfl⟩ | ⟨f, ops, rest, -, rfl⟩ | ⟨f, J, ops, rest, -, rfl⟩
  · exact .quiet rfl (hbt_update rfl) rfl
  · refine .quiet rfl (fun _ => rfl) ?_
    cases ended <;> rfl
  · exact .quiet rfl (fun _ => rfl) rfl
  · exact .quiet rfl (hbt_update rfl) rfl

/-- What a step of a worker does to tokens. -/
theorem run_tokens {n : ℕ} (hstep : x.run w jobs n = some r) : TokenStep w x jobs r := by
  rw [Worker.run] at hstep
  cases hp : x.point with
  | sched =>
    simp only [hp] at hstep
    obtain ⟨f, J, next, rest, -, -, rfl⟩ := x.schedStep_cases w jobs hstep
    exact .quiet rfl (fun _ => rfl) rfl
  | code c =>
    simp only [hp] at hstep
    rcases x.codeStep_cases w jobs hstep with ⟨v, -, hret⟩ | ⟨k, -, rfl⟩ | ⟨call, k, henter, rfl⟩
    · exact returnStep_tokens hret
    · exact .quiet rfl (fun _ => rfl) rfl
    · exact .quiet rfl (fun _ => rfl) rfl
  | frame f pc =>
    simp only [hp] at hstep
    exact frameStep_tokens hp hstep
  | opr J stage =>
    simp only [hp] at hstep
    cases hstep
    cases stage with
    | tokens => exact ⟨.operator hp, by simp [Worker.oprStep, Point.read?]⟩
    | run => exact .quiet rfl (hbt_update rfl) rfl
    | ended => exact .quiet rfl (hbt_update rfl) rfl

/-! ## Runs -/

/-- The invariant of the runs that stay below the cap. -/
structure State.CapOk (s : State W V) : Prop where
  tokens : s.Capped
  jobs : s.jobs.Capped
  reads : ∀ v, (s.workers v).ReadCapped
  decs : ∀ v, (s.workers v).DecOk

/-- A write that does not pass the cap when it reclaims tokens does not pass it. -/
theorem TokenWrite.capped {t : UInt32} {jobs' : Jobs W V} (h : TokenWrite w x jobs t jobs')
    (hcap : (x.env jobs).Capped) (hdec : x.DecOk) (hfits : x.ReclaimFits w jobs) :
    t ≤ MAX_HEARTBEAT_TOKENS ∧ jobs'.Capped := by
  cases h with
  | none hsame =>
    refine ⟨hcap.tokens, fun J => ?_⟩
    rw [hsame J]
    exact hcap.jobs J
  | eager_promote hp => exact ⟨sub_le_cap hcap.tokens (one_le_tokens (hdec _ _ hp)), hcap.jobs⟩
  | @prom f before hp =>
    have hprom := hcap.prom w f
    exact ⟨hprom.tokens, hprom.jobs⟩
  | @fast_clone f J read ops hp =>
    refine ⟨?_, hcap.jobs⟩
    have hle := hfits f J read ops hp
    have hmod := Nat.mod_le (read.toNat + (jobs (f.job w J)).hbt.toNat) (2 ^ 32)
    rw [UInt32.le_iff_toNat_le, UInt32.toNat_add]
    exact hmod.trans hle
  | operator hp => exact ⟨hcap.jobs _, hcap.jobs⟩

/-- If it does pass the cap there, the worker is above it. -/
theorem reclaim_fits {n : ℕ} (hcap : (x.env jobs).Capped) (hread : x.ReadCapped)
    (h : ∀ r, x.run w jobs n = some r → r.1.heartbeat_tokens ≤ MAX_HEARTBEAT_TOKENS) :
    x.ReclaimFits w jobs := by
  intro f J read ops hp
  have hrun : x.run w jobs n = some (Worker.goto
      { x with heartbeat_tokens := read + (jobs (f.job w J)).hbt } f (.clone J ops), jobs) := by
    rw [Worker.run]
    rw [hp]
    rfl
  have hmax : MAX_HEARTBEAT_TOKENS.toNat = 30 := rfl
  have hle := UInt32.le_iff_toNat_le.mp (h _ hrun)
  have hr := UInt32.le_iff_toNat_le.mp (hread read (by rw [hp]; rfl))
  have hj := UInt32.le_iff_toNat_le.mp (hcap.jobs (f.job w J))
  -- two numbers below the cap do not wrap
  have hadd := UInt32.toNat_add read (jobs (f.job w J)).hbt
  simp only [Worker.goto, Worker.env] at hle hj
  omega

section
variable {s s' : State W V}

omit [Inhabited V] in
/-- One worker moves. -/
theorem State.CapOk.set (h : s.CapOk) (hcap : (r.1.env r.2).Capped) (hread : r.1.ReadCapped)
    (hdec : r.1.DecOk) : (s.set w r).CapOk := by
  have hw : ∀ P : Worker W V → Prop, (∀ v, P (s.workers v)) → P r.1 →
      ∀ v, P ((s.set w r).workers v) := by
    intro P hs hr v
    by_cases hv : v = w
    · subst hv
      rw [State.set_self]
      exact hr
    · rw [State.set_ne w s hv]
      exact hs v
  exact ⟨hw (·.heartbeat_tokens ≤ MAX_HEARTBEAT_TOKENS) h.tokens hcap.tokens, hcap.jobs,
    hw Worker.ReadCapped h.reads hread, hw Worker.DecOk h.decs hdec⟩

omit [Inhabited V] in
/-- A job is taken from a deque and started. -/
theorem State.CapOk.start (h : s.CapOk) {v : W} {d : List (JobId W)} {J : JobId W} :
    ((s.setDeque v d).start w J).CapOk := by
  have hjobs : Jobs.Capped ((s.setDeque v d).start w J).jobs := by
    intro X
    have hmove : ((s.jobs J).move (.taken w)).hbt = (s.jobs J).hbt := rfl
    exact (hbt_update hmove X).symm ▸ h.jobs X
  have htokens : ∀ u, (((s.setDeque v d).start w J).workers u).heartbeat_tokens =
      (s.workers u).heartbeat_tokens := by
    intro u
    by_cases hu : u = w
    · subst hu
      rw [State.start, State.set_self, State.setDeque_workers]
      rfl
    · rw [State.start, State.set_ne w _ hu, State.setDeque_workers]
  have hreads : ∀ u, (((s.setDeque v d).start w J).workers u).ReadCapped := by
    intro u read hr
    by_cases hu : u = w
    · subst hu
      rw [State.start, State.set_self] at hr
      cases hr
    · rw [State.start, State.set_ne w _ hu, State.setDeque_workers] at hr
      exact h.reads u read hr
  exact ⟨fun u => htokens u ▸ h.tokens u, hjobs, hreads, start_decOk h.decs⟩

/-- A step keeps the invariant, if it reclaims no more than fits. -/
theorem State.CapOk.step (h : s.CapOk) (hinv : s.Inv) {l : Label W} (hstep : s.step l = some s')
    (hfits : l.ReclaimFits s) : s'.CapOk := by
  cases l with
  | run w n =>
    obtain ⟨r, hr, rfl⟩ := Option.map_eq_some_iff.mp hstep
    have htok := run_tokens hr
    have hcap := htok.write.capped ⟨h.tokens w, h.jobs⟩ (h.decs w) hfits
    apply h.set ⟨hcap.1, hcap.2⟩ _ (run_decOk hr)
    intro read hread
    rw [htok.read read hread]
    exact h.tokens w
  | heartbeat w =>
    cases hstep
    obtain ⟨hcap, hread⟩ := heartbeat_capped ⟨h.tokens w, h.jobs⟩ (h.reads w)
    exact h.set hcap hread (heartbeat_decOk (hinv.slots w) (h.decs w))
  | get_own_job w =>
    simp only [State.step] at hstep
    cases hl : (s.workers w).looking <;> cases hd : (s.workers w).deque <;>
      simp only [hl, hd, reduceCtorEq, Option.some.injEq] at hstep
    exact hstep ▸ h.start
  | steal w victim =>
    simp only [State.step] at hstep
    cases hl : (s.workers w).looking <;> cases hd : steal (s.workers victim).deque <;>
      simp only [hl, hd, reduceCtorEq, Option.some.injEq] at hstep
    exact hstep ▸ h.start

/-- A run stays below the cap as long as every reclaim does. -/
theorem State.CapOk.throughout_iff {ls : List (Label W)} (h : s.CapOk) (hinv : s.Inv) :
    s.Throughout State.Capped ls ↔ s.EachStep (fun s l => l.ReclaimFits s) ls := by
  induction ls generalizing s with
  | nil => exact iff_of_true h.tokens trivial
  | cons l ls ih =>
    have hnext : ∀ s', s.step l = some s' → l.ReclaimFits s →
        (s'.Throughout State.Capped ls ↔ s'.EachStep (fun s l => l.ReclaimFits s) ls) :=
      fun s' hstep hfits => ih (h.step hinv hstep hfits) (step_inv hinv ⟨l, hstep⟩)
    constructor
    · rintro ⟨-, hrest⟩
      have hfits : l.ReclaimFits s := by
        cases l with
        | run w n =>
          apply reclaim_fits (n := n) ⟨h.tokens w, h.jobs⟩ (h.reads w)
          intro r hr
          have hcap : (s.set w r).Capped := by
            have hall := hrest (s.set w r) (by rw [State.step, hr]; rfl)
            cases ls with
            | nil => exact hall
            | cons l' ls => exact hall.1
          have hw := hcap w
          rwa [State.set_self] at hw
        | _ => trivial
      exact ⟨hfits, fun s' hstep => (hnext s' hstep hfits).mp (hrest s' hstep)⟩
    · rintro ⟨hfits, hrest⟩
      exact ⟨h.tokens, fun s' hstep => (hnext s' hstep hfits).mpr (hrest s' hstep)⟩

end

end

/-- **No worker passes the cap in a run, exactly when no step of the run that adds the tokens of
a job to those its worker has read comes to more than the cap.** -/
theorem capped_iff {W V : Type} [DecidableEq W] [Inhabited V] (main : W → Option (Code V))
    (ls : List (Label W)) :
    (State.init main).Throughout State.Capped ls ↔
      (State.init main).EachStep (fun s l => l.ReclaimFits s) ls := by
  have hpoint : ∀ v, ((State.init main).workers v).point = (main v).elim .sched .code :=
    fun _ => rfl
  have hzero : (0 : UInt32) ≤ MAX_HEARTBEAT_TOKENS := by decide
  refine State.CapOk.throughout_iff ⟨fun _ => hzero, fun _ => hzero, ?_, ?_⟩
    (reachable_inv ⟨main, .refl⟩)
  · intro v read hr
    rw [hpoint] at hr
    cases hm : main v <;> rw [hm] at hr <;> cases hr
  · intro v f before hp
    rw [hpoint] at hp
    cases hm : main v <;> rw [hm] at hp <;> cases hp

/-- A call of `parfor_`, on one worker. -/
def capMain : Unit → Option (Code ℕ) :=
  fun _ => some (.parfor 1 0 10 (fun _ => .ret 0) (fun _ => .ret 0) (.ret 0))

/-- The first heartbeat promotes the loop, which gives 15 tokens to `r` and 14 to `l`, the second
one finds nothing to promote. The loop ends, and `l` is taken back with its tokens. -/
def capRun : List (Label Unit) :=
  List.replicate 3 (.run () 0) ++ [.heartbeat (), .heartbeat ()] ++ List.replicate 12 (.run () 0)

/-- The state after `capRun`. -/
def capState : State Unit ℕ := (State.exec capRun (State.init capMain)).get (by rfl)

/-- The worker then has 30 + 14 tokens. -/
theorem parfor_passes_cap : capState.Reachable ∧ (capState.workers ()).heartbeat_tokens = 44 ∧
    ¬ capState.Capped ∧ ¬ (State.init capMain).Throughout State.Capped capRun := by
  have htokens : (capState.workers ()).heartbeat_tokens = 44 := by rfl
  have hnot : ¬ capState.Capped := by
    intro h
    have hle := h ()
    rw [htokens] at hle
    exact absurd hle (by decide)
  exact ⟨State.reachable_exec capMain capRun rfl, htokens, hnot,
    fun h => hnot (h.last (Option.some_get _).symm)⟩

end Spork.Scheduler
