import Mathlib.Logic.Function.Basic
import Mathlib.Logic.Relation
import Spork.Lib.WorkStealing
import Spork.Scheduler.Code

/-!
# The heartbeat scheduler

The workers of the scheduler, step by step. A worker runs one piece of code on top of its
stack of calls and of stolen jobs; it owns a deque of enqueued jobs, its heartbeat tokens
and the flag that masks its heartbeats. Between any two steps a heartbeat may arrive, and
any worker that looks for a job may steal. The run of a heartbeat handler is one step: it
only writes what its own worker reads, and the jobs it enqueues are enqueued one by one.

The spork deque is the list of the calls on the stack whose slot is open. Jobs are named by
their frame, and frames are numbered as they are opened.

## Main definitions

* `Phase`, `Job`, `JobId` — jobs.
* `Frame`, `Pc`, `Sus`, `Item`, `Point`, `Worker`, `State` — the state.
* `Env.enqueue`, `Frame.promote`, `Worker.promote_front`, `Worker.heartbeat_handler`,
  `Worker.try_dequeue`, `Worker.frameStep`, `Worker.oprStep` — the source.
* `State.step`, `Reachable` — one step of any worker, and the states of all runs.
-/
namespace Spork.Scheduler

open WorkStealing

/-! ## State -/

/-- The life of a job. Its flag `done` is the last phase; the others say where the job is and
whether it has been run. -/
inductive Phase (W : Type)
  | idle
  | queued
  /-- Taken back by its owner, but not run. -/
  | popped
  /-- Being run by `fast_clone`. -/
  | cloning
  | cloned
  | taken (thief : W)
  | running (thief : W)
  | ran (thief : W)
  | done (thief : W)
  deriving DecidableEq, Repr

/-- A job object: its owner, its frame there, and its name in the frame. -/
structure JobId (W : Type) where
  owner : W
  frame : ℕ
  name : JobName
  deriving DecidableEq, Repr

/-- The fields of a job object, with the number of times it has been run and the results. -/
structure Job (W V : Type) where
  run : Code V
  hbt : UInt32
  sr : V
  phase : Phase W
  started : ℕ
  results : List V

namespace Job

variable {W V : Type}

/-- The constructor. -/
def new [Inhabited V] : Job W V := ⟨.ret default, 0, default, .idle, 0, []⟩

/-- `done`. -/
def finished (j : Job W V) : Bool :=
  match j.phase with
  | .done _ => true
  | _ => false

/-- Enqueued. -/
def enqueued (j : Job W V) (run : Code V) (hbt : UInt32) : Job W V :=
  { j with run := run, hbt := hbt, phase := .queued }

/-- Another phase. -/
def move (j : Job W V) (ph : Phase W) : Job W V := { j with phase := ph }

/-- `run` is entered. -/
def start (j : Job W V) (ph : Phase W) : Job W V := { j with phase := ph, started := j.started + 1 }

/-- `run` has returned. -/
def stop (j : Job W V) (ph : Phase W) (v : V) : Job W V :=
  { j with phase := ph, sr := v, results := j.results ++ [v] }

end Job

/-- The job objects of all frames. -/
abbrev Jobs (W V : Type) := JobId W → Job W V

/-- The frame of a call: its number, the call and what follows it, its slot's `promoted`, the
value it returns, the jobs it has enqueued and not come back for, newest first, and what it
has run inline. -/
structure Frame (V : Type) where
  fid : ℕ
  call : Call V
  k : V → Code V
  promoted : Bool
  res : V
  pend : List JobName
  history : List (Entry V)

/-- Where a call is while it runs code of the library. -/
inductive Pc (V : Type)
  /-- The constructor of the slot. -/
  | ctor
  /-- The test of `heartbeat_tokens` before `eager_promote`. -/
  | check
  | save
  | disable (before : Bool)
  | retest (before : Bool)
  | dec (before : Bool)
  | setPromoted (before : Bool)
  | prom (before : Bool)
  | restore (before : Bool)
  | body
  | close
  /-- The slot is closed, and `promoted` is to be tested. -/
  | closed
  | act (ops : List (Op V))
  /-- `fast_clone(true)` reads `heartbeat_tokens`. -/
  | reclaim (J : JobName) (ops : List (Op V))
  /-- It writes the sum back. -/
  | reclaimed (J : JobName) (tokens : UInt32) (ops : List (Op V))
  | clone (J : JobName) (ops : List (Op V))
  /-- The test of `finished` after a failed `try_dequeue`. -/
  | finished (J : JobName) (next : V → List (Op V))

/-- Where a call is while its worker runs something above it. -/
inductive Sus (V : Type)
  | inBody
  | inCall (ops : List (Op V))
  | inClone (J : JobName) (ops : List (Op V))
  | waiting (J : JobName) (next : V → List (Op V))

/-- The slot is open. -/
def Pc.isOpen {V : Type} : Pc V → Bool
  | .check | .save | .disable _ | .retest _ | .dec _ | .setPromoted _ | .prom _ | .restore _ => true
  | .body | .close => true
  | _ => false

/-- The slot is open. -/
def Sus.isOpen {V : Type} : Sus V → Bool
  | .inBody => true
  | _ => false

/-- An item of a worker's stack. -/
inductive Item (W V : Type)
  | frame (f : Frame V) (sus : Sus V)
  /-- A stolen job, in its `run`. -/
  | opr (J : JobId W)

/-- The steps of a stolen job outside of its `run`. -/
inductive Stage
  | tokens
  | run
  | ended
  deriving DecidableEq, Repr

/-- What a worker runs. -/
inductive Point (W V : Type)
  /-- It looks for a job, as an idle worker or in `wait_until`. -/
  | sched
  | code (c : Code V)
  | frame (f : Frame V) (pc : Pc V)
  | opr (J : JobId W) (stage : Stage)

/-- A worker. The stack starts with the newest item, the deque with the newest job. -/
structure Worker (W V : Type) where
  point : Point W V
  stack : List (Item W V)
  deque : List (JobId W)
  heartbeat_tokens : UInt32
  disable_heartbeats : Bool
  num_heartbeats : UInt32
  missed_heartbeats : UInt32
  /-- The number of the next frame. -/
  next : ℕ

/-- The workers and the job objects. -/
structure State (W V : Type) where
  workers : W → Worker W V
  jobs : Jobs W V

/-! ## Promotion -/

/-- `TOKENS_PER_HEARTBEAT`. -/
def TOKENS_PER_HEARTBEAT : UInt32 := 30

/-- `MAX_HEARTBEAT_TOKENS`. -/
def MAX_HEARTBEAT_TOKENS : UInt32 := TOKENS_PER_HEARTBEAT * 1

/-- What a promotion function writes. -/
structure Env (W V : Type) where
  heartbeat_tokens : UInt32
  deque : List (JobId W)
  jobs : Jobs W V

section
variable {W V : Type} [DecidableEq W] [Inhabited V] (w : W)

/-- The job object of a frame. -/
def Frame.job (f : Frame V) (J : JobName) : JobId W := ⟨w, f.fid, J⟩

/-- `enqueue`. -/
def Env.enqueue (e : Env W V) (J : JobId W) (run : Code V) (with_tokens : UInt32) : Env W V where
  heartbeat_tokens :=
    if with_tokens ≠ 0 then e.heartbeat_tokens - with_tokens else e.heartbeat_tokens
  deque := J :: e.deque
  jobs := Function.update e.jobs J ((e.jobs J).enqueued run with_tokens)

/-- A frame that has come back for its newest job. -/
def Frame.joined (f : Frame V) : Frame V := { f with pend := f.pend.tail }

/-- Enqueue jobs of a frame, one after the other. -/
def Env.spawnAll (fid : ℕ) : List (Spawn V) → Env W V → Env W V
  | [], e => e
  | s :: sp, e =>
      spawnAll fid sp (e.enqueue ⟨w, fid, s.name⟩ s.run (s.with_tokens e.heartbeat_tokens))

/-- Call the promotion function. -/
def Frame.prom (f : Frame V) (e : Env W V) : Frame V × Env W V :=
  ({ f with call := f.call.promfn.1, pend := Call.names f.call.promfn.2 },
    e.spawnAll w f.fid f.call.promfn.2)

/-- `promote`. -/
def Frame.promote (f : Frame V) (e : Env W V) : Frame V × Env W V :=
  Frame.prom w { f with promoted := true } { e with heartbeat_tokens := e.heartbeat_tokens - 1 }

/-- One slot of `promote_front`. -/
def Frame.visit (isOpen : Bool) (f : Frame V) (e : Env W V) : Frame V × Env W V :=
  if isOpen = true ∧ e.heartbeat_tokens ≠ 0 ∧ f.promoted = false then f.promote w e else (f, e)

/-- The slots of a stack, outermost first. -/
def promoteStack : List (Item W V) → Env W V → List (Item W V) × Env W V
  | [], e => ([], e)
  | .opr J :: rest, e => (.opr J :: (promoteStack rest e).1, (promoteStack rest e).2)
  | .frame f sus :: rest, e =>
      (.frame (f.visit w sus.isOpen (promoteStack rest e).2).1 sus :: (promoteStack rest e).1,
        (f.visit w sus.isOpen (promoteStack rest e).2).2)

namespace Worker

variable (x : Worker W V) (jobs : Jobs W V)

/-- What a promotion function reads. -/
def env : Env W V := ⟨x.heartbeat_tokens, x.deque, jobs⟩

/-- After a promotion function. -/
def setEnv (e : Env W V) : Worker W V :=
  { x with heartbeat_tokens := e.heartbeat_tokens, deque := e.deque }

/-- `promote_front`. -/
def promote_front : Worker W V × Jobs W V :=
  let r := promoteStack w x.stack (x.env jobs)
  match x.point with
  | .frame f pc =>
      let r' := f.visit w pc.isOpen r.2
      ({ x.setEnv r'.2 with stack := r.1, point := .frame r'.1 pc }, r'.2.jobs)
  | _ => ({ x.setEnv r.2 with stack := r.1 }, r.2.jobs)

/-- `heartbeat_handler`. -/
def heartbeat_handler : Worker W V × Jobs W V :=
  if x.disable_heartbeats then
    ({ x with missed_heartbeats := x.missed_heartbeats + 1 }, jobs)
  else
    promote_front w { x with
      num_heartbeats := x.num_heartbeats + 1
      heartbeat_tokens :=
        if x.heartbeat_tokens + TOKENS_PER_HEARTBEAT > MAX_HEARTBEAT_TOKENS then
          MAX_HEARTBEAT_TOKENS
        else x.heartbeat_tokens + TOKENS_PER_HEARTBEAT } jobs

/-! ## Steps -/

/-- Go on in the frame `f`. -/
def goto (f : Frame V) (pc : Pc V) : Worker W V := { x with point := .frame f pc }

/-- Run `c` above the item `it`. -/
def enter (it : Item W V) (c : Code V) : Worker W V :=
  { x with stack := it :: x.stack, point := .code c }

/-- `try_dequeue`: pop the newest job of the own deque, whichever it is. -/
def try_dequeue : Option (Worker W V × Jobs W V) :=
  match x.deque with
  | [] => none
  | J :: d => some ({ x with deque := d }, Function.update jobs J ((jobs J).move .popped))

variable {x} in
omit [Inhabited V] in
theorem try_dequeue_nil (h : x.deque = []) : x.try_dequeue jobs = none := by
  rw [try_dequeue]
  rw [h]

variable {x} in
omit [Inhabited V] in
theorem try_dequeue_cons {J : JobId W} {d : List (JobId W)} (h : x.deque = J :: d) :
    x.try_dequeue jobs =
      some ({ x with deque := d }, Function.update jobs J ((jobs J).move .popped)) := by
  rw [try_dequeue]
  rw [h]

omit [Inhabited V] in
theorem try_dequeue_cases : (x.deque = [] ∧ x.try_dequeue jobs = none) ∨
    ∃ J d, x.deque = J :: d ∧ x.try_dequeue jobs =
      some ({ x with deque := d }, Function.update jobs J ((jobs J).move .popped)) := by
  cases h : x.deque with
  | nil => exact .inl ⟨rfl, try_dequeue_nil jobs h⟩
  | cons J d => exact .inr ⟨J, d, rfl, try_dequeue_cons jobs h⟩

/-- A step of a call in the library. -/
def frameStep (f : Frame V) : Pc V → Option (Worker W V × Jobs W V)
  | .ctor => some (x.goto f .check, jobs)
  | .check => some (x.goto f (if x.heartbeat_tokens ≠ 0 then .save else .body), jobs)
  -- `eager_promote`
  | .save => some (x.goto f (.disable x.disable_heartbeats), jobs)
  | .disable before =>
      some (goto { x with disable_heartbeats := true } f (.retest before), jobs)
  | .retest before =>
      some (x.goto f (if x.heartbeat_tokens ≠ 0 ∧ f.promoted = false then .dec before
        else .restore before), jobs)
  | .dec before =>
      some (goto { x with heartbeat_tokens := x.heartbeat_tokens - 1 } f (.setPromoted before),
        jobs)
  | .setPromoted before => some (x.goto { f with promoted := true } (.prom before), jobs)
  | .prom before =>
      let r := f.prom w (x.env jobs)
      some ((x.setEnv r.2).goto r.1 (.restore before), r.2.jobs)
  | .restore before => some (goto { x with disable_heartbeats := before } f .body, jobs)
  -- the body of the call
  | .body =>
      match f.call.next with
      | none => none
      | some (.call c) =>
          some (x.enter (.frame { f with history := f.history ++ [.body] } .inBody) c, jobs)
      | some (.move call) => some (x.goto { f with call := call } .body, jobs)
      | some .done => some (x.goto f .close, jobs)
  | .close => some (x.goto f .closed, jobs)
  | .closed => (f.call.after f.promoted).map fun ops => (x.goto f (.act ops), jobs)
  -- what follows the slot
  | .act [] => some ({ x with point := .code (f.k f.res) }, jobs)
  | .act (.call e c :: ops) =>
      some (x.enter (.frame { f with history := f.history ++ [e] } (.inCall ops)) c, jobs)
  | .act (.sync J reclaim_tokens :: ops) =>
      match x.try_dequeue jobs with
      | some r => some (r.1.goto f.joined (if reclaim_tokens then .reclaim J ops
          else .clone J ops), r.2)
      | none => some (x.goto f (.finished J fun _ => ops), jobs)
  | .act (.sync_is_stolen J unstolen stolen :: ops) =>
      match x.try_dequeue jobs with
      | some r => some (r.1.goto f.joined (.act (.call unstolen.1 unstolen.2 :: ops)), r.2)
      | none =>
          some (x.goto f (.finished J fun sr => .call (stolen sr).1 (stolen sr).2 :: ops), jobs)
  | .reclaim J ops => some (x.goto f (.reclaimed J x.heartbeat_tokens ops), jobs)
  | .reclaimed J tokens ops =>
      some (goto { x with heartbeat_tokens := tokens + (jobs (f.job w J)).hbt } f (.clone J ops),
        jobs)
  | .clone J ops =>
      some (x.enter (.frame f (.inClone J ops)) (jobs (f.job w J)).run,
        Function.update jobs (f.job w J) ((jobs (f.job w J)).start .cloning))
  | .finished J next =>
      if (jobs (f.job w J)).finished then
        some (x.goto f.joined (.act (next (jobs (f.job w J)).sr)), jobs)
      else some ({ x with point := .sched, stack := .frame f (.waiting J next) :: x.stack }, jobs)

section
variable {x jobs} {f : Frame V} {J : JobName} {ops : List (Op V)} {r : Worker W V × Jobs W V}

/-- The body of a call goes on, or ends. -/
theorem frameStep_body (h : x.frameStep w jobs f .body = some r) :
    (∃ c, f.call.next = some (.call c) ∧
      r = (x.enter (.frame { f with history := f.history ++ [.body] } .inBody) c, jobs)) ∨
    (∃ call, f.call.next = some (.move call) ∧ r = (x.goto { f with call := call } .body, jobs)) ∨
    (f.call.next = some .done ∧ r = (x.goto f .close, jobs)) := by
  rw [frameStep] at h
  cases hnext : f.call.next with
  | none => simp only [hnext, reduceCtorEq] at h
  | some nx =>
    simp only [hnext] at h
    cases nx with
    | call c => exact .inl ⟨c, rfl, (Option.some.inj h).symm⟩
    | move call => exact .inr (.inl ⟨call, rfl, (Option.some.inj h).symm⟩)
    | done => exact .inr (.inr ⟨rfl, (Option.some.inj h).symm⟩)

/-- `sync` finds the deque empty, or pops a job. -/
theorem frameStep_sync {reclaim : Bool}
    (h : x.frameStep w jobs f (.act (.sync J reclaim :: ops)) = some r) :
    (x.deque = [] ∧ r = (x.goto f (.finished J fun _ => ops), jobs)) ∨
    ∃ X d, x.deque = X :: d ∧ r = (goto { x with deque := d } f.joined
      (if reclaim then .reclaim J ops else .clone J ops),
        Function.update jobs X ((jobs X).move .popped)) := by
  rw [frameStep] at h
  rcases x.try_dequeue_cases jobs with ⟨hd, htry⟩ | ⟨X, d, hd, htry⟩
  · simp only [htry] at h
    exact .inl ⟨hd, (Option.some.inj h).symm⟩
  · simp only [htry] at h
    exact .inr ⟨X, d, hd, (Option.some.inj h).symm⟩

/-- The same of `sync_is_stolen`. -/
theorem frameStep_sync_is_stolen {unstolen : Entry V × Code V}
    {stolen : V → Entry V × Code V}
    (h : x.frameStep w jobs f (.act (.sync_is_stolen J unstolen stolen :: ops)) = some r) :
    (x.deque = [] ∧ r = (x.goto f (.finished J fun sr =>
      .call (stolen sr).1 (stolen sr).2 :: ops), jobs)) ∨
    ∃ X d, x.deque = X :: d ∧ r = (goto { x with deque := d } f.joined
      (.act (.call unstolen.1 unstolen.2 :: ops)),
        Function.update jobs X ((jobs X).move .popped)) := by
  rw [frameStep] at h
  rcases x.try_dequeue_cases jobs with ⟨hd, htry⟩ | ⟨X, d, hd, htry⟩
  · simp only [htry] at h
    exact .inl ⟨hd, (Option.some.inj h).symm⟩
  · simp only [htry] at h
    exact .inr ⟨X, d, hd, (Option.some.inj h).symm⟩

/-- A stolen job is finished, or the worker looks for other jobs. -/
theorem frameStep_finished {next : V → List (Op V)}
    (h : x.frameStep w jobs f (.finished J next) = some r) :
    ((jobs (f.job w J)).finished = true ∧
      r = (x.goto f.joined (.act (next (jobs (f.job w J)).sr)), jobs)) ∨
    r = ({ x with point := .sched, stack := .frame f (.waiting J next) :: x.stack }, jobs) := by
  rw [frameStep] at h
  by_cases hdone : (jobs (f.job w J)).finished = true
  · rw [if_pos hdone] at h
    exact .inl ⟨hdone, (Option.some.inj h).symm⟩
  · rw [if_neg hdone] at h
    exact .inr (Option.some.inj h).symm

end

/-- The code on top of the stack has returned `v`. -/
def returnStep (v : V) : Option (Worker W V × Jobs W V) :=
  match x.stack with
  | [] => none
  | .opr J :: rest =>
      some ({ x with stack := rest, point := .opr J .ended },
        Function.update jobs J ((jobs J).stop (.ran w) v))
  | .frame f .inBody :: rest =>
      (f.call.resume v).map fun r =>
        (goto { x with stack := rest }
          { f with call := r.1, history := f.history ++ [.returned v] }
          (if r.2 then .close else .body), jobs)
  | .frame f (.inCall ops) :: rest =>
      some (goto { x with stack := rest } { f with res := v } (.act ops), jobs)
  | .frame f (.inClone J ops) :: rest =>
      some (goto { x with stack := rest } f (.act ops),
        Function.update jobs (f.job w J) ((jobs (f.job w J)).stop .cloned v))
  | .frame _ (.waiting _ _) :: _ => none

omit [Inhabited V] in
/-- What is below code that returns. -/
theorem returnStep_cases {v : V} {r : Worker W V × Jobs W V}
    (h : x.returnStep w jobs v = some r) :
    (∃ J rest, x.stack = .opr J :: rest ∧ r = ({ x with stack := rest, point := .opr J .ended },
      Function.update jobs J ((jobs J).stop (.ran w) v))) ∨
    (∃ f rest call ended, x.stack = .frame f .inBody :: rest ∧
      f.call.resume v = some (call, ended) ∧ r = (goto { x with stack := rest }
        { f with call := call, history := f.history ++ [.returned v] }
        (if ended then .close else .body), jobs)) ∨
    (∃ f ops rest, x.stack = .frame f (.inCall ops) :: rest ∧
      r = (goto { x with stack := rest } { f with res := v } (.act ops), jobs)) ∨
    ∃ f J ops rest, x.stack = .frame f (.inClone J ops) :: rest ∧
      r = (goto { x with stack := rest } f (.act ops),
        Function.update jobs (f.job w J) ((jobs (f.job w J)).stop .cloned v)) := by
  rw [returnStep] at h
  cases hstack : x.stack with
  | nil => simp only [hstack, reduceCtorEq] at h
  | cons it rest =>
    simp only [hstack] at h
    cases it with
    | opr J => exact .inl ⟨J, rest, rfl, (Option.some.inj h).symm⟩
    | frame f sus =>
      cases sus with
      | inBody =>
        obtain ⟨⟨call, ended⟩, hres, rfl⟩ := Option.map_eq_some_iff.mp h
        exact .inr (.inl ⟨f, rest, call, ended, rfl, hres, rfl⟩)
      | inCall ops => exact .inr (.inr (.inl ⟨f, ops, rest, rfl, (Option.some.inj h).symm⟩))
      | inClone J ops =>
        exact .inr (.inr (.inr ⟨f, J, ops, rest, rfl, (Option.some.inj h).symm⟩))
      | waiting J next => cases h

/-- A step of user code; `n` is what the data decides. -/
def codeStep (n : ℕ) : Code V → Option (Worker W V × Jobs W V)
  | .ret v => x.returnStep w jobs v
  | .choose k => some ({ x with point := .code (k n) }, jobs)
  | c => (Call.enter c).map fun r =>
      (goto { x with next := x.next + 1 } ⟨x.next, r.1, r.2, false, default, [], []⟩ .ctor, jobs)

theorem codeStep_cases {n : ℕ} {c : Code V} {r : Worker W V × Jobs W V}
    (h : x.codeStep w jobs n c = some r) :
    (∃ v, c = .ret v ∧ x.returnStep w jobs v = some r) ∨
    (∃ k, c = .choose k ∧ r = ({ x with point := .code (k n) }, jobs)) ∨
    ∃ call k, Call.enter c = some (call, k) ∧
      r = (goto { x with next := x.next + 1 } ⟨x.next, call, k, false, default, [], []⟩ .ctor,
        jobs) := by
  cases c with
  | ret v => exact .inl ⟨v, rfl, h⟩
  | choose k => exact .inr (.inl ⟨k, rfl, (Option.some.inj h).symm⟩)
  | _ => exact .inr (.inr ⟨_, _, rfl, (Option.some.inj h).symm⟩)

/-- `operator()`, outside of its `run`. -/
def oprStep (J : JobId W) : Stage → Worker W V × Jobs W V
  | .tokens => ({ x with heartbeat_tokens := (jobs J).hbt, point := .opr J .run }, jobs)
  | .run => (x.enter (.opr J) (jobs J).run, Function.update jobs J ((jobs J).start (.running w)))
  | .ended => ({ x with point := .sched }, Function.update jobs J ((jobs J).move (.done w)))

/-- The test of `finished` in the loop of `wait_until`. -/
def schedStep : Option (Worker W V × Jobs W V) :=
  match x.stack with
  | .frame f (.waiting J next) :: rest =>
      if (jobs (f.job w J)).finished then
        some (goto { x with stack := rest } f.joined (.act (next (jobs (f.job w J)).sr)), jobs)
      else none
  | _ => none

omit [DecidableEq W] [Inhabited V] in
/-- It has found the job it waits for finished. -/
theorem schedStep_cases {r : Worker W V × Jobs W V} (h : x.schedStep w jobs = some r) :
    ∃ f J next rest, x.stack = .frame f (.waiting J next) :: rest ∧
      (jobs (f.job w J)).finished = true ∧
      r = (goto { x with stack := rest } f.joined (.act (next (jobs (f.job w J)).sr)), jobs) := by
  rw [schedStep] at h
  split at h
  · next f J next rest hstack =>
    split at h
    · next hdone => exact ⟨f, J, next, rest, hstack, hdone, (Option.some.inj h).symm⟩
    · cases h
  · cases h

/-- The next step of a worker. -/
def run (n : ℕ) : Option (Worker W V × Jobs W V) :=
  match x.point with
  | .sched => x.schedStep w jobs
  | .code c => x.codeStep w jobs n c
  | .frame f pc => x.frameStep w jobs f pc
  | .opr J stage => some (x.oprStep w jobs J stage)

/-- Start a job that has been taken from a deque. -/
def take (J : JobId W) : Worker W V := { x with point := .opr J .tokens }

/-- The worker looks for a job. -/
def looking : Bool :=
  match x.point with
  | .sched => true
  | _ => false

end Worker

/-- What happens next. -/
inductive Label (W : Type)
  /-- A worker takes a step; `n` resolves a choice of its code. -/
  | run (w : W) (n : ℕ)
  | heartbeat (w : W)
  /-- A worker that looks for a job takes the newest of its own deque. -/
  | get_own_job (w : W)
  /-- A worker that looks for a job takes the oldest of a deque. -/
  | steal (w victim : W)
  deriving DecidableEq, Repr

namespace State

variable (s : State W V)

/-- The worker `w` has moved. -/
def set (r : Worker W V × Jobs W V) : State W V := ⟨Function.update s.workers w r.1, r.2⟩

/-- The worker `w` starts the job `J`, which has been taken from a deque. -/
def start (J : JobId W) : State W V :=
  s.set w ((s.workers w).take J, Function.update s.jobs J ((s.jobs J).move (.taken w)))

/-- The worker `w` has another deque. -/
def setDeque (d : List (JobId W)) : State W V :=
  s.set w ({ s.workers w with deque := d }, s.jobs)

omit [Inhabited V] in
@[simp] theorem set_self (r : Worker W V × Jobs W V) : (s.set w r).workers w = r.1 :=
  Function.update_self ..

omit [Inhabited V] in
theorem set_ne {v : W} (h : v ≠ w) (r : Worker W V × Jobs W V) :
    (s.set w r).workers v = s.workers v := Function.update_of_ne h ..

omit [Inhabited V] in
/-- A deque is one field of its worker. -/
theorem setDeque_workers (d : List (JobId W)) (v : W) :
    (s.setDeque w d).workers v =
      { s.workers v with deque := if v = w then d else (s.workers v).deque } := by
  by_cases h : v = w
  · subst h
    rw [if_pos rfl]
    exact set_self v s _
  · rw [if_neg h]
    exact set_ne w s h _

/-- One step of the system. -/
def step : Label W → Option (State W V)
  | .run w n => ((s.workers w).run w s.jobs n).map (s.set w)
  | .heartbeat w => some (s.set w ((s.workers w).heartbeat_handler w s.jobs))
  | .get_own_job w =>
      match (s.workers w).looking, (s.workers w).deque with
      | true, J :: d => some ((s.setDeque w d).start w J)
      | _, _ => none
  | .steal w victim =>
      match (s.workers w).looking, steal (s.workers victim).deque with
      | true, some (d, J) => some ((s.setDeque victim d).start w J)
      | _, _ => none

variable {s} in
/-- A step of the system is a step of one worker, a heartbeat, or the start of a job taken
from a deque by a worker that looks for one. -/
theorem step_cases {l : Label W} {s' : State W V} (h : s.step l = some s') :
    (∃ w n r, (s.workers w).run w s.jobs n = some r ∧ s' = s.set w r) ∨
    (∃ w, s' = s.set w ((s.workers w).heartbeat_handler w s.jobs)) ∨
    ∃ w v d J, (s.workers w).looking = true ∧ s' = (s.setDeque v d).start w J ∧
      ((v = w ∧ (s.workers v).deque = J :: d) ∨ (s.workers v).deque = d ++ [J]) := by
  cases l with
  | run w n =>
    obtain ⟨r, hr, he⟩ := Option.map_eq_some_iff.mp h
    exact .inl ⟨w, n, r, hr, he.symm⟩
  | heartbeat w => exact .inr (.inl ⟨w, (Option.some.inj h).symm⟩)
  | get_own_job w =>
    simp only [step] at h
    cases hl : (s.workers w).looking <;> cases hd : (s.workers w).deque <;>
      simp only [hl, hd, reduceCtorEq, Option.some.injEq] at h
    exact .inr (.inr ⟨w, w, _, _, hl, h.symm, .inl ⟨rfl, hd⟩⟩)
  | steal w victim =>
    simp only [step] at h
    cases hl : (s.workers w).looking <;> cases hd : steal (s.workers victim).deque <;>
      simp only [hl, hd, reduceCtorEq, Option.some.injEq] at h
    exact .inr (.inr ⟨w, victim, _, _, hl, h.symm, .inr (steal_eq_some.mp hd)⟩)

/-- Nothing has happened: `main` says what each worker runs first, if anything. -/
def init (main : W → Option (Code V)) : State W V where
  workers w := ⟨(main w).elim .sched .code, [], [], 0, false, 0, 0, 0⟩
  jobs _ := Job.new

/-- A run: the labels of its steps. -/
def exec : List (Label W) → State W V → Option (State W V)
  | [], s => some s
  | l :: ls, s => (s.step l).bind (exec ls)

/-- A step, with any label. -/
def Step (s s' : State W V) : Prop := ∃ l, s.step l = some s'

/-- The states of all runs of all programs. -/
def Reachable (s : State W V) : Prop := ∃ main, Relation.ReflTransGen Step (init main) s

/-- Enough to show of an invariant. -/
theorem Reachable.induction {P : State W V → Prop} (h₀ : ∀ main, P (init main))
    (hstep : ∀ s s', P s → Step s s' → P s') {s : State W V} (hs : s.Reachable) : P s := by
  obtain ⟨main, hrun⟩ := hs
  induction hrun with
  | refl => exact h₀ main
  | tail _ h ih => exact hstep _ _ ih h

theorem exec_steps {ls : List (Label W)} {s s' : State W V} (h : exec ls s = some s') :
    Relation.ReflTransGen Step s s' := by
  induction ls generalizing s with
  | nil => exact Option.some.inj h ▸ .refl
  | cons l ls ih =>
    obtain ⟨s₁, h₁, hs⟩ := Option.bind_eq_some_iff.mp h
    exact .head ⟨l, h₁⟩ (ih hs)

/-- The state after a run is reachable. -/
theorem reachable_exec (main : W → Option (Code V)) (ls : List (Label W))
    (h : (exec ls (init main)).isSome) : ((exec ls (init main)).get h).Reachable :=
  ⟨main, exec_steps (Option.some_get h).symm⟩

end State
end

/-- Two nested calls of `par`, on the first of two workers. -/
def parMain : Bool → Option (Code ℕ)
  | false => some (.par (.par (.ret 0) (.ret 0) (.ret 0)) (.ret 0) (.ret 0))
  | true => none

/-- A heartbeat in the inner left branch, and on to the inner `sync`. -/
def parRun : List (Label Bool) :=
  [.run false 0, .run false 0, .run false 0, .run false 0,
   .run false 0, .run false 0, .run false 0, .run false 0,
   .heartbeat false, .run false 0, .run false 0, .run false 0]

/-- The state after `parRun`. -/
def parState : State Bool ℕ := (State.exec parRun (State.init parMain)).get (by rfl)

theorem reachable_parState : parState.Reachable := State.reachable_exec parMain parRun rfl

end Spork.Scheduler
