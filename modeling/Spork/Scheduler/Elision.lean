import Spork.Scheduler.Joins
import Spork.Scheduler.Progress

/-!
# The sequential elision

Without its scheduler a program over the library is a sequential one: `par` runs its branches
one after the other, a loop runs its bodies in order, and `spork` runs its body and goes on
with one of its three continuations. This is a big-step relation, `Evals`. Whatever the
workers do to each other, a program that returns returns a value of this relation; and where
the continuations of `spork` agree there is only one.

## Main definitions

* `Evals` — the elision.
* `Call.Bodies`, `Call.Spawned`, `Call.Ends` — the values a call works with.
* `FrameGood`, `Accepts` — what a call, and what a stack makes of a value.
* `Sound` — the invariant, and `step_sound` the step lemma.
* `elision` — the values that programs return.
* `Uniform`, `Code.elide`, `elision_unique` — programs with one value.
-/
namespace Spork.Scheduler

variable {W V : Type}

/-! ## Big steps -/

/-- The code returns the value, run by one worker alone. -/
inductive Evals : Code V → V → Prop
  | ret (v : V) : Evals (.ret v) v
  | choose {k : ℕ → Code V} {v : V} (n : ℕ) (hk : Evals (k n) v) : Evals (.choose k) v
  | par {lamL lamR k : Code V} {a b v : V} (hL : Evals lamL a) (hR : Evals lamR b)
      (hk : Evals k v) : Evals (.par lamL lamR k) v
  /-- The body has not been promoted. -/
  | unpr {body spwn : Code V} {unpr unst : V → Code V} {prom : V → V → Code V} {k : V → Code V}
      {br u v : V} (hbody : Evals body br) (hunpr : Evals (unpr br) u) (hk : Evals (k u) v) :
      Evals (.spork body spwn unpr unst prom k) v
  /-- It has been, but its job has been taken back. -/
  | unst {body spwn : Code V} {unpr unst : V → Code V} {prom : V → V → Code V} {k : V → Code V}
      {br u v : V} (hbody : Evals body br) (hunst : Evals (unst br) u) (hk : Evals (k u) v) :
      Evals (.spork body spwn unpr unst prom k) v
  /-- The job has been run. -/
  | prom {body spwn : Code V} {unpr unst : V → Code V} {prom : V → V → Code V} {k : V → Code V}
      {br sr u v : V} (hbody : Evals body br) (hspwn : Evals spwn sr)
      (hprom : Evals (prom br sr) u) (hk : Evals (k u) v) :
      Evals (.spork body spwn unpr unst prom k) v
  | parfor {factor i j : ℤ} {body : ℤ → Code V} {binop : Parfor.Half → Code V} {k : Code V}
      {v : V} (a : ℤ → V) (hbody : ∀ n, i ≤ n → n < j → Evals (body n) (a n)) (hk : Evals k v) :
      Evals (.parfor factor i j body binop k) v
  | scan {n : ℕ} {body first : ℤ → Code V} {up : Scan.Split → Code V}
      {rest : Option V → ℤ → Code V} {k : Code V} {v : V} (a : ℤ → V)
      (hbody : ∀ i, 0 ≤ i → i < (n : ℤ) → Evals (body i) (a i)) (hk : Evals k v) :
      Evals (.scan n body first up rest k) v

/-- Every program ends. -/
theorem exists_evals (c : Code V) : ∃ v, Evals c v := by
  induction c with
  | ret v => exact ⟨v, .ret v⟩
  | choose k ih => exact (ih 0).imp fun _ => .choose 0
  | par lamL lamR k ihL ihR ihk =>
    obtain ⟨a, hL⟩ := ihL
    obtain ⟨b, hR⟩ := ihR
    exact ihk.imp fun _ => .par hL hR
  | spork body spwn unpr unst prom k ihbody _ ihunpr _ _ ihk =>
    obtain ⟨br, hbody⟩ := ihbody
    obtain ⟨u, hu⟩ := ihunpr br
    exact (ihk u).imp fun _ => .unpr hbody hu
  | parfor factor i j body binop k ihbody _ ihk =>
    choose a ha using ihbody
    exact ihk.imp fun _ => .parfor a fun n _ _ => ha n
  | scan n body first up rest k ihbody _ _ _ ihk =>
    choose a ha using ihbody
    exact ihk.imp fun _ => .scan a fun i _ _ => ha i

namespace Call

/-- The values of the body, where the call looks at them. -/
def Bodies : Call V → V → Prop
  | spork body _ _ _ _ _ => Evals body
  | _ => fun _ => True

/-- The values of a stolen job, where the call looks at them. -/
def Spawned : Call V → V → Prop
  | spork _ spwn _ _ _ _ => Evals spwn
  | _ => fun _ => True

/-- What the call returns, given the value of its body. -/
def Ends (br : V) : Call V → V → Prop
  | spork _ spwn unpr unst prom _ => fun u =>
      Evals (unpr br) u ∨ Evals (unst br) u ∨ ∃ sr, Evals spwn sr ∧ Evals (prom br sr) u
  | _ => fun _ => True

/-- The value of the body, once it has returned. -/
def br [Inhabited V] : Call V → V
  | spork _ _ _ _ _ br => br
  | _ => default

variable {call call' : Call V} {c : Code V} {k : V → Code V} {v u : V}

/-- What a call returns is what its code goes on with. -/
theorem evals_enter [Inhabited V] {br : V} (h : enter c = some (call, k)) (hbr : call.Bodies br)
    (hu : call.Ends br u) (hk : Evals (k u) v) : Evals c v := by
  cases c with
  | ret v => cases h
  | choose k => cases h
  | par lamL lamR k =>
    cases h
    obtain ⟨a, hL⟩ := exists_evals lamL
    obtain ⟨b, hR⟩ := exists_evals lamR
    exact .par hL hR hk
  | spork body spwn unpr unst prom k =>
    cases h
    rcases hu with hu | hu | ⟨sr, hsr, hu⟩
    · exact .unpr hbr hu hk
    · exact .unst hbr hu hk
    · exact .prom hbr hsr hu hk
  | parfor factor i j body binop k =>
    cases h
    choose a ha using fun n => exists_evals (body n)
    exact .parfor a (fun n _ _ => ha n) hk
  | scan n body first up rest k =>
    cases h
    choose a ha using fun i => exists_evals (body i)
    exact .scan a (fun i _ _ => ha i) hk

/-- A body the call runs has a value of its body. -/
theorem bodies_of_next (h : call.next = some (.call c)) (hv : Evals c v) : call.Bodies v := by
  cases call with
  | spork => cases h; exact hv
  | _ => trivial

/-- The calls work with the same values. -/
structure Same (call call' : Call V) : Prop where
  bodies : call'.Bodies = call.Bodies
  spawned : call'.Spawned = call.Spawned
  ends : ∀ br, call'.Ends br = call.Ends br

theorem Same.refl (call : Call V) : call.Same call := ⟨rfl, rfl, fun _ => rfl⟩

theorem same_of_move (h : call.next = some (.move call')) : call.Same call' := by
  cases call with
  | par => cases h
  | spork => cases h
  | parfor =>
    obtain ⟨c', -, rfl⟩ := loopNext_move h
    exact ⟨rfl, rfl, fun _ => rfl⟩
  | scan =>
    obtain ⟨c', -, rfl⟩ := loopNext_move h
    exact ⟨rfl, rfl, fun _ => rfl⟩

/-- A body that is over leaves its value to the call. -/
theorem ends_of_resume [Inhabited V] {ended : Bool} {br : V}
    (h : call.resume v = some (call', ended)) (hbr : ended = true → br = call'.br)
    (hu : call'.Ends br u) : call.Ends v u := by
  cases call with
  | spork =>
    cases h
    rw [hbr rfl] at hu
    exact hu
  | _ => trivial

/-- A body that has nothing to run has no value of use. -/
theorem bodies_of_done (h : call.next = some .done) (v : V) : call.Bodies v := by
  cases call with
  | spork => cases h
  | _ => trivial

theorem same_promfn [Inhabited V] (call : Call V) :
    call.Same call.promfn.1 ∧ call.promfn.1.br = call.br := by
  cases call with
  | scan n body first up rest c =>
    rcases promfn_scan n body first up rest c with he | ⟨p, t, -, -, he⟩ <;> rw [he] <;>
      exact ⟨⟨rfl, rfl, fun _ => rfl⟩, rfl⟩
  | _ => exact ⟨⟨rfl, rfl, fun _ => rfl⟩, rfl⟩

end Call

/-! ## What is left of a call -/

/-- With the value `res` so far and the values `S` of a stolen job, what is left of a call
ends in a value of `K`. -/
def OpsGood (S K : V → Prop) : List (Op V) → V → Prop
  | [], res => K res
  | .call _ c :: ops, _ => ∀ v, Evals c v → OpsGood S K ops v
  | .sync _ _ :: ops, res => OpsGood S K ops res
  | .sync_is_stolen _ unstolen stolen :: ops, _ =>
      (∀ v, Evals unstolen.2 v → OpsGood S K ops v) ∧
      ∀ sr, S sr → ∀ v, Evals (stolen sr).2 v → OpsGood S K ops v

/-- If every value will do, nothing is asked. -/
theorem opsGood_of_forall {S K : V → Prop} (hK : ∀ u, K u) (ops : List (Op V)) (res : V) :
    OpsGood S K ops res := by
  induction ops generalizing res with
  | nil => exact hK res
  | cons op ops ih =>
    cases op with
    | call e c => exact fun v _ => ih v
    | sync J b => exact ih res
    | sync_is_stolen J unstolen stolen => exact ⟨fun v _ => ih v, fun _ _ v _ => ih v⟩

section
variable [Inhabited V]

/-- What a call makes of the values it works with, if it may return those of `K`. -/
def FrameGood (K : V → Prop) (f : Frame V) : Place W V → Prop
  | .promoting | .before | .inside => ∀ br, f.call.Bodies br → ∀ u, f.call.Ends br u → K u
  | .closing => ∀ u, f.call.Ends f.call.br u → K u
  | .rest ops => OpsGood f.call.Spawned K ops f.res
  | .clones _ _ ops => OpsGood f.call.Spawned K ops f.res
  | .waits _ next => ∀ sr, f.call.Spawned sr → OpsGood f.call.Spawned K (next sr) f.res

/-- A call that has closed its slot goes on as it should. -/
theorem after_good {K : V → Prop} {call : Call V} {promoted : Bool} {ops : List (Op V)}
    {res : V} (hops : call.after promoted = some ops) (h : ∀ u, call.Ends call.br u → K u) :
    OpsGood call.Spawned K ops res := by
  cases call with
  | spork body spwn unpr unst prom br =>
    cases promoted with
    | false =>
      cases hops
      exact fun v hv => h v (.inl hv)
    | true =>
      cases hops
      exact ⟨fun v hv => h v (.inr (.inl hv)), fun sr hsr v hv => h v (.inr (.inr ⟨sr, hsr, hv⟩))⟩
  | _ => exact opsGood_of_forall (fun u => h u trivial) ops res

/-- What the stack may be returned. Below a stolen job nothing is. -/
def Accepts (main : V → Prop) (jobs : Jobs W V) : List (Item W V) → V → Prop
  | [] => main
  | .opr J :: _ => Evals (jobs J).run
  | .frame f sus :: rest => fun v =>
      let K := fun u => ∀ v', Evals (f.k u) v' → Accepts main jobs rest v'
      match sus with
      | .inBody => ∀ u, f.call.Ends v u → K u
      | .inCall ops => OpsGood f.call.Spawned K ops v
      | .inClone _ ops => OpsGood f.call.Spawned K ops f.res
      | .waiting _ _ => True

/-- What the call `f` may return to the stack below it. -/
def Returns (main : V → Prop) (jobs : Jobs W V) (f : Frame V) (rest : List (Item W V)) :
    V → Prop := fun u => ∀ v, Evals (f.k u) v → Accepts main jobs rest v

/-- The calls that wait go on as they should. -/
def Below (main : V → Prop) (jobs : Jobs W V) : List (Item W V) → Prop
  | [] => True
  | .opr _ :: rest => Below main jobs rest
  | .frame f sus :: rest =>
      (sus.isWaiting = true → FrameGood (Returns main jobs f rest) f (sus.place (W := W))) ∧
        Below main jobs rest

/-- So does what runs on top of them. -/
def PointGood (main : V → Prop) (jobs : Jobs W V) (stack : List (Item W V)) : Point W V → Prop
  | .code c => ∀ v, Evals c v → Accepts main jobs stack v
  | .frame f pc => FrameGood (Returns main jobs f stack) f (pc.place (W := W))
  | _ => True

/-- A worker only returns values it should. -/
structure Worker.Good (main : V → Prop) (jobs : Jobs W V) (x : Worker W V) : Prop where
  below : Below main jobs x.stack
  point : PointGood main jobs x.stack x.point

/-- A stolen job that has been run has a value of its code. -/
def Job.Good (j : Job W V) : Prop :=
  match j.phase with
  | .ran _ | .done _ => Evals j.run j.sr
  | _ => True

/-! ## Steps that leave a stack alone -/

variable {main : V → Prop} {jobs jobs' : Jobs W V} {stack stack' : List (Item W V)}
  {f f' : Frame V}

omit [Inhabited V] in
/-- Only the code of the stolen jobs matters. -/
theorem accepts_congr (h : ∀ J, .opr J ∈ stack → (jobs' J).run = (jobs J).run) :
    Accepts main jobs' stack = Accepts main jobs stack := by
  induction stack with
  | nil => rfl
  | cons it rest ih =>
    cases it with
    | opr J =>
      rw [Accepts, Accepts]
      rw [h J List.mem_cons_self]
    | frame f sus =>
      rw [Accepts, Accepts]
      rw [ih fun J hJ => h J (List.mem_cons_of_mem _ hJ)]

omit [Inhabited V] in
theorem returns_congr (h : ∀ J, .opr J ∈ stack → (jobs' J).run = (jobs J).run) :
    Returns main jobs' f stack = Returns main jobs f stack := by
  funext u
  rw [Returns, Returns, accepts_congr h]

theorem below_congr (h : ∀ J, .opr J ∈ stack → (jobs' J).run = (jobs J).run) :
    Below main jobs' stack ↔ Below main jobs stack := by
  induction stack with
  | nil => rfl
  | cons it rest ih =>
    have hrest : ∀ J, .opr J ∈ rest → (jobs' J).run = (jobs J).run :=
      fun J hJ => h J (List.mem_cons_of_mem _ hJ)
    cases it with
    | opr J => exact ih hrest
    | frame f sus => rw [Below, Below, ih hrest, returns_congr hrest]

theorem Worker.Good.congr {x : Worker W V} (h : x.Good main jobs)
    (hjobs : ∀ J, .opr J ∈ x.stack → (jobs' J).run = (jobs J).run) : x.Good main jobs' where
  below := (below_congr hjobs).mpr h.below
  point := by
    have hpoint := h.point
    cases hp : x.point with
    | code c =>
      rw [hp] at hpoint
      rw [PointGood, accepts_congr hjobs]
      exact hpoint
    | frame f pc =>
      rw [hp] at hpoint
      rw [PointGood, returns_congr hjobs]
      exact hpoint
    | _ => trivial

/-- The frames go on with the same values in the same way. -/
structure Frame.Like (f f' : Frame V) : Prop where
  k : f'.k = f.k
  res : f'.res = f.res
  same : f.call.Same f'.call
  br : f'.call.br = f.call.br

/-- Items whose frames are alike. -/
inductive Item.Like : Item W V → Item W V → Prop
  | frame {f f' : Frame V} (sus : Sus V) (h : f.Like f') : Like (.frame f sus) (.frame f' sus)
  | opr (J : JobId W) : Like (.opr J) (.opr J)

theorem Frame.Like.refl (f : Frame V) : f.Like f := ⟨rfl, rfl, .refl _, rfl⟩

omit [Inhabited V] in
/-- More values will do. -/
theorem OpsGood.mono {S K K' : V → Prop} (hK : ∀ u, K u → K' u) {ops : List (Op V)} {res : V}
    (h : OpsGood S K ops res) : OpsGood S K' ops res := by
  induction ops generalizing res with
  | nil => exact hK res h
  | cons op ops ih =>
    cases op with
    | call e c => exact fun v hv => ih (h v hv)
    | sync J b => exact ih h
    | sync_is_stolen J unstolen stolen =>
      exact ⟨fun v hv => ih (h.1 v hv), fun sr hsr v hv => ih (h.2 sr hsr v hv)⟩

/-- Calls that are alike make the same of their values. -/
theorem FrameGood.like {K K' : V → Prop} {p : Place W V} (h : FrameGood K f p) (hf : f.Like f')
    (hK : ∀ u, K u → K' u) : FrameGood K' f' p := by
  cases p with
  | closing =>
    intro u hu
    rw [hf.same.ends, hf.br] at hu
    exact hK u (h u hu)
  | rest ops =>
    rw [FrameGood, hf.same.spawned, hf.res]
    exact OpsGood.mono hK h
  | clones J ph ops =>
    rw [FrameGood, hf.same.spawned, hf.res]
    exact OpsGood.mono hK h
  | waits J next =>
    rw [FrameGood, hf.same.spawned, hf.res]
    exact fun sr hsr => OpsGood.mono hK (h sr hsr)
  | _ =>
    intro br hbr u hu
    rw [hf.same.bodies] at hbr
    rw [hf.same.ends] at hu
    exact hK u (h br hbr u hu)

theorem Frame.Like.returns (hf : f.Like f')
    (h : ∀ v, Accepts main jobs stack v → Accepts main jobs stack' v) (u : V)
    (hu : Returns main jobs f stack u) : Returns main jobs f' stack' u := by
  intro v hv
  rw [hf.k] at hv
  exact h v (hu v hv)

/-- Stacks that are alike may be returned the same. -/
theorem accepts_like (h : List.Forall₂ Item.Like stack stack') (v : V)
    (hv : Accepts main jobs stack v) : Accepts main jobs stack' v := by
  induction h generalizing v with
  | nil => exact hv
  | cons hit _ ih =>
    cases hit with
    | opr J => exact hv
    | frame sus hf =>
      have hK := hf.returns ih
      cases sus with
      | inBody =>
        intro u hu
        rw [hf.same.ends] at hu
        exact hK u (hv u hu)
      | inCall ops =>
        rw [Accepts, hf.same.spawned]
        exact OpsGood.mono hK hv
      | inClone J ops =>
        rw [Accepts, hf.same.spawned, hf.res]
        exact OpsGood.mono hK hv
      | waiting J next => trivial

theorem below_like (h : List.Forall₂ Item.Like stack stack') (hb : Below main jobs stack) :
    Below main jobs stack' := by
  induction h with
  | nil => trivial
  | cons hit hrest ih =>
    cases hit with
    | opr J => exact ih hb
    | frame sus hf =>
      exact ⟨fun hw => (hb.1 hw).like hf (hf.returns (accepts_like hrest)), ih hb.2⟩

section
variable [DecidableEq W] {w : W}

theorem visit_like (isOpen : Bool) (f : Frame V) (e : Env W V) :
    f.Like (f.visit w isOpen e).1 := by
  rcases visit_promoted w isOpen f e with ⟨hv, -⟩ | ⟨hv, -⟩
  · rw [hv]
    exact .refl f
  · rw [hv]
    obtain ⟨hsame, hbr⟩ := Call.same_promfn f.call
    exact ⟨rfl, rfl, hsame, hbr⟩

theorem promoteStack_like (stack : List (Item W V)) (e : Env W V) :
    List.Forall₂ Item.Like stack (promoteStack w stack e).1 := by
  induction stack with
  | nil => exact .nil
  | cons it rest ih =>
    cases it with
    | opr J => exact .cons (.opr J) ih
    | frame f sus => exact .cons (.frame sus (visit_like ..)) ih

/-- A heartbeat changes nothing of what a worker returns. -/
theorem Worker.Good.heartbeat {x : Worker W V} (h : x.Good main jobs) :
    (x.heartbeat_handler w jobs).1.Good main jobs := by
  rw [Worker.heartbeat_handler]
  by_cases hd : x.disable_heartbeats
  · rw [if_pos hd]
    exact ⟨h.below, h.point⟩
  · rw [if_neg hd, Worker.promote_front]
    obtain ⟨hbelow, hpoint⟩ := h
    cases hp : x.point with
    | frame f pc =>
      rw [hp] at hpoint
      exact ⟨below_like (promoteStack_like ..) hbelow, FrameGood.like hpoint (visit_like ..)
        ((visit_like ..).returns (accepts_like (promoteStack_like ..)))⟩
    | code c =>
      rw [hp] at hpoint
      exact ⟨below_like (promoteStack_like ..) hbelow,
        fun v hv => accepts_like (promoteStack_like ..) v (hpoint v hv)⟩
    | _ => exact ⟨below_like (promoteStack_like ..) hbelow, trivial⟩

/-! ## Steps of a worker -/

variable {x : Worker W V} {r : Worker W V × Jobs W V}

/-- What stolen jobs have returned is a value of their code. -/
def JobsGood (jobs : Jobs W V) : Prop := ∀ J, (jobs J).Good

omit [DecidableEq W] [Inhabited V] in
theorem AtHome.jobsGood {jobs jobs' : Jobs W V} (h : AtHome w jobs jobs') (hg : JobsGood jobs) :
    JobsGood jobs' := by
  intro J
  rcases h J with he | ⟨hph, -⟩
  · exact he ▸ hg J
  · rw [Job.Good]
    cases hp : (jobs' J).phase <;> rw [hp] at hph
    case ran u => exact absurd trivial hph
    case done u => exact absurd trivial hph
    all_goals trivial

omit [Inhabited V] in
theorem jobsGood_update {X : JobId W} {j : Job W V} (h : JobsGood jobs) (hj : j.Good) :
    JobsGood (Function.update jobs X j) := by
  intro J
  by_cases hJ : J = X
  · subst hJ
    rwa [Function.update_self]
  · rw [Function.update_of_ne hJ]
    exact h J

omit [DecidableEq W] [Inhabited V] in
/-- A call that finds a stolen job finished finds a value of its code. -/
theorem spawned_of_finished {f : Frame V} {J : JobName} {next : V → List (Op V)}
    (hf : FrameOk w jobs f (.waits J next)) (hg : JobsGood jobs)
    (hdone : (jobs (f.job w J)).finished = true) : f.call.Spawned (jobs (f.job w J)).sr := by
  have hhist := hf.hist
  have hspwn := hf.spwn hf.place.1 (by simp)
  have hjob := hg (f.job w J)
  cases hcall : f.call with
  | spork body spwn unpr unst prom br =>
    rw [hcall] at hhist hspwn
    obtain ⟨-, -, rfl, -⟩ := hhist
    rw [Job.finished] at hdone
    rw [Job.Good] at hjob
    have hrun := hspwn spwn rfl
    cases hph : (jobs (f.job w .jp)).phase <;> rw [hph] at hdone hjob <;> cases hdone
    exact hrun ▸ hjob
  | _ => trivial

theorem frameStep_good {f : Frame V} {pc : Pc V} (hf : FrameOk w jobs f pc.place)
    (hbelow : Below main jobs x.stack) (hjobs : JobsGood jobs)
    (hpoint : FrameGood (Returns main jobs f x.stack) f (pc.place (W := W)))
    (h : x.frameStep w jobs f pc = some r) : r.1.Good main jobs := by
  cases pc with
  | ctor => cases h; exact ⟨hbelow, hpoint⟩
  | check =>
    cases h
    by_cases htok : x.heartbeat_tokens ≠ 0
    · rw [if_pos htok]
      exact ⟨hbelow, hpoint⟩
    · rw [if_neg htok]
      exact ⟨hbelow, hpoint⟩
  | save => cases h; exact ⟨hbelow, hpoint⟩
  | disable before => cases h; exact ⟨hbelow, hpoint⟩
  | retest before =>
    cases h
    by_cases htok : x.heartbeat_tokens ≠ 0 ∧ f.promoted = false
    · rw [if_pos htok]
      exact ⟨hbelow, hpoint⟩
    · rw [if_neg htok]
      exact ⟨hbelow, hpoint⟩
  | dec before => cases h; exact ⟨hbelow, hpoint⟩
  | setPromoted before => cases h; exact ⟨hbelow, hpoint⟩
  | prom before =>
    cases h
    obtain ⟨hsame, hbr⟩ := Call.same_promfn f.call
    exact ⟨hbelow, FrameGood.like (p := .before (W := W)) hpoint ⟨rfl, rfl, hsame, hbr⟩
      fun _ hu => hu⟩
  | restore before => cases h; exact ⟨hbelow, hpoint⟩
  | body =>
    rcases Worker.frameStep_body w h with ⟨c, hnext, rfl⟩ | ⟨call, hnext, rfl⟩ | ⟨hnext, rfl⟩
    · exact ⟨⟨fun hw => (nomatch hw), hbelow⟩,
        fun v hv => hpoint v (Call.bodies_of_next hnext hv)⟩
    · have hsame := Call.same_of_move hnext
      refine ⟨hbelow, fun br hbr u hu => hpoint br ?_ u ?_⟩
      · rwa [← hsame.bodies]
      · rwa [← hsame.ends]
    · exact ⟨hbelow, hpoint _ (Call.bodies_of_done hnext _)⟩
  | close => cases h; exact ⟨hbelow, hpoint⟩
  | closed =>
    obtain ⟨ops, hops, rfl⟩ := Option.map_eq_some_iff.mp h
    exact ⟨hbelow, after_good hops hpoint⟩
  | act ops =>
    cases ops with
    | nil => cases h; exact ⟨hbelow, hpoint⟩
    | cons op ops =>
      cases op with
      | call e c => cases h; exact ⟨⟨fun hw => (nomatch hw), hbelow⟩, hpoint⟩
      | sync J reclaim =>
        rcases Worker.frameStep_sync w h with ⟨-, rfl⟩ | ⟨X, d, -, rfl⟩
        · exact ⟨hbelow, fun _ _ => hpoint⟩
        · cases reclaim <;> exact ⟨hbelow, hpoint⟩
      | sync_is_stolen J unstolen stolen =>
        rcases Worker.frameStep_sync_is_stolen w h with ⟨-, rfl⟩ | ⟨X, d, -, rfl⟩
        · exact ⟨hbelow, hpoint.2⟩
        · exact ⟨hbelow, hpoint.1⟩
  | reclaim J ops => cases h; exact ⟨hbelow, hpoint⟩
  | reclaimed J tokens ops => cases h; exact ⟨hbelow, hpoint⟩
  | clone J ops => cases h; exact ⟨⟨fun hw => (nomatch hw), hbelow⟩, fun _ _ => hpoint⟩
  | finished J next =>
    rcases Worker.frameStep_finished w h with ⟨hdone, rfl⟩ | rfl
    · exact ⟨hbelow, hpoint _ (spawned_of_finished hf hjobs hdone)⟩
    · exact ⟨⟨fun _ => hpoint, hbelow⟩, trivial⟩

/-- Code may return what the item below it accepts. -/
theorem returnStep_good {v : V} (hbelow : Below main jobs x.stack)
    (hv : Accepts main jobs x.stack v) (h : x.returnStep w jobs v = some r) :
    r.1.Good main jobs := by
  rcases Worker.returnStep_cases w x jobs h with ⟨J, rest, hstack, rfl⟩ |
    ⟨f, rest, call, ended, hstack, hres, rfl⟩ | ⟨f, ops, rest, hstack, rfl⟩ |
    ⟨f, J, ops, rest, hstack, rfl⟩ <;> rw [hstack] at hbelow hv
  · exact ⟨hbelow, trivial⟩
  · refine ⟨hbelow.2, ?_⟩
    cases ended with
    | false => exact fun br _ u hu => hv u (Call.ends_of_resume hres (fun he => nomatch he) hu)
    | true => exact fun u hu => hv u (Call.ends_of_resume hres (fun _ => rfl) hu)
  · exact ⟨hbelow.2, hv⟩
  · exact ⟨hbelow.2, hv⟩

/-- A step of a worker, as the jobs were before it. -/
theorem run_good_before {n : ℕ} (hok : x.Ok w jobs) (hx : x.Good main jobs)
    (hjobs : JobsGood jobs) (h : x.run w jobs n = some r) : r.1.Good main jobs := by
  obtain ⟨hbelow, hpoint⟩ := hx
  have hframes := hok.frames
  rw [Worker.frames] at hframes
  rw [Worker.run] at h
  cases hp : x.point with
  | sched =>
    simp only [hp] at h
    obtain ⟨f, J, next, rest, hstack, hdone, rfl⟩ := Worker.schedStep_cases w x jobs h
    rw [hp, hstack] at hframes
    rw [hstack] at hbelow
    have hf : FrameOk w jobs f (.waits J next) := hframes _ List.mem_cons_self
    exact ⟨hbelow.2, hbelow.1 rfl _ (spawned_of_finished hf hjobs hdone)⟩
  | code c =>
    rw [hp] at hpoint
    simp only [hp] at h
    rcases Worker.codeStep_cases w x jobs h with ⟨v, rfl, hret⟩ | ⟨k, rfl, rfl⟩ |
      ⟨call, k, henter, rfl⟩
    · exact returnStep_good hbelow (hpoint v (.ret v)) hret
    · exact ⟨hbelow, fun v hv => hpoint v (.choose n hv)⟩
    · exact ⟨hbelow, fun br hbr u hu v hv => hpoint v (Call.evals_enter henter hbr hu hv)⟩
  | frame f pc =>
    rw [hp] at hpoint hframes
    simp only [hp] at h
    exact frameStep_good (hframes _ List.mem_cons_self) hbelow hjobs hpoint h
  | opr J stage =>
    simp only [hp] at h
    cases h
    cases stage with
    | tokens => exact ⟨hbelow, trivial⟩
    | run => exact ⟨hbelow, fun _ hv => hv⟩
    | ended => exact ⟨hbelow, trivial⟩

omit [Inhabited V] in
theorem update_run_eq {X : JobId W} {j : Job W V} (hj : j.run = (jobs X).run) (J : JobId W) :
    (Function.update jobs X j J).run = (jobs J).run := by
  by_cases hJ : J = X
  · subst hJ
    rwa [Function.update_self]
  · rw [Function.update_of_ne hJ]

omit [DecidableEq W] [Inhabited V] in
theorem AtHome.run_eq {jobs' : Jobs W V} (h : AtHome w jobs jobs') {J : JobId W}
    (hJ : J.owner ≠ w) : (jobs' J).run = (jobs J).run := by
  rcases h J with he | ⟨-, hrun⟩
  · exact congrArg Job.run he
  · exact hrun hJ

/-- A worker changes no code of stolen jobs. -/
theorem run_keeps {n : ℕ} (h : x.run w jobs n = some r) {J : JobId W} (hJ : J.owner ≠ w) :
    (r.2 J).run = (jobs J).run := by
  obtain ⟨y, jobs'⟩ := r
  rcases run_jobs h with hhome | hopr
  · exact hhome.run_eq hJ
  · cases hopr with
    | run => exact update_run_eq (by rfl) J
    | ret => exact update_run_eq (by rfl) J
    | ended => exact update_run_eq (by rfl) J

omit [DecidableEq W] [Inhabited V] in
/-- The stolen jobs on a stack are of other workers. -/
theorem Worker.Ok.owner_ne (hok : x.Ok w jobs) {J : JobId W} (hJ : .opr J ∈ x.stack) :
    (jobs J).phase = .running w ∧ J.owner ≠ w := by
  have hmem : (J, .running w) ∈ x.oprs w := List.mem_append_right _
    (List.mem_flatMap.mpr ⟨.opr J, hJ, List.mem_singleton_self _⟩)
  obtain ⟨hph, -, hne⟩ := hok.oprs _ hmem
  exact ⟨hph, hne⟩

theorem run_good {n : ℕ} (hs : x.SlotsOk) (hok : x.Ok w jobs) (hx : x.Good main jobs)
    (hjobs : JobsGood jobs) (h : x.run w jobs n = some r) : r.1.Good main r.2 :=
  (run_good_before hok hx hjobs h).congr fun _ hJ =>
    run_keeps h ((run_kept hs hok h).ok.owner_ne hJ).2

/-- A job is left with a value of its code. -/
theorem run_jobsGood {n : ℕ} (hok : x.Ok w jobs) (hx : x.Good main jobs)
    (hjobs : JobsGood jobs) (h : x.run w jobs n = some r) : JobsGood r.2 := by
  have hoprs := hok.oprs
  rw [Worker.oprs] at hoprs
  obtain ⟨y, jobs'⟩ := r
  rcases run_jobs h with hhome | hopr
  · exact hhome.jobsGood hjobs
  · cases hopr with
    | run J hp => exact jobsGood_update hjobs trivial
    | ret J v rest hp hstack =>
      have hpoint := hx.point
      rw [hp, hstack] at hpoint
      exact jobsGood_update hjobs (hpoint v (.ret v))
    | ended J hp =>
      rw [hp] at hoprs
      have hph : (jobs J).phase = .ran w := (hoprs (J, .ran w) List.mem_cons_self).1
      have hran := hjobs J
      rw [Job.Good, hph] at hran
      exact jobsGood_update hjobs hran

end
end

/-! ## Runs -/

section
variable [DecidableEq W] [Inhabited V] {w : W} {s s' : State W V} {main : W → Option (Code V)}

/-- All workers only return values they should. -/
structure Sound (main : W → Option (Code V)) (s : State W V) : Prop where
  workers : ∀ v, (s.workers v).Good (fun u => ∀ c, main v = some c → Evals c u) s.jobs
  jobs : JobsGood s.jobs

/-- A worker has moved. -/
theorem Sound.set (h : Sound main s) (hinv : s.Inv) {r : Worker W V × Jobs W V}
    (hothers : Others w (s.workers w).frames s.jobs r.2)
    (hr : r.1.Good (fun u => ∀ c, main w = some c → Evals c u) r.2) (hjobs : JobsGood r.2) :
    Sound main (s.set w r) where
  workers v := by
    by_cases hv : v = w
    · subst hv
      rw [State.set_self]
      exact hr
    · rw [State.set_ne w s hv]
      refine (h.workers v).congr fun J hJ => ?_
      obtain ⟨hph, -⟩ := (hinv.workers v).owner_ne hJ
      rcases hothers J with he | ⟨-, hno⟩ | ⟨-, -, hrun⟩
      · exact congrArg Job.run he
      · exact absurd (by rw [hph]; rfl) (hno v)
      · exact hrun
  jobs := hjobs

/-- The start of a job changes no stack. -/
theorem Sound.start (h : Sound main s) {v : W} {d : List (JobId W)} {J : JobId W} :
    Sound main ((s.setDeque v d).start w J) where
  workers u := by
    have hgood : (s.workers u).Good (fun v => ∀ c, main u = some c → Evals c v)
        (Function.update s.jobs J ((s.jobs J).move (.taken w))) :=
      (h.workers u).congr fun X _ => update_run_eq (by rfl) X
    show Worker.Good _ (Function.update s.jobs J ((s.jobs J).move (.taken w)))
      (((s.setDeque v d).start w J).workers u)
    rw [State.start]
    by_cases hu : u = w
    · subst hu
      rw [State.set_self, State.setDeque_workers]
      exact ⟨hgood.below, trivial⟩
    · rw [State.set_ne w _ hu, State.setDeque_workers]
      exact ⟨hgood.below, hgood.point⟩
  jobs := jobsGood_update h.jobs trivial

theorem step_sound (h : Sound main s) (hinv : s.Inv) (hstep : s.Step s') : Sound main s' := by
  obtain ⟨l, hstep⟩ := hstep
  rcases State.step_cases hstep with ⟨w, n, r, hr, rfl⟩ | ⟨w, rfl⟩ | ⟨w, v, d, J, -, rfl, -⟩
  · have hkept := run_kept (hinv.slots w) (hinv.workers w) hr
    exact h.set hinv hkept.others
      (run_good (hinv.slots w) (hinv.workers w) (h.workers w) h.jobs hr)
      (run_jobsGood (hinv.workers w) (h.workers w) h.jobs hr)
  · have hkept := heartbeat_kept (hinv.slots w) (hinv.workers w)
    exact h.set hinv hkept.others
      ((h.workers w).heartbeat.congr fun J hJ =>
        heartbeat_atHome.run_eq (hkept.ok.owner_ne hJ).2) (heartbeat_atHome.jobsGood h.jobs)
  · exact h.start

theorem reachable_sound (hrun : Relation.ReflTransGen State.Step (State.init main) s) :
    Sound main s := by
  induction hrun with
  | refl =>
    refine ⟨fun v => ?_, fun _ => trivial⟩
    show Worker.Good _ _ ⟨(main v).elim .sched .code, [], [], 0, false, 0, 0, 0⟩
    cases main v with
    | none => exact ⟨trivial, trivial⟩
    | some c => exact ⟨trivial, fun _ hu _ hc => Option.some.inj hc ▸ hu⟩
  | tail hrun hstep ih => exact step_sound ih (reachable_inv ⟨main, hrun⟩) hstep

/-- **The elision.** In every run, however the heartbeats fall and whoever steals, a program
that has returned has returned a value of its elision, and so has every stolen job that is
finished. -/
theorem elision (hrun : Relation.ReflTransGen State.Step (State.init main) s) :
    (∀ w c v, main w = some c → (s.workers w).stack = [] →
      (s.workers w).point = .code (.ret v) → Evals c v) ∧
    ∀ J, (s.jobs J).finished = true → Evals (s.jobs J).run (s.jobs J).sr := by
  have hsound := reachable_sound hrun
  refine ⟨fun w c v hmain hstack hp => ?_, fun J hdone => ?_⟩
  · have hpoint := (hsound.workers w).point
    rw [hp, hstack] at hpoint
    exact hpoint v (.ret v) c hmain
  · have hjob := hsound.jobs J
    rw [Job.finished] at hdone
    rw [Job.Good] at hjob
    cases hph : (s.jobs J).phase <;> rw [hph] at hdone hjob <;> cases hdone
    exact hjob

end

/-- `sporkRun`, and on to the end of the program. -/
def elisionRun : List (Label Bool) := sporkRun ++ [.run false 0]

/-- The state after `elisionRun`. -/
def elisionState : State Bool ℕ := (State.exec elisionRun (State.init sporkMain)).get (by rfl)

theorem elision_spork : (elisionState.workers false).point = .code (.ret 3) ∧
    Evals (.spork (.ret 1) (.ret 2) .ret .ret (fun br sr => .ret (br + sr)) .ret) 3 := by
  have hrun : Relation.ReflTransGen State.Step (State.init sporkMain) elisionState :=
    State.exec_steps (Option.some_get _).symm
  exact ⟨rfl, (elision hrun).1 false _ 3 rfl rfl rfl⟩

/-! ## Programs with one value -/

namespace Code

/-- The value of a program whose choices do not matter. -/
def elide : Code V → V
  | ret v => v
  | choose k => (k 0).elide
  | par _ _ k => k.elide
  | spork body _ unpr _ _ k => (k (unpr body.elide).elide).elide
  | parfor _ _ _ _ _ k => k.elide
  | scan _ _ _ _ _ k => k.elide

/-- Nothing that a program returns depends on the schedule: the continuations of `spork` make
the same of its results, and so do the ways to go on as the data decides. -/
def Uniform : Code V → Prop
  | ret _ => True
  | choose k => ∀ n, (k n).Uniform ∧ (k n).elide = (k 0).elide
  | par _ _ k => k.Uniform
  | spork body spwn unpr unst prom k =>
      let br := body.elide
      let u := (unpr br).elide
      body.Uniform ∧ spwn.Uniform ∧ (unpr br).Uniform ∧
      ((unst br).Uniform ∧ (unst br).elide = u) ∧
      ((prom br spwn.elide).Uniform ∧ (prom br spwn.elide).elide = u) ∧ (k u).Uniform
  | parfor _ _ _ _ _ k => k.Uniform
  | scan _ _ _ _ _ k => k.Uniform

end Code

/-- The elision of such a program has one value. -/
theorem Evals.eq_elide {c : Code V} {v : V} (h : Evals c v) (hc : c.Uniform) : v = c.elide := by
  induction h with
  | ret v => rfl
  | choose n hk ih => exact (ih (hc n).1).trans (hc n).2
  | par hL hR hk ihL ihR ih => exact ih hc
  | unpr hbody hunpr hk ihbody ihunpr ih =>
    obtain ⟨hb, -, hu, -, -, hk'⟩ := hc
    cases ihbody hb
    cases ihunpr hu
    exact ih hk'
  | unst hbody hunst hk ihbody ihunst ih =>
    obtain ⟨hb, -, -, ⟨hu, heq⟩, -, hk'⟩ := hc
    cases ihbody hb
    cases (ihunst hu).trans heq
    exact ih hk'
  | prom hbody hspwn hprom hk ihbody ihspwn ihprom ih =>
    obtain ⟨hb, hs, -, -, ⟨hu, heq⟩, hk'⟩ := hc
    cases ihbody hb
    cases ihspwn hs
    cases (ihprom hu).trans heq
    exact ih hk'
  | parfor a hbody hk ihbody ih => exact ih hc
  | scan a hbody hk ihbody ih => exact ih hc

/-- A call of `spork` that adds two numbers, on the first of two workers. -/
def sumMain : Bool → Option (Code ℕ)
  | false => some (.spork (.ret 1) (.ret 2) (fun br => .ret (br + 2)) (fun br => .ret (br + 2))
      (fun br sr => .ret (br + sr)) .ret)
  | true => none

/-- The state after `elisionRun`, from `sumMain`. -/
def sumState : State Bool ℕ := (State.exec elisionRun (State.init sumMain)).get (by rfl)

end Spork.Scheduler
