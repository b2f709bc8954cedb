import Spork.Scheduler.Machine

/-!
# The frame of a call

What a frame says about its own jobs, at every place of the call: which it has enqueued and
not come back for, in which phase they are, and for `par` and `spork` what the call has run
so far. A lemma for each step of a call says that its frame keeps this up.

## Main definitions

* `Place`, `Pc.place`, `Sus.place` — what is left of a call.
* `ParHist`, `SporkHist` — what `par` and `spork` have run.
* `FrameOk` — the invariant of a frame.
* `FrameOk.enter`, `FrameOk.prom`, `FrameOk.resume`, `FrameOk.after`, … — the step lemmas.
-/
namespace Spork.Scheduler

variable {W V : Type}

/-! ## Phases -/

namespace Phase

/-- A thief has the job, or has run it. -/
def Stolen : Phase W → Prop
  | .taken _ | .running _ | .ran _ | .done _ => True
  | _ => False

/-- Enqueued, and neither taken back nor done. -/
def Live : Phase W → Prop
  | .queued | .taken _ | .running _ | .ran _ => True
  | _ => False

/-- The thief `u` has the job. -/
def RunBy (u : W) : Phase W → Prop
  | .taken v | .running v | .ran v => v = u
  | _ => False

/-- Run by its owner or, to the end, by a thief. -/
def Joined : Phase W → Prop
  | .cloned | .done _ => True
  | _ => False

theorem RunBy.stolen {u : W} {ph : Phase W} (h : ph.RunBy u) : ph.Stolen := by
  cases ph <;> trivial

theorem RunBy.live {u : W} {ph : Phase W} (h : ph.RunBy u) : ph.Live := by
  cases ph <;> trivial

end Phase

/-! ## Places -/

/-- What is left of a call. -/
inductive Place (W V : Type)
  /-- The promotion function is about to run. -/
  | promoting
  | before
  | inside
  | closing
  | rest (ops : List (Op V))
  /-- The owner has taken `J` back, to run it. -/
  | clones (J : JobName) (ph : Phase W) (ops : List (Op V))
  /-- The owner has found that `J` is stolen. -/
  | waits (J : JobName) (next : V → List (Op V))

/-- What is left of a call that runs code of the library. -/
def Pc.place : Pc V → Place W V
  | .ctor | .check | .save | .disable _ | .retest _ | .dec _ | .setPromoted _ => .before
  | .restore _ | .body => .before
  | .prom _ => .promoting
  | .close | .closed => .closing
  | .act ops => .rest ops
  | .reclaim J ops | .reclaimed J _ ops | .clone J ops => .clones J .popped ops
  | .finished J next => .waits J next

/-- What is left of a call below other code. -/
def Sus.place : Sus V → Place W V
  | .inBody => .inside
  | .inCall ops => .rest ops
  | .inClone J ops => .clones J .cloning ops
  | .waiting J next => .waits J next

/-! ## The invariant of a frame -/

/-- What `par` has run, and with `j` for its job `jp`. -/
def ParHist (lamR : Code V) (promoted : Bool) (h : List (Entry V)) (j : Job W V) :
    Place W V → Prop
  | .promoting | .before => h = []
  | .inside => h = [.body]
  | .closing => ∃ v, h = [.body, .returned v]
  | .rest ops => ∃ v,
      (promoted = false ∧ h = [.body, .returned v] ∧ ops = [.call .lamR lamR]) ∨
      (promoted = false ∧ h = [.body, .returned v, .lamR] ∧ ops = []) ∨
      (promoted = true ∧ h = [.body, .returned v] ∧ ops = [.sync .jp false]) ∨
      (promoted = true ∧ h = [.body, .returned v] ∧ ops = [] ∧ j.phase.Joined)
  | .clones J _ ops => ∃ v, promoted = true ∧ h = [.body, .returned v] ∧ J = .jp ∧ ops = []
  | .waits J next => ∃ v, promoted = true ∧ h = [.body, .returned v] ∧ J = .jp ∧ next = fun _ => []

/-- What `spork` has run, and with `j` for its job `jp`. -/
def SporkHist (unpr unst : V → Code V) (prom : V → V → Code V) (br : V) (promoted : Bool)
    (h : List (Entry V)) (j : Job W V) : Place W V → Prop
  | .promoting | .before => h = []
  | .inside => h = [.body]
  | .closing => h = [.body, .returned br]
  | .rest ops =>
      (promoted = false ∧ h = [.body, .returned br] ∧ ops = [.call (.unpr br) (unpr br)]) ∨
      (promoted = false ∧ h = [.body, .returned br, .unpr br] ∧ ops = []) ∨
      (promoted = true ∧ h = [.body, .returned br] ∧ ops =
        [.sync_is_stolen .jp (.unst br, unst br) fun sr => (.prom br sr, prom br sr)]) ∨
      (promoted = true ∧ h = [.body, .returned br] ∧ ops = [.call (.unst br) (unst br)] ∧
        j.phase = .popped) ∨
      (promoted = true ∧ h = [.body, .returned br, .unst br] ∧ ops = [] ∧ j.phase = .popped) ∨
      (promoted = true ∧ h = [.body, .returned br] ∧
        ops = [.call (.prom br j.sr) (prom br j.sr)] ∧ j.finished = true) ∨
      (promoted = true ∧ h = [.body, .returned br, .prom br j.sr] ∧ ops = [] ∧
        j.finished = true)
  | .clones _ _ _ => False
  | .waits J next => promoted = true ∧ h = [.body, .returned br] ∧ J = .jp ∧
      next = fun sr => [.call (.prom br sr) (prom br sr)]

/-- What a call has run. -/
def Hist (promoted : Bool) (h : List (Entry V)) (j : Job W V) (p : Place W V) : Call V → Prop
  | .par _ lamR => ParHist lamR promoted h j p
  | .spork _ _ unpr unst prom br => SporkHist unpr unst prom br promoted h j p
  | _ => True

section
variable (w : W) (jobs : Jobs W V) (f : Frame V)

/-- The jobs that a call has enqueued and not come back for, at each place. -/
def PlaceOk : Place W V → Prop
  | .promoting => f.promoted = true ∧ f.call.Inv false f.pend
  | .before | .inside => f.call.Inv f.promoted f.pend
  | .closing => f.call.Inv f.promoted f.pend ∧ f.call.Over
  | .rest ops => f.pend = joins ops
  | .clones J ph ops => f.promoted = true ∧ f.pend = joins ops ∧
      (jobs (f.job w J)).phase = ph ∧ ¬ ph.Live
  | .waits J next => f.promoted = true ∧ (∀ sr, f.pend = J :: joins (next sr)) ∧
      (jobs (f.job w J)).phase.Stolen

/-- The invariant of a frame of the worker `w`. -/
structure FrameOk (p : Place W V) : Prop where
  /-- An unpromoted call has enqueued nothing. -/
  pend : f.promoted = false → f.pend = []
  /-- Before its promotion none of its jobs has been enqueued. -/
  idle : f.promoted = false ∨ p = .promoting → ∀ J, (jobs (f.job w J)).phase = .idle
  place : PlaceOk w jobs f p
  spwn : f.promoted = true → p ≠ .promoting → ∀ c, f.call.spwn = some c →
    (jobs (f.job w .jp)).run = c
  hist : Hist f.promoted f.history (jobs (f.job w .jp)) p f.call

end

/-! ## Frames that do not move -/

/-- What others may do to a job: take it from the deque, and go on with it. -/
def Job.Keeps (j j' : Job W V) : Prop :=
  j' = j ∨ (j.phase.Live ∧ j'.phase.Stolen ∧ j'.run = j.run)

namespace Job.Keeps

variable {j j' : Job W V}

theorem refl (j : Job W V) : j.Keeps j := .inl rfl

theorem eq_of_not_live (h : j.Keeps j') (hj : ¬ j.phase.Live) : j' = j :=
  h.resolve_right fun hl => hj hl.1

theorem stolen (h : j.Keeps j') (hj : j.phase.Stolen) : j'.phase.Stolen := by
  rcases h with rfl | ⟨-, hs, -⟩
  · exact hj
  · exact hs

theorem live (h : j.Keeps j') (hj : j'.phase.Live) : j.phase.Live := by
  rcases h with rfl | ⟨hl, -, -⟩
  · exact hj
  · exact hl

theorem run (h : j.Keeps j') : j'.run = j.run := by
  rcases h with rfl | ⟨-, -, hr⟩
  · rfl
  · exact hr

end Job.Keeps

theorem Phase.Joined.not_live {ph : Phase W} (h : ph.Joined) : ¬ ph.Live := by
  cases ph <;> first | exact h.elim | exact fun hl => hl

theorem Job.finished.joined {j : Job W V} (h : j.finished = true) : j.phase.Joined := by
  rw [Job.finished] at h
  cases hph : j.phase <;> rw [hph] at h <;> trivial

variable {w : W} {jobs jobs' : Jobs W V} {f f' : Frame V} {p p' : Place W V}

theorem Hist.keeps {promoted : Bool} {h : List (Entry V)} {j j' : Job W V} {call : Call V}
    (hh : Hist promoted h j p call) (hj : j.Keeps j') : Hist promoted h j' p call := by
  cases call with
  | par lamL lamR =>
    cases p with
    | rest ops =>
      obtain ⟨v, h₁ | h₂ | h₃ | h₄⟩ := hh
      · exact ⟨v, .inl h₁⟩
      · exact ⟨v, .inr (.inl h₂)⟩
      · exact ⟨v, .inr (.inr (.inl h₃))⟩
      · rw [hj.eq_of_not_live h₄.2.2.2.not_live]
        exact ⟨v, .inr (.inr (.inr h₄))⟩
    | _ => exact hh
  | spork body spwn unpr unst prom br =>
    cases p with
    | rest ops =>
      have hh' := hh
      rcases hh with h₁ | h₂ | h₃ | h₄ | h₅ | h₆ | h₇
      · exact .inl h₁
      · exact .inr (.inl h₂)
      · exact .inr (.inr (.inl h₃))
      · rw [hj.eq_of_not_live (h₄.2.2.2 ▸ fun hl => hl)]
        exact hh'
      · rw [hj.eq_of_not_live (h₅.2.2.2 ▸ fun hl => hl)]
        exact hh'
      · rw [hj.eq_of_not_live (Job.finished.joined h₆.2.2.2).not_live]
        exact hh'
      · rw [hj.eq_of_not_live (Job.finished.joined h₇.2.2.2).not_live]
        exact hh'
    | _ => exact hh
  | _ => trivial

/-- Only the jobs of a frame matter to it, and what thieves do with them does not. -/
theorem FrameOk.keeps (h : FrameOk w jobs f p)
    (hjobs : ∀ J, (jobs (f.job w J)).Keeps (jobs' (f.job w J))) : FrameOk w jobs' f p where
  pend := h.pend
  idle hp J := by
    have hidle := h.idle hp J
    rw [(hjobs J).eq_of_not_live (hidle ▸ fun hl => hl)]
    exact hidle
  place := by
    have hplace := h.place
    cases p with
    | clones J ph ops =>
      obtain ⟨hprom, hpend, hph, hns⟩ := hplace
      rw [← hph] at hns
      refine ⟨hprom, hpend, ?_⟩
      rw [(hjobs J).eq_of_not_live hns]
      exact ⟨hph, hph ▸ hns⟩
    | waits J next => exact ⟨hplace.1, hplace.2.1, (hjobs J).stolen hplace.2.2⟩
    | _ => exact hplace
  spwn hp hne c hc := (hjobs .jp).run.trans (h.spwn hp hne c hc)
  hist := h.hist.keeps (hjobs .jp)

/-! ## Opening and promotion -/

/-- A new frame. -/
theorem FrameOk.enter [Inhabited V] {c : Code V} {call : Call V} {k : V → Code V} {fid : ℕ}
    (h : Call.enter c = some (call, k)) (hidle : ∀ J, (jobs ⟨w, fid, J⟩).phase = .idle) :
    FrameOk w jobs ⟨fid, call, k, false, default, [], []⟩ .before where
  pend _ := rfl
  idle _ J := hidle J
  place := Call.enter_inv h
  spwn hp := by cases hp
  hist := by cases c <;> cases h <;> first | rfl | trivial

/-- A frame whose slot may be promoted. -/
def Place.Promotable : Place W V → Prop
  | .promoting | .before | .inside | .closing => True
  | _ => False

theorem Sus.promotable {sus : Sus V} (h : sus.isOpen = true) :
    (sus.place : Place W V).Promotable := by
  cases sus <;> trivial

theorem Pc.promotable {pc : Pc V} (h : pc.isOpen = true) :
    (pc.place : Place W V).Promotable := by
  cases pc <;> trivial

/-- Where a promotion leaves a call. -/
def Place.promoted : Place W V → Place W V
  | .promoting => .before
  | p => p

/-- Before its promotion a call has enqueued nothing. -/
theorem FrameOk.promotable (h : FrameOk w jobs f p) (hp : p.Promotable)
    (hun : f.promoted = false ∨ p = .promoting) : f.call.Inv false f.pend := by
  have hplace := h.place
  cases p with
  | promoting => exact hplace.2
  | before => exact (hun.resolve_right (by simp)) ▸ hplace
  | inside => exact (hun.resolve_right (by simp)) ▸ hplace
  | closing => exact (hun.resolve_right (by simp)) ▸ hplace.1
  | _ => cases hp

/-- The call of the promotion function. -/
theorem FrameOk.prom [Inhabited V] (h : FrameOk w jobs f p) (hp : p.Promotable)
    (hun : f.promoted = false ∨ p = .promoting)
    (hjobs : ∀ s ∈ f.call.promfn.2, (jobs' (f.job w s.name)).run = s.run) :
    FrameOk w jobs'
      { f with promoted := true, call := f.call.promfn.1, pend := Call.names f.call.promfn.2 }
      p.promoted := by
  have hinv := h.promotable hp hun
  refine ⟨fun hf => absurd hf (by simp), ?_, ?_, ?_, ?_⟩
  · intro hor
    cases p <;> rcases hor with hf | hf <;> cases hf
  · cases p with
    | closing => exact ⟨hinv.promfn, h.place.2.promfn⟩
    | rest => cases hp
    | clones => cases hp
    | waits => cases hp
    | _ => exact hinv.promfn
  · intro _ _ c hc
    rw [Call.spwn_promfn] at hc
    obtain ⟨t, ht⟩ := Call.promfn_spwn hc
    exact hjobs ⟨.jp, c, t⟩ (by rw [ht]; exact List.mem_singleton_self _)
  · have hhist := h.hist
    cases hcall : f.call with
    | par lamL lamR =>
      rw [hcall] at hhist
      cases p <;> first | exact hhist | cases hp
    | spork body spwn unpr unst prom br =>
      rw [hcall] at hhist
      cases p <;> first | exact hhist | cases hp
    | parfor factor j body binop c lr => trivial
    | scan n body first up rest c =>
      show Hist _ _ _ _ (Call.promfn _).1
      rcases Call.promfn_scan n body first up rest c with he | ⟨q, t, -, -, he⟩
      · rw [he]
        trivial
      · rw [he]
        trivial

/-! ## Steps of the body -/

theorem FrameOk.setPromoted (h : FrameOk w jobs f .before) (hun : f.promoted = false) :
    FrameOk w jobs { f with promoted := true } .promoting where
  pend hf := by cases hf
  idle _ := h.idle (.inl hun)
  place := ⟨rfl, hun ▸ h.place⟩
  spwn _ hne := absurd rfl hne
  hist := by
    have hhist := h.hist
    cases hcall : f.call <;> rw [hcall] at hhist <;> exact hhist

variable {call : Call V} {v : V} {ops : List (Op V)} {J : JobName}
  {next : V → List (Op V)}

theorem FrameOk.run_body (h : FrameOk w jobs f .before) :
    FrameOk w jobs { f with history := f.history ++ [.body] } .inside where
  pend := h.pend
  idle hp := h.idle (hp.imp_right fun he => by cases he)
  place := h.place
  spwn hp _ := h.spwn hp (by simp)
  hist := by
    have hhist := h.hist
    cases hcall : f.call with
    | par lamL lamR =>
      rw [hcall] at hhist
      exact congrArg (· ++ [Entry.body]) hhist
    | spork body spwn unpr unst prom br =>
      rw [hcall] at hhist
      exact congrArg (· ++ [Entry.body]) hhist
    | _ => trivial

theorem FrameOk.move (h : FrameOk w jobs f .before) (hnext : f.call.next = some (.move call)) :
    FrameOk w jobs { f with call := call } .before where
  pend := h.pend
  idle := h.idle
  place := Call.Inv.move h.place hnext
  spwn hp hne c hc := h.spwn hp hne c (by rw [← Call.spwn_move hnext]; exact hc)
  hist := by
    cases hcall : f.call with
    | par => rw [hcall] at hnext; cases hnext
    | spork => rw [hcall] at hnext; cases hnext
    | parfor =>
      rw [hcall] at hnext
      obtain ⟨c', -, rfl⟩ := Call.loopNext_move hnext
      trivial
    | scan =>
      rw [hcall] at hnext
      obtain ⟨c', -, rfl⟩ := Call.loopNext_move hnext
      trivial

theorem FrameOk.done (h : FrameOk w jobs f .before) (hnext : f.call.next = some .done) :
    FrameOk w jobs f .closing where
  pend := h.pend
  idle hp := h.idle (hp.imp_right fun he => by cases he)
  place := ⟨h.place, Call.next_done hnext⟩
  spwn hp _ := h.spwn hp (by simp)
  hist := by
    cases hcall : f.call with
    | par => rw [hcall] at hnext; cases hnext
    | spork => rw [hcall] at hnext; cases hnext
    | _ => trivial

theorem FrameOk.resume {ended : Bool} (h : FrameOk w jobs f .inside)
    (hres : f.call.resume v = some (call, ended)) :
    FrameOk w jobs { f with call := call, history := f.history ++ [.returned v] }
      (if ended then .closing else .before) where
  pend := h.pend
  idle hp := h.idle (hp.imp_right fun he => by cases ended <;> cases he)
  place := by
    have hinv := Call.Inv.resume h.place hres
    cases ended
    · exact hinv
    · exact ⟨hinv, Call.resume_over hres⟩
  spwn hp _ c hc := h.spwn hp (by simp) c (by rw [← Call.spwn_resume hres]; exact hc)
  hist := by
    have hhist := h.hist
    cases hcall : f.call with
    | par lamL lamR =>
      rw [hcall] at hhist hres
      cases hres
      exact ⟨v, congrArg (· ++ [Entry.returned v]) hhist⟩
    | spork body spwn unpr unst prom br =>
      rw [hcall] at hhist hres
      cases hres
      exact congrArg (· ++ [Entry.returned v]) hhist
    | parfor =>
      rw [hcall] at hres
      obtain ⟨c', -, he⟩ := Option.map_eq_some_iff.mp hres
      cases he
      trivial
    | scan =>
      rw [hcall] at hres
      obtain ⟨c', -, he⟩ := Option.map_eq_some_iff.mp hres
      cases he
      trivial

theorem FrameOk.after (h : FrameOk w jobs f .closing) (hops : f.call.after f.promoted = some ops) :
    FrameOk w jobs f (.rest ops) where
  pend := h.pend
  idle hp := h.idle (hp.imp_right fun he => by cases he)
  place := by
    obtain ⟨ops', hops', hj⟩ := h.place.1.after h.place.2
    obtain rfl := Option.some.inj (hops.symm.trans hops')
    exact hj.symm
  spwn hp _ := h.spwn hp (by simp)
  hist := by
    have hhist := h.hist
    cases hcall : f.call with
    | par lamL lamR =>
      rw [hcall] at hhist hops
      obtain ⟨v, hv⟩ := hhist
      cases hp : f.promoted <;> rw [hp] at hops <;> cases hops
      · exact ⟨v, .inl ⟨rfl, hv, rfl⟩⟩
      · exact ⟨v, .inr (.inr (.inl ⟨rfl, hv, rfl⟩))⟩
    | spork body spwn unpr unst prom br =>
      rw [hcall] at hhist hops
      cases hp : f.promoted <;> rw [hp] at hops <;> cases hops
      · exact .inl ⟨rfl, hhist, rfl⟩
      · exact .inr (.inr (.inl ⟨rfl, hhist, rfl⟩))
    | _ => trivial

/-! ## Steps after the slot -/

theorem FrameOk.result (h : FrameOk w jobs f p) (v : V) : FrameOk w jobs { f with res := v } p :=
  ⟨h.pend, h.idle, by
    have hplace := h.place
    cases p <;> exact hplace, h.spwn, h.hist⟩

theorem FrameOk.run_call {e : Entry V} (h : FrameOk w jobs f (.rest (.call e c :: ops))) :
    FrameOk w jobs { f with history := f.history ++ [e] } (.rest ops) where
  pend := h.pend
  idle hp := h.idle (hp.imp_right fun he => by cases he)
  place := h.place
  spwn hp _ := h.spwn hp (by simp)
  hist := by
    have hhist := h.hist
    cases hcall : f.call with
    | par lamL lamR =>
      rw [hcall] at hhist
      obtain ⟨v, ⟨hp, hh, ho⟩ | ⟨hp, hh, ho⟩ | ⟨hp, hh, ho⟩ | ⟨hp, hh, ho, hj⟩⟩ := hhist
      · cases ho
        exact ⟨v, .inr (.inl ⟨hp, congrArg (· ++ [Entry.lamR]) hh, rfl⟩)⟩
      · cases ho
      · cases ho
      · cases ho
    | spork body spwn unpr unst prom br =>
      rw [hcall] at hhist
      rcases hhist with ⟨hp, hh, ho⟩ | ⟨hp, hh, ho⟩ | ⟨hp, hh, ho⟩ | ⟨hp, hh, ho, hj⟩ |
        ⟨hp, hh, ho, hj⟩ | ⟨hp, hh, ho, hj⟩ | ⟨hp, hh, ho, hj⟩
      · cases ho
        exact .inr (.inl ⟨hp, congrArg (· ++ [Entry.unpr br]) hh, rfl⟩)
      · cases ho
      · cases ho
      · cases ho
        exact .inr (.inr (.inr (.inr (.inl ⟨hp, congrArg (· ++ [Entry.unst br]) hh, rfl, hj⟩))))
      · cases ho
      · cases ho
        exact .inr (.inr (.inr (.inr (.inr (.inr
          ⟨hp, congrArg (· ++ [Entry.prom br _]) hh, rfl, hj⟩)))))
      · cases ho
    | _ => trivial

/-- A step of a promoted call that comes back for its jobs. -/
theorem FrameOk.come_back (h : FrameOk w jobs f p) (l : List JobName) (hprom : f.promoted = true)
    (hp : p ≠ .promoting) (hp' : p' ≠ .promoting)
    (hrun : ∀ J, (jobs' (f.job w J)).run = (jobs (f.job w J)).run)
    (hplace : PlaceOk w jobs' { f with pend := l } p')
    (hhist : Hist f.promoted f.history (jobs' (f.job w .jp)) p' f.call) :
    FrameOk w jobs' { f with pend := l } p' where
  pend hf := absurd (hprom.symm.trans hf) (by simp)
  idle hor := by
    rcases hor with hf | hf
    · exact absurd (hprom.symm.trans hf) (by simp)
    · exact absurd hf hp'
  place := hplace
  spwn hpr _ c hc := (hrun .jp).trans (h.spwn hpr hp c hc)
  hist := hhist

theorem FrameOk.promoted_of_pend {nm : JobName} {l : List JobName} (h : FrameOk w jobs f p)
    (hpend : f.pend = nm :: l) : f.promoted = true := by
  by_contra hp
  rw [h.pend (Bool.eq_false_of_not_eq_true hp)] at hpend
  cases hpend

theorem update_phase [DecidableEq W] (jobs : Jobs W V) (X : JobId W) (j : Job W V) :
    (Function.update jobs X j X).phase = j.phase := by
  rw [Function.update_self]

theorem update_run [DecidableEq W] {X : JobId W} {j : Job W V} (hj : j.run = (jobs X).run)
    (Y : JobId W) : (Function.update jobs X j Y).run = (jobs Y).run := by
  by_cases h : Y = X
  · subst h
    rw [Function.update_self, hj]
  · rw [Function.update_of_ne h]

variable {b : Bool} {u : Entry V × Code V} {st : V → Entry V × Code V}

section
variable {lamR : Code V} {unpr unst : V → Code V} {prom : V → V → Code V} {br : V}
  {promoted : Bool} {hist : List (Entry V)} {j : Job W V}

/-- What `par` has run when it comes to its `sync`. -/
theorem ParHist.sync (h : ParHist lamR promoted hist j (.rest (.sync J b :: ops))) :
    ∃ v, promoted = true ∧ hist = [.body, .returned v] ∧ J = .jp ∧ ops = [] := by
  obtain ⟨v, ⟨-, -, ho⟩ | ⟨-, -, ho⟩ | ⟨hp, hh, ho⟩ | ⟨-, -, ho, -⟩⟩ := h
  · cases ho
  · cases ho
  · cases ho
    exact ⟨v, hp, hh, rfl, rfl⟩
  · cases ho

theorem ParHist.not_sync_is_stolen :
    ¬ ParHist lamR promoted hist j (.rest (.sync_is_stolen J u st :: ops)) := by
  intro h
  obtain ⟨v, ⟨-, -, ho⟩ | ⟨-, -, ho⟩ | ⟨-, -, ho⟩ | ⟨-, -, ho, -⟩⟩ := h <;> cases ho

theorem SporkHist.not_sync :
    ¬ SporkHist unpr unst prom br promoted hist j (.rest (.sync J b :: ops)) := by
  intro h
  rcases h with ⟨-, -, ho⟩ | ⟨-, -, ho⟩ | ⟨-, -, ho⟩ | ⟨-, -, ho, -⟩ | ⟨-, -, ho, -⟩ |
    ⟨-, -, ho, -⟩ | ⟨-, -, ho, -⟩ <;> cases ho

/-- What `spork` has run when it comes to its `sync_is_stolen`. -/
theorem SporkHist.sync_is_stolen
    (h : SporkHist unpr unst prom br promoted hist j (.rest (.sync_is_stolen J u st :: ops))) :
    promoted = true ∧ hist = [.body, .returned br] ∧ J = .jp ∧ u = (.unst br, unst br) ∧
      (st = fun sr => (.prom br sr, prom br sr)) ∧ ops = [] := by
  rcases h with ⟨-, -, ho⟩ | ⟨-, -, ho⟩ | ⟨hp, hh, ho⟩ | ⟨-, -, ho, -⟩ | ⟨-, -, ho, -⟩ |
    ⟨-, -, ho, -⟩ | ⟨-, -, ho, -⟩ <;> cases ho
  exact ⟨hp, hh, rfl, rfl, rfl, rfl⟩

end

/-- `sync`, on a job that has not been stolen. -/
theorem FrameOk.sync_popped [DecidableEq W] (h : FrameOk w jobs f (.rest (.sync J b :: ops))) :
    FrameOk w (Function.update jobs (f.job w J) ((jobs (f.job w J)).move .popped)) f.joined
      (.clones J .popped ops) := by
  have hpend : f.pend = J :: joins ops := h.place
  have hprom := h.promoted_of_pend hpend
  refine h.come_back f.pend.tail hprom (by simp) (by simp) ?_ ?_ ?_
  · intro J'
    apply update_run
    rfl
  · refine ⟨hprom, by rw [hpend]; rfl, ?_, fun hs => hs⟩
    exact update_phase ..
  · have hhist := h.hist
    cases hcall : f.call with
    | par lamL lamR =>
      rw [hcall] at hhist
      exact hhist.sync
    | spork body spwn unpr unst prom br =>
      rw [hcall] at hhist
      exact hhist.not_sync.elim
    | _ => trivial

/-- `sync`, on a job that has been stolen. -/
theorem FrameOk.sync_stolen (h : FrameOk w jobs f (.rest (.sync J b :: ops)))
    (hs : (jobs (f.job w J)).phase.Stolen) : FrameOk w jobs f (.waits J fun _ => ops) := by
  have hpend : f.pend = J :: joins ops := h.place
  have hprom := h.promoted_of_pend hpend
  refine h.come_back f.pend hprom (by simp) (by simp) (fun J' => rfl) ?_ ?_
  · exact ⟨hprom, fun _ => hpend, hs⟩
  · have hhist := h.hist
    cases hcall : f.call with
    | par lamL lamR =>
      rw [hcall] at hhist
      obtain ⟨v, hp, hh, rfl, rfl⟩ := hhist.sync
      exact ⟨v, hp, hh, rfl, rfl⟩
    | spork body spwn unpr unst prom br =>
      rw [hcall] at hhist
      exact hhist.not_sync.elim
    | _ => trivial

/-- `sync_is_stolen`, on a job that has not been stolen. -/
theorem FrameOk.is_stolen_popped [DecidableEq W]
    (h : FrameOk w jobs f (.rest (.sync_is_stolen J u st :: ops))) :
    FrameOk w (Function.update jobs (f.job w J) ((jobs (f.job w J)).move .popped)) f.joined
      (.rest (.call u.1 u.2 :: ops)) := by
  have hpend : f.pend = J :: joins ops := h.place
  have hprom := h.promoted_of_pend hpend
  refine h.come_back f.pend.tail hprom (by simp) (by simp) ?_ ?_ ?_
  · intro J'
    apply update_run
    rfl
  · show f.pend.tail = joins ops
    rw [hpend]
    rfl
  · have hhist := h.hist
    cases hcall : f.call with
    | par lamL lamR =>
      rw [hcall] at hhist
      exact hhist.not_sync_is_stolen.elim
    | spork body spwn unpr unst prom br =>
      rw [hcall] at hhist
      obtain ⟨hp, hh, rfl, rfl, -, rfl⟩ := hhist.sync_is_stolen
      refine .inr (.inr (.inr (.inl ⟨hp, hh, rfl, ?_⟩)))
      exact update_phase ..
    | _ => trivial

/-- `sync_is_stolen`, on a job that has been stolen. -/
theorem FrameOk.is_stolen_stolen (h : FrameOk w jobs f (.rest (.sync_is_stolen J u st :: ops)))
    (hs : (jobs (f.job w J)).phase.Stolen) :
    FrameOk w jobs f (.waits J fun sr => .call (st sr).1 (st sr).2 :: ops) := by
  have hpend : f.pend = J :: joins ops := h.place
  have hprom := h.promoted_of_pend hpend
  refine h.come_back f.pend hprom (by simp) (by simp) (fun J' => rfl) ?_ ?_
  · exact ⟨hprom, fun _ => hpend, hs⟩
  · have hhist := h.hist
    cases hcall : f.call with
    | par lamL lamR =>
      rw [hcall] at hhist
      exact hhist.not_sync_is_stolen.elim
    | spork body spwn unpr unst prom br =>
      rw [hcall] at hhist
      obtain ⟨hp, hh, rfl, -, rfl, rfl⟩ := hhist.sync_is_stolen
      exact ⟨hp, hh, rfl, rfl⟩
    | _ => trivial

/-- A stolen job is done. -/
theorem FrameOk.waited (h : FrameOk w jobs f (.waits J next))
    (hd : (jobs (f.job w J)).finished = true) :
    FrameOk w jobs f.joined (.rest (next (jobs (f.job w J)).sr)) := by
  obtain ⟨hprom, hpend, -⟩ := h.place
  refine h.come_back f.pend.tail hprom (by simp) (by simp) (fun J' => rfl) ?_ ?_
  · show f.pend.tail = _
    rw [hpend (jobs (f.job w J)).sr]
    rfl
  · have hhist := h.hist
    cases hcall : f.call with
    | par lamL lamR =>
      rw [hcall] at hhist
      obtain ⟨v, hp, hh, rfl, rfl⟩ := hhist
      exact ⟨v, .inr (.inr (.inr ⟨hp, hh, rfl, Job.finished.joined hd⟩))⟩
    | spork body spwn unpr unst prom br =>
      rw [hcall] at hhist
      obtain ⟨hp, hh, rfl, rfl⟩ := hhist
      exact .inr (.inr (.inr (.inr (.inr (.inl ⟨hp, hh, rfl, hd⟩)))))
    | _ => trivial

/-- `fast_clone` runs the job. -/
theorem FrameOk.clone_start [DecidableEq W] (h : FrameOk w jobs f (.clones J .popped ops)) :
    FrameOk w (Function.update jobs (f.job w J) ((jobs (f.job w J)).start .cloning)) f
      (.clones J .cloning ops) := by
  obtain ⟨hprom, hpend, -, -⟩ := h.place
  refine h.come_back f.pend hprom (by simp) (by simp) ?_ ?_ ?_
  · intro J'
    apply update_run
    rfl
  · refine ⟨hprom, hpend, ?_, fun hs => hs⟩
    exact update_phase ..
  · have hhist := h.hist
    cases hcall : f.call <;> rw [hcall] at hhist <;> exact hhist

/-- The job that `fast_clone` has run returns. -/
theorem FrameOk.clone_end [DecidableEq W] (h : FrameOk w jobs f (.clones J .cloning ops)) (v : V) :
    FrameOk w (Function.update jobs (f.job w J) ((jobs (f.job w J)).stop .cloned v)) f
      (.rest ops) := by
  obtain ⟨hprom, hpend, -, -⟩ := h.place
  refine h.come_back f.pend hprom (by simp) (by simp) ?_ ?_ ?_
  · intro J'
    apply update_run
    rfl
  · exact hpend
  · have hhist := h.hist
    cases hcall : f.call with
    | par lamL lamR =>
      rw [hcall] at hhist
      obtain ⟨x, hp, hh, rfl, rfl⟩ := hhist
      refine ⟨x, .inr (.inr (.inr ⟨hp, hh, rfl, ?_⟩))⟩
      rw [Function.update_self]
      trivial
    | spork =>
      rw [hcall] at hhist
      exact hhist.elim
    | _ => trivial

end Spork.Scheduler
