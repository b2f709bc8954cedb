import Spork.Scan.Code

/-!
# Calls of `par`, `spork`, `parfor_` and `scan`

The scheduler sees a program as a nest of calls: what it runs inline, when it may be
promoted, what its promotion function enqueues, and what it joins afterwards. What the
program computes besides is left open: a body may go on in any way that depends on its data.

Each call is given by the same parts: the steps of its body, its promotion function, and
what it does after its spork slot is closed. `Call.Inv` says which jobs a call has enqueued,
and `Call.Inv.after` that it comes back for exactly these, newest first.

Index arithmetic is exact in this module.

## Main definitions

* `Code`, `Op`, `Entry` — programs, what follows a slot, and the history of a call.
* `Call`, `Call.next`, `Call.resume`, `Call.promfn`, `Call.after` — the source.
* `Call.Inv` — the jobs a call has enqueued, and its step lemmas.
-/
namespace Spork.Scheduler

open CInt Parfor

/-- Programs over the library. Values are those of `spork`'s lambdas. -/
inductive Code (V : Type)
  | ret (v : V)
  /-- Go on as the data decides. -/
  | choose (k : ℕ → Code V)
  | par (lamL lamR k : Code V)
  | spork (body spwn : Code V) (unpr unst : V → Code V) (prom : V → V → Code V) (k : V → Code V)
  /-- `parfor_`, with the unroll factor of its loop. -/
  | parfor (factor i j : ℤ) (body : ℤ → Code V) (binop : Half → Code V) (k : Code V)
  /-- `scan`: the loop body, the scan of the first third, the upsweep, and what follows the
  `sync_is_stolen`, given the result of the upsweep if it was stolen. -/
  | scan (n : ℕ) (body first : ℤ → Code V) (up : Scan.Split → Code V)
      (rest : Option V → ℤ → Code V) (k : Code V)

/-- The job objects on the frames of the calls. -/
inductive JobName
  | jp
  | l
  | r
  | up
  deriving DecidableEq, Repr

/-- The job object of a half. -/
def halfName : Half → JobName
  | .l => .l
  | .r => .r

/-- What a call has run inline. -/
inductive Entry (V : Type)
  | body
  | returned (v : V)
  | lamR
  | unpr (br : V)
  | unst (br : V)
  | prom (br sr : V)
  | binop (h : Half)
  | first
  | rest
  deriving DecidableEq, Repr

/-- What a call does after its slot is closed. -/
inductive Op (V : Type)
  | call (e : Entry V) (c : Code V)
  | sync (J : JobName) (reclaim_tokens : Bool)
  /-- The branches on `sync_is_stolen`. -/
  | sync_is_stolen (J : JobName) (unstolen : Entry V × Code V) (stolen : V → Entry V × Code V)

/-- The job an operation joins. -/
def Op.joins {V : Type} : Op V → List JobName
  | .call _ _ => []
  | .sync J _ => [J]
  | .sync_is_stolen J _ _ => [J]

/-- The jobs that are joined, in order. -/
def joins {V : Type} (ops : List (Op V)) : List JobName := ops.flatMap Op.joins

@[simp] theorem joins_nil {V : Type} : joins ([] : List (Op V)) = [] := rfl

@[simp] theorem joins_cons {V : Type} (op : Op V) (ops : List (Op V)) :
    joins (op :: ops) = op.joins ++ joins ops := rfl

@[simp] theorem joins_append {V : Type} (ops ops' : List (Op V)) :
    joins (ops ++ ops') = joins ops ++ joins ops' := List.flatMap_append

/-- A call in progress: its lambdas and the locals that decide its course. -/
inductive Call (V : Type)
  | par (lamL lamR : Code V)
  | spork (body spwn : Code V) (unpr unst : V → Code V) (prom : V → V → Code V) (br : V)
  /-- The bounds of the jobs `l` and `r` are written by the promotion function. -/
  | parfor (factor j : ℤ) (body : ℤ → Code V) (binop : Half → Code V) (c : Loop)
      (lr : Option Promotion)
  | scan (n : ℕ) (body first : ℤ → Code V) (up : Scan.Split → Code V)
      (rest : Option V → ℤ → Code V) (c : Loop)

/-- The next step of a body. -/
inductive Next (V : Type)
  | call (c : Code V)
  | move (call : Call V)
  | done

/-- A job the promotion function enqueues: its `run` and the tokens it is given. -/
structure Spawn (V : Type) where
  name : JobName
  run : Code V
  with_tokens : UInt32 → UInt32

/-- The loop of `parfor_` and `scan`. -/
def loopNext {V : Type} (body : ℤ → Code V) (wrap : Loop → Call V) (c : Loop) : Option (Next V) :=
  match c.pc with
  | .body => some (.call (body c.vars.i))
  | .done => some .done
  | _ => (c.step .exact).map fun c => .move (wrap c)

/-- Over the exact integers the promotion lambda of `parfor_` enqueues the halves that it
gives work, `r` before `l`. -/
theorem promotion_enqueued (factor j : ℤ) (v : LoopVars) :
    ∃ p, promotion .exact factor j v = some p ∧ (v.loop_end = j → p.enqueued =
      (if p.r.i < p.r.j then [Half.r] else []) ++ (if p.l.i < p.l.j then [Half.l] else [])) := by
  set prom_i := v.sig_safe_i + factor with hprom
  set mid := prom_i + (v.loop_end - prom_i).tdiv 2 with hmid
  have heq : promotion .exact factor j v =
      if v.loop_end - v.sig_safe_i ≤ factor then some ⟨v.loop_end, ⟨0, 0⟩, ⟨0, 0⟩, []⟩
      else if prom_i ≥ mid then some ⟨prom_i, ⟨0, 0⟩, ⟨mid, j⟩, [.r]⟩
      else some ⟨prom_i, ⟨prom_i, mid⟩, ⟨mid, j⟩, [.r, .l]⟩ := rfl
  rw [heq]
  by_cases hrest : v.loop_end - v.sig_safe_i ≤ factor
  · exact ⟨_, if_pos hrest, fun _ => rfl⟩
  · have hdiv : (v.loop_end - prom_i).tdiv 2 = (v.loop_end - prom_i) / 2 :=
      Int.tdiv_eq_ediv_of_nonneg (by omega)
    have hlt : mid < v.loop_end := by omega
    rw [if_neg hrest]
    by_cases hle : prom_i ≥ mid
    · refine ⟨_, if_pos hle, fun hj => ?_⟩
      simp only [if_pos (hj ▸ hlt), lt_irrefl, if_false, List.append_nil]
    · refine ⟨_, if_neg hle, fun hj => ?_⟩
      simp only [if_pos (hj ▸ hlt), if_pos (not_le.mp hle), List.cons_append, List.nil_append]

theorem promotion_isSome (factor j : ℤ) (v : LoopVars) :
    (promotion .exact factor j v).isSome := by
  obtain ⟨p, hp, -⟩ := promotion_enqueued factor j v
  rw [hp]
  rfl

/-- The promotion lambda of `parfor_`, over the exact integers. -/
def parforProm (factor j : ℤ) (v : LoopVars) : Promotion :=
  (promotion .exact factor j v).get (promotion_isSome factor j v)

theorem parforProm_enqueued {factor j : ℤ} {v : LoopVars} (hj : v.loop_end = j) :
    (parforProm factor j v).enqueued =
      (if (parforProm factor j v).r.i < (parforProm factor j v).r.j then [Half.r] else []) ++
      (if (parforProm factor j v).l.i < (parforProm factor j v).l.j then [Half.l] else []) := by
  obtain ⟨p, hp, henq⟩ := promotion_enqueued factor j v
  have hprom : parforProm factor j v = p := Option.get_of_eq_some _ hp
  rw [hprom]
  exact henq hj

/-- The tokens a promotion of `parfor_` gives a half, of those it finds. -/
def halfTokens : Half → UInt32 → UInt32
  | .l => fun t => t
  | .r => fun t => (t + 1) >>> 1

/-- The loop with another bound. -/
def setEnd (c : Loop) (e : ℤ) : Loop := { c with vars := { c.vars with loop_end := e } }

/-- The joins of `parfor_` after a promotion. -/
def parforJoins {V : Type} (binop : Half → Code V) (p : Promotion) : List (Op V) :=
  (if p.l.i < p.l.j then [.sync .l true, .call (.binop .l) (binop .l)] else []) ++
  (if p.r.i < p.r.j then [.sync .r false, .call (.binop .r) (binop .r)] else [])

namespace Call

variable {V : Type}

/-- The body. -/
def next : Call V → Option (Next V)
  | par lamL _ => some (.call lamL)
  | spork body _ _ _ _ _ => some (.call body)
  | parfor factor j body binop c lr =>
      loopNext body (fun c => parfor factor j body binop c lr) c
  | scan n body first up rest c => loopNext body (fun c => scan n body first up rest c) c

/-- The body of `par` and `spork`, or an iteration of a loop, has returned `v`. The flag says
that the body is over. -/
def resume (v : V) : Call V → Option (Call V × Bool)
  | par lamL lamR => some (par lamL lamR, true)
  | spork body spwn unpr unst prom _ => some (spork body spwn unpr unst prom v, true)
  | parfor factor j body binop c lr =>
      (c.step .exact).map fun c => (parfor factor j body binop c lr, false)
  | scan n body first up rest c =>
      (c.step .exact).map fun c => (scan n body first up rest c, false)

/-- The promotion function. -/
def promfn [Inhabited V] : Call V → Call V × List (Spawn V)
  | par lamL lamR => (par lamL lamR, [⟨.jp, lamR, fun t => t >>> 1⟩])
  | spork body spwn unpr unst prom br =>
      (spork body spwn unpr unst prom br, [⟨.jp, spwn, fun t => t >>> 1⟩])
  | parfor factor j body binop c _ =>
      let p := parforProm factor j c.vars
      (parfor factor j body binop (setEnd c p.loop_end) (some p), p.enqueued.map fun h =>
        ⟨halfName h, .parfor factor (p.job h).i (p.job h).j body binop (.ret default),
          halfTokens h⟩)
  | scan n body first up rest c =>
      match Scan.promotion n c.vars.sig_safe_i with
      | some p => (scan n body first up rest (setEnd c p.prom_i),
          [⟨.up, up p, fun t => (t + 1) >>> 1⟩])
      | none => (scan n body first up rest c, [])

/-- What follows the slot, given its `promoted`; `none` is a read of an uninitialised job. -/
def after (promoted : Bool) : Call V → Option (List (Op V))
  | par _ lamR => some (if promoted then [.sync .jp false] else [.call .lamR lamR])
  | spork _ _ unpr unst prom br => some <|
      if promoted then
        [.sync_is_stolen .jp (.unst br, unst br) fun sr => (.prom br sr, prom br sr)]
      else [.call (.unpr br) (unpr br)]
  | parfor _ _ _ binop _ lr => if promoted then lr.map (parforJoins binop) else some []
  | scan n _ first _ rest c => some <|
      if promoted ∧ c.vars.i ≠ n then
        [.call .first (first c.vars.i),
          .sync_is_stolen .up (.rest, rest none c.vars.i) fun up => (.rest, rest (some up) c.vars.i)]
      else []

/-- The `run` of the job `jp`. -/
def spwn : Call V → Option (Code V)
  | par _ lamR => some lamR
  | spork _ spwn _ _ _ _ => some spwn
  | _ => none

/-- The names of the jobs that a call has enqueued, newest first, given `promoted`. -/
def Inv (promoted : Bool) (pend : List JobName) : Call V → Prop
  | par _ _ => pend = if promoted then [.jp] else []
  | spork _ _ _ _ _ _ => pend = if promoted then [.jp] else []
  | parfor _ j _ binop c lr =>
      if promoted then ∃ p, lr = some p ∧ pend = joins (parforJoins binop p)
      else pend = [] ∧ c.vars.loop_end = j
  | scan n _ _ _ _ c => c.Ok .exact 0 ∧
      ((pend = [] ∧ c.vars.loop_end = n) ∨
        (promoted = true ∧ pend = [.up] ∧ c.vars.loop_end < n))

/-- The body is over. -/
def Over : Call V → Prop
  | scan _ _ _ _ _ c => c.pc = .done
  | _ => True

/-- Start of a call, and what follows its return. -/
def enter [Inhabited V] : Code V → Option (Call V × (V → Code V))
  | .ret _ => none
  | .choose _ => none
  | .par lamL lamR k => some (par lamL lamR, fun _ => k)
  | .spork body spwn unpr unst prom k => some (spork body spwn unpr unst prom default, k)
  | .parfor factor i j body binop k =>
      some (parfor factor j body binop (Loop.enter .exact i j) none, fun _ => k)
  | .scan n body first up rest k =>
      some (scan n body first up rest (Loop.enter .exact 0 n), fun _ => k)

/-! ## The loop -/

theorem step_exact {c c' : Loop} (h : c.step .exact = some c') :
    c'.vars.loop_end = c.vars.loop_end := by
  obtain ⟨⟨i, s, e⟩, pc⟩ := c
  cases pc <;> simp only [Loop.step, Arith.exact, Option.map_some, Option.some.injEq] at h <;>
    subst h <;> rfl

theorem step_ok {c c' : Loop} (hc : c.Ok .exact 0) (h : c.step .exact = some c') :
    c'.Ok .exact 0 := by
  obtain ⟨c'', hstep, hok, -⟩ :=
    Loop.step_spec (Arith.exact_faithfulOn 0 c.vars.loop_end) hc le_rfl
  obtain rfl := Option.some.inj (hstep.symm.trans h)
  exact hok

theorem loopNext_move {body : ℤ → Code V} {wrap : Loop → Call V} {c : Loop} {call : Call V}
    (h : loopNext body wrap c = some (.move call)) :
    ∃ c', c.step .exact = some c' ∧ call = wrap c' := by
  cases hpc : c.pc
  case body => simp [loopNext, hpc] at h
  case done => simp [loopNext, hpc] at h
  all_goals
    simp only [loopNext, hpc] at h
    obtain ⟨c', hc, he⟩ := Option.map_eq_some_iff.mp h
    exact ⟨c', hc, (Next.move.inj he).symm⟩

theorem loopNext_done {body : ℤ → Code V} {wrap : Loop → Call V} {c : Loop}
    (h : loopNext body wrap c = some .done) : c.pc = .done := by
  cases hpc : c.pc
  case done => rfl
  all_goals simp [loopNext, hpc] at h

/-! ## The jobs a call has enqueued -/

variable {call call' : Call V} {promoted : Bool} {pend : List JobName} {v : V}

theorem enter_inv [Inhabited V] {c : Code V} {k : V → Code V} (h : enter c = some (call, k)) :
    call.Inv false [] := by
  cases c <;> cases h
  case par => rfl
  case spork => rfl
  case parfor => exact ⟨rfl, rfl⟩
  case scan n body first up rest k =>
    exact ⟨Loop.ok_enter (Int.natCast_nonneg n), .inl ⟨rfl, rfl⟩⟩

theorem Inv.pend_nil (h : call.Inv false pend) : pend = [] := by
  cases call with
  | par => exact h
  | spork => exact h
  | parfor => exact h.1
  | scan =>
    rcases h.2 with ⟨hp, -⟩ | ⟨hp, -⟩
    · exact hp
    · cases hp

theorem Inv.move (h : call.Inv promoted pend) (hnext : call.next = some (.move call')) :
    call'.Inv promoted pend := by
  cases call with
  | par => cases hnext
  | spork => cases hnext
  | parfor factor j body binop c lr =>
    obtain ⟨c', hc, rfl⟩ := loopNext_move hnext
    simpa only [Inv, step_exact hc] using h
  | scan n body first up rest c =>
    obtain ⟨c', hc, rfl⟩ := loopNext_move hnext
    exact ⟨step_ok h.1 hc, by simpa only [step_exact hc] using h.2⟩

theorem Inv.resume {ended : Bool} (h : call.Inv promoted pend)
    (hres : call.resume v = some (call', ended)) : call'.Inv promoted pend := by
  cases call with
  | par => cases hres; exact h
  | spork => cases hres; exact h
  | parfor factor j body binop c lr =>
    obtain ⟨c', hc, he⟩ := Option.map_eq_some_iff.mp hres
    cases he
    simpa only [Inv, step_exact hc] using h
  | scan n body first up rest c =>
    obtain ⟨c', hc, he⟩ := Option.map_eq_some_iff.mp hres
    cases he
    exact ⟨step_ok h.1 hc, by simpa only [step_exact hc] using h.2⟩

theorem next_done (h : call.next = some .done) : call.Over := by
  cases call with
  | scan => exact loopNext_done h
  | _ => trivial

theorem resume_over (h : call.resume v = some (call', true)) : call'.Over := by
  cases call with
  | par => cases h; trivial
  | spork => cases h; trivial
  | parfor =>
    obtain ⟨c', -, he⟩ := Option.map_eq_some_iff.mp h
    cases he
  | scan =>
    obtain ⟨c', -, he⟩ := Option.map_eq_some_iff.mp h
    cases he

/-- The names of spawned jobs, newest first. -/
def names (sp : List (Spawn V)) : List JobName := (sp.map Spawn.name).reverse

theorem scanPromotion_some {n s : ℤ} {p : Scan.Split} (h : Scan.promotion n s = some p) :
    p.prom_i = s + 5 ∧ p.prom_i < n := by
  unfold Scan.promotion at h
  simp only at h
  split at h
  · next hlt =>
    cases h
    exact ⟨rfl, hlt.1.trans (hlt.2.1.trans hlt.2.2)⟩
  · cases h

/-- A promotion of `scan` leaves the loop alone, or lowers its bound and enqueues `up`. -/
theorem promfn_scan [Inhabited V] (n : ℕ) (body first : ℤ → Code V) (up : Scan.Split → Code V)
    (rest : Option V → ℤ → Code V) (c : Loop) :
    promfn (scan n body first up rest c) = (scan n body first up rest c, []) ∨
    ∃ p t, p.prom_i = c.vars.sig_safe_i + 5 ∧ p.prom_i < (n : ℤ) ∧
      promfn (scan n body first up rest c) =
        (scan n body first up rest (setEnd c p.prom_i), [⟨.up, up p, t⟩]) := by
  cases hp : Scan.promotion n c.vars.sig_safe_i with
  | none => exact .inl (by simp only [promfn, hp])
  | some p =>
    obtain ⟨hprom, hlt⟩ := scanPromotion_some hp
    exact .inr ⟨p, fun t => (t + 1) >>> 1, hprom, hlt, by simp only [promfn, hp]⟩

/-- The promotion function enqueues the jobs that a promoted call has enqueued. -/
theorem Inv.promfn [Inhabited V] (h : call.Inv false pend) :
    call.promfn.1.Inv true (names call.promfn.2) := by
  cases call with
  | par => rfl
  | spork => rfl
  | parfor factor j body binop c lr =>
    obtain ⟨-, hj⟩ := h
    refine ⟨_, rfl, ?_⟩
    simp only [Call.promfn, names, List.map_map, Function.comp_def, parforProm_enqueued hj,
      parforJoins, joins_append]
    split_ifs <;> rfl
  | scan n body first up rest c =>
    obtain ⟨hok, hend⟩ := h
    have hend : c.vars.loop_end = n := by
      rcases hend with ⟨-, he⟩ | ⟨hp, -⟩
      · exact he
      · cases hp
    rcases promfn_scan n body first up rest c with he | ⟨p, t, hprom, hlt, he⟩
    · rw [he]
      exact ⟨hok, .inl ⟨rfl, hend⟩⟩
    · have hpub : c.vars.sig_safe_i = c.published := hok.progress
      have hlow := hok.lower (K := 5) (by norm_num) (by omega)
      rw [he]
      refine ⟨?_, .inr ⟨rfl, rfl, hlt⟩⟩
      rw [hprom, hpub]
      exact hlow

theorem Over.promfn [Inhabited V] (h : call.Over) : call.promfn.1.Over := by
  cases call with
  | par => trivial
  | spork => trivial
  | parfor => trivial
  | scan n body first up rest c =>
    rcases promfn_scan n body first up rest c with he | ⟨p, t, -, -, he⟩ <;> rw [he] <;> exact h

/-- A call comes back for the jobs it has enqueued, newest first. -/
theorem Inv.after (h : call.Inv promoted pend) (hover : call.Over) :
    ∃ ops, call.after promoted = some ops ∧ joins ops = pend := by
  cases call with
  | par => cases promoted <;> exact ⟨_, rfl, h.symm⟩
  | spork => cases promoted <;> exact ⟨_, rfl, h.symm⟩
  | parfor factor j body binop c lr =>
    cases promoted
    · exact ⟨_, rfl, h.1.symm⟩
    · obtain ⟨p, rfl, hp⟩ := h
      exact ⟨_, rfl, hp.symm⟩
  | scan n body first up rest c =>
    obtain ⟨hok, hend⟩ := h
    have hi : c.vars.i = c.vars.loop_end := hok.at_done hover
    rcases hend with ⟨rfl, he⟩ | ⟨rfl, rfl, he⟩
    · have hn : ¬ (promoted = true ∧ c.vars.i ≠ n) := fun hn => hn.2 (hi.trans he)
      exact ⟨_, rfl, by rw [if_neg hn]; rfl⟩
    · have hn : true = true ∧ c.vars.i ≠ n := ⟨rfl, by omega⟩
      exact ⟨_, rfl, by rw [if_pos hn]; rfl⟩

/-- An unpromoted call has nothing to join. -/
theorem after_unpromoted {ops : List (Op V)} (h : call.after false = some ops) :
    joins ops = [] := by
  cases call with
  | scan n body first up rest c =>
    have hops : ops = [] := by simpa [Call.after] using h.symm
    exact hops ▸ rfl
  | _ => cases h; rfl

theorem names_nodup [Inhabited V] (h : call.Inv false pend) : (names call.promfn.2).Nodup := by
  have hinv := h.promfn
  cases call with
  | par => simp [names, Call.promfn]
  | spork => simp [names, Call.promfn]
  | parfor factor j body binop c lr =>
    simp only [Call.promfn, names, List.map_map, Function.comp_def, parforProm_enqueued h.2]
    split_ifs <;> simp [halfName]
  | scan n body first up rest c =>
    rcases promfn_scan n body first up rest c with he | ⟨p, t, -, -, he⟩ <;> simp [he, names]

/-! ## The job of `par` and of `spork` -/

theorem spwn_move (h : call.next = some (.move call')) : call'.spwn = call.spwn := by
  cases call with
  | par => cases h
  | spork => cases h
  | parfor =>
    obtain ⟨c', -, rfl⟩ := loopNext_move h
    rfl
  | scan =>
    obtain ⟨c', -, rfl⟩ := loopNext_move h
    rfl

theorem spwn_resume {ended : Bool} (h : call.resume v = some (call', ended)) :
    call'.spwn = call.spwn := by
  cases call with
  | par => cases h; rfl
  | spork => cases h; rfl
  | parfor =>
    obtain ⟨c', -, he⟩ := Option.map_eq_some_iff.mp h
    cases he
    rfl
  | scan =>
    obtain ⟨c', -, he⟩ := Option.map_eq_some_iff.mp h
    cases he
    rfl

theorem spwn_promfn [Inhabited V] : call.promfn.1.spwn = call.spwn := by
  cases call with
  | scan n body first up rest c =>
    rcases promfn_scan n body first up rest c with he | ⟨p, t, -, -, he⟩
    · rw [he]
    · rw [he]
      rfl
  | _ => rfl

theorem promfn_spwn [Inhabited V] {c : Code V} (h : call.spwn = some c) :
    ∃ t, call.promfn.2 = [⟨.jp, c, t⟩] := by
  cases call with
  | par => cases h; exact ⟨_, rfl⟩
  | spork => cases h; exact ⟨_, rfl⟩
  | parfor => cases h
  | scan => cases h

end Call
end Spork.Scheduler
