import Spork.Parfor.Promotion
import Spork.Unroll.FormBatchedLoop

/-!
# The batched loop and the jobs of its promotion

The bound of a loop of `parfor_` is lowered by its promotion lambda, which gives what lies beyond
the bound to two jobs. Here the lambda runs against the code that the rewriting makes of the loop,
between any two of its blocks, in the arithmetic of the index type and with the factor that has
been published. It lowers the bound as `FormBatchedLoop.handler` does, and the loop stops where
the jobs start.

## Main definitions

* `State`, `step`, `handler` — the rewritten loop in `parfor_`.
* `promotion_eq_split`, `handler_code` — what the lambda does to the loop.
* `Inv`, `certificate` — what holds in every run.
* `batched_partition` — the loop and the jobs partition the range.
-/
namespace Spork.Unroll.Handoff

open CInt LLVM Parfor Interrupt IntRange
open FormBatchedLoop (LoopProtocol Env Sim SporkMaxBatch)

/-- The index type of `parfor_`, by the predicate that its loop compares with. -/
def indexTy : Pred → IntTy
  | .slt => .int
  | .ult => .uint32

variable {m : ℕ} {V M D X : Type}

/-- The rewritten loop, and what the promotion lambda has left behind. -/
structure State (m : ℕ) (V M D X : Type) where
  code : FormBatchedLoop.State 32 m V M D X
  promo : Option Promotion

/-- The ranges of the enqueued jobs, in index order. -/
def ranges (p : Promotion) : List (ℤ × ℤ) :=
  p.enqueued.reverse.map fun h => ((p.job h).i, (p.job h).j)

def State.handed (s : State m V M D X) : List (ℤ × ℤ) := (s.promo.map ranges).getD []

section
variable (P : LoopProtocol 32 m V M D X) (K : ℕ)

def step [DecidableEq D] (s : State m V M D X) : Option (State m V M D X) :=
  (FormBatchedLoop.step P K s.code).map fun code => { s with code := code }

/-- The variables of the loop, as they are in memory. The lambda does not read the index. -/
def vars (s : FormBatchedLoop.State 32 m V M D X) : LoopVars where
  i := P.predicate.val P.start
  sig_safe_i := (Arith.machine (indexTy P.predicate)).toSig (P.predicate.val s.progress)
  loop_end := P.predicate.val s.bound

/-- The promotion lambda of `parfor_`, for a call whose range ends at `j`. -/
def handler (j : ℤ) (s : State m V M D X) : State m V M D X :=
  match promotion (.machine (indexTy P.predicate)) K j (vars P s.code) with
  | some p => { code := { s.code with bound := BitVec.ofInt 32 p.loop_end }, promo := some p }
  | none => s

end

variable {P : LoopProtocol 32 m V M D X} {K n : ℕ} {mem : M} {j : BitVec 32}
  {s : State m V M D X}

theorem val_inRange (p : Pred) (x : BitVec 32) : (indexTy p).InRange (p.val x) := by
  have hmin := p.minVal_le_val x
  have hmax := p.val_le_maxVal x
  cases p <;> exact ⟨hmin, hmax⟩

theorem batch_inRange (p : Pred) (hmax : K ≤ SporkMaxBatch) : (indexTy p).InRange K := by
  have hK : (K : ℤ) ≤ 1024 := by exact_mod_cast hmax
  have hlarge : (indexTy p).InRange 1024 := by cases p <;> decide
  exact IntTy.inRange_of_between ((indexTy p).inRange_small le_rfl (by norm_num)) hlarge
    (Int.natCast_nonneg K) hK

/-- The arithmetic of the index type is exact on the range of the loop. -/
theorem faithfulOn (hlen : (indexTy P.predicate).InRange
    (P.predicate.val j - P.predicate.val P.start)) :
    (Arith.machine (indexTy P.predicate)).FaithfulOn (P.predicate.val P.start)
      (P.predicate.val j) :=
  Arith.machine_faithfulOn (by cases P.predicate <;> decide) (val_inRange _ _) (val_inRange _ _)
    hlen.promote

/-- The lambda splits what lies beyond a batch from the published progress. -/
theorem promotion_eq_split (hs : Sim P K mem n s.code) (hmin : 1 ≤ K) (hmax : K ≤ SporkMaxBatch)
    (hlen : (indexTy P.predicate).InRange (P.predicate.val j - P.predicate.val P.start))
    (hle : P.predicate.val s.code.bound ≤ P.predicate.val j) :
    promotion (.machine (indexTy P.predicate)) K (P.predicate.val j) (vars P s.code) =
      some (split K (P.predicate.val j) (P.predicate.val s.code.progress)
        (P.predicate.val s.code.bound)) := by
  obtain ⟨base, hbase, hprog, -⟩ := hs.lag hmin
  have hbound := hs.le_bound
  have hval : P.predicate.val s.code.progress = P.predicate.val P.start + base := by
    rw [hprog, P.val_indexAt (b := s.code.bound) (by omega)]
  refine promotion_eq (faithfulOn hlen) (IntTy.wrap_of_inRange (batch_inRange _ hmax))
    (Int.natCast_nonneg K) rfl ?_ ?_ hle
  · rw [hval]
    omega
  · change P.predicate.val s.code.progress ≤ P.predicate.val s.code.bound
    omega

/-- The bound that the loop is left with. -/
theorem handler_bound (c : FormBatchedLoop.State 32 m V M D X) :
    P.predicate.val (FormBatchedLoop.handler P K c).bound =
      if K < P.predicate.val c.bound - P.predicate.val c.progress then
        P.predicate.val c.progress + K
      else P.predicate.val c.bound := by
  rw [FormBatchedLoop.handler]
  split
  · next hgt =>
    have hmaxVal := P.predicate.val_le_maxVal c.bound
    exact P.predicate.val_add_ofNat _ _ (by omega)
  · rfl

theorem handler_eq {e : ℤ} {p : Promotion}
    (h : promotion (.machine (indexTy P.predicate)) K e (vars P s.code) = some p)
    (hend : p.loop_end = P.predicate.val (FormBatchedLoop.handler P K s.code).bound) :
    handler P K e s = ⟨FormBatchedLoop.handler P K s.code, some p⟩ := by
  have hcode : { s.code with bound := (FormBatchedLoop.handler P K s.code).bound } =
      FormBatchedLoop.handler P K s.code := by
    rw [FormBatchedLoop.handler]
    split <;> rfl
  rw [handler]
  rw [h]
  simp only [hend, Pred.ofInt_val, hcode]

/-- **What the lambda does.** It lowers the bound by whole batches, and its jobs take over there. -/
theorem handler_spec (hs : Sim P K mem n s.code) (hmin : 1 ≤ K) (hmax : K ≤ SporkMaxBatch)
    (hlen : (indexTy P.predicate).InRange (P.predicate.val j - P.predicate.val P.start))
    (hbound : s.code.bound = j) :
    ∃ p, handler P K (P.predicate.val j) s = ⟨FormBatchedLoop.handler P K s.code, some p⟩ ∧
      Pieces (P.predicate.val (FormBatchedLoop.handler P K s.code).bound) (ranges p)
        (P.predicate.val j) := by
  subst hbound
  have hprom := promotion_eq_split hs hmin hmax hlen le_rfl
  have hend := handler_bound (P := P) (K := K) s.code
  rcases split_cases K (P.predicate.val s.code.bound) (P.predicate.val s.code.progress)
    (P.predicate.val s.code.bound) with ⟨hle, heq⟩ | ⟨hone, heq⟩ | ⟨mid, hlo, hhi, heq⟩
  all_goals rw [heq] at hprom
  · rw [if_neg (by omega)] at hend
    exact ⟨_, handler_eq hprom hend.symm, hend⟩
  · have hlt : P.predicate.val s.code.progress + K < P.predicate.val s.code.bound := by omega
    rw [if_pos (by omega)] at hend
    exact ⟨_, handler_eq hprom hend.symm, hend.symm, hlt, rfl⟩
  · rw [if_pos (by omega)] at hend
    exact ⟨_, handler_eq hprom hend.symm, hend.symm, hlo, rfl, hhi, rfl⟩

/-! ## Whole runs -/

variable (P K j mem) in
/-- What holds before and after the promotion. -/
structure Inv (fired : Bool) (s : State m V M D X) : Prop where
  sim : ∃ n, Sim P K mem n s.code
  handled : if fired then s.promo.isSome ∧
      Pieces (P.predicate.val s.code.bound) s.handed (P.predicate.val j)
    else s.promo = none ∧ s.code.bound = j

/-- The jobs take over where the loop stops. -/
theorem Inv.pieces {fired : Bool} (hi : Inv P K mem j fired s) : s.promo.isSome = fired ∧
    Pieces (P.predicate.val s.code.bound) s.handed (P.predicate.val j) := by
  have hhandled := hi.handled
  cases fired with
  | false =>
    obtain ⟨hpromo, hbound⟩ := hhandled
    simp [State.handed, hpromo, hbound, Pieces]
  | true => exact hhandled

theorem handler_block {e : ℤ} : (handler P K e s).code.block = s.code.block := by
  rw [handler]
  split <;> rfl

variable [DecidableEq D]

theorem step_eq_some {s' : State m V M D X} : step P K s = some s' ↔
    ∃ c, FormBatchedLoop.step P K s.code = some c ∧ s' = { s with code := c } := by
  simp [step, eq_comm]

theorem step_eq_none : step P K s = none ↔ s.code.block = .exit := by
  rw [step, Option.map_eq_none_iff, FormBatchedLoop.step_eq_none]

/-- A block of the loop keeps the invariant. -/
theorem Inv.step {s' : State m V M D X} {fired : Bool} (hi : Inv P K mem j fired s)
    (hmin : 1 ≤ K) (hmax : K ≤ SporkMaxBatch) (h : step P K s = some s') :
    Inv P K mem j fired s' := by
  obtain ⟨c, hstep, rfl⟩ := step_eq_some.mp h
  have hK : K < 2 ^ 32 := lt_of_le_of_lt hmax (by decide)
  have hcert := FormBatchedLoop.certificate P mem hmin hK
    (FormBatchedLoop.batch_le_maxVal (.inl rfl) hmax)
  have hbound := FormBatchedLoop.step_bound hstep
  refine ⟨hcert.step_inv fired _ _ hi.sim hstep, ?_⟩
  have hhandled := hi.handled
  rw [← hbound] at hhandled
  exact hhandled

omit [DecidableEq D] in
/-- So does the promotion. -/
theorem Inv.handler (hi : Inv P K mem j false s) (hmin : 1 ≤ K) (hmax : K ≤ SporkMaxBatch)
    (hlen : (indexTy P.predicate).InRange (P.predicate.val j - P.predicate.val P.start)) :
    Inv P K mem j true (handler P K (P.predicate.val j) s) := by
  obtain ⟨n, hs⟩ := hi.sim
  obtain ⟨-, hbound⟩ : s.promo = none ∧ s.code.bound = j := hi.handled
  obtain ⟨p, heq, hpieces⟩ := handler_spec hs hmin hmax hlen hbound
  rw [heq]
  exact ⟨⟨n, FormBatchedLoop.sim_handler hs hmin⟩, rfl, hpieces⟩

theorem certificate (hmin : 1 ≤ K) (hmax : K ≤ SporkMaxBatch)
    (hlen : (indexTy P.predicate).InRange (P.predicate.val j - P.predicate.val P.start)) :
    Certificate (step P K) (Handoff.handler P K (P.predicate.val j)) (Inv P K mem j)
      fun s => FormBatchedLoop.measure P s.code := by
  have hK : K < 2 ^ 32 := lt_of_le_of_lt hmax (by decide)
  have hcert := FormBatchedLoop.certificate P mem hmin hK
    (FormBatchedLoop.batch_le_maxVal (.inl rfl) hmax)
  constructor
  · intro fired s s' hi h
    exact hi.step hmin hmax h
  · intro fired s s' hi h
    obtain ⟨c, hstep, rfl⟩ := step_eq_some.mp h
    exact hcert.measure_lt fired _ _ hi.sim hstep
  · intro s hi
    exact hi.handler hmin hmax hlen
  · intro s h
    rw [step_eq_none] at h ⊢
    rw [handler_block, h]

theorem inv_enter (env : Env m D V) (mem : M) (hlt : P.predicate.lt P.start j = true) :
    Inv P K mem j false (⟨FormBatchedLoop.enter P env mem j, none⟩ : State m V M D X) :=
  ⟨⟨0, FormBatchedLoop.sim_enter env hlt⟩, rfl, rfl⟩

/-- **The batched loop and the jobs partition the range.** Whenever the promotion lambda runs, and
also if it never does, it is defined, and the loop runs its body up to the bound that the jobs
start from, with the memory and the values that the original loop has there. -/
theorem batched_partition (P : LoopProtocol 32 m V M D X) (hmin : 2 ≤ K) (hmax : K ≤ SporkMaxBatch)
    (j : BitVec 32) (hlt : P.predicate.lt P.start j = true)
    (hlen : (indexTy P.predicate).InRange (P.predicate.val j - P.predicate.val P.start))
    (env : Env m D V) (mem : M) (t : Option ℕ) :
    ∃ s : State m V M D X,
      EndsIn (step P K) (handler P K (P.predicate.val j)) t
        ⟨FormBatchedLoop.enter P env mem j, none⟩ s ∧
      s.code.block = .exit ∧ s.promo.isSome = t.isSome ∧
      Pieces (P.predicate.val s.code.bound) s.handed (P.predicate.val j) ∧
      (s.code.ran.map P.predicate.val ++ s.handed.flatMap fun p => Int.range p.1 p.2) =
        Int.range (P.predicate.val P.start) (P.predicate.val j) ∧
      s.code.mem = (P.after mem s.code.ran.length).2 ∧
      s.code.result = some (P.exitAfter mem s.code.ran.length) := by
  obtain ⟨s, hends, hi, hhalt⟩ := (certificate (by omega) hmax hlen).exec_total t
    ⟨FormBatchedLoop.enter P env mem j, none⟩ (inv_enter env mem hlt)
  have hexit := step_eq_none.mp hhalt
  obtain ⟨n, hs⟩ := hi.sim
  have hat := hs.atBlock
  simp only [FormBatchedLoop.AtBlock, hexit] at hat
  obtain ⟨hn, -, hbound, hresult⟩ := hat
  have hlength : s.code.ran.length = n := by simp [hs.ran_eq]
  obtain ⟨hpromo, hpieces⟩ := hi.pieces
  refine ⟨s, hends, hexit, hpromo, hpieces, ?_, ?_, ?_⟩
  · rw [hpieces.flatMap_range, hs.ran_val, hbound]
    exact range_append (by omega) (hbound ▸ hpieces.le)
  · rw [hlength, hs.mem_eq]
  · rw [hlength, hresult]

/-- Batches of four from 5 up to 20, the lambda running during the first one. -/
theorem batched_partition_sumLoop :
    ∃ s : State 2 (BitVec 32) Unit Bool Unit,
      EndsIn (step FormBatchedLoop.sumLoop 4)
        (handler FormBatchedLoop.sumLoop 4 (Pred.ult.val (20 : BitVec 32))) (some 3)
        ⟨FormBatchedLoop.enter FormBatchedLoop.sumLoop FormBatchedLoop.zeroEnv () 20, none⟩ s ∧
      (s.code.ran.map Pred.ult.val ++ s.handed.flatMap fun p => Int.range p.1 p.2) =
        Int.range 5 20 := by
  obtain ⟨s, hends, -, -, -, hran, -, -⟩ :=
    batched_partition FormBatchedLoop.sumLoop (K := 4) (by decide) (by decide) 20 (by decide)
      (by decide) FormBatchedLoop.zeroEnv () (some 3)
  exact ⟨s, hends, hran⟩

end Spork.Unroll.Handoff
