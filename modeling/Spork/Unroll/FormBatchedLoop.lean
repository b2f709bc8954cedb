import Spork.Lib.Interrupt
import Spork.Lib.IntRange
import Spork.Unroll.BatchGuard
import Mathlib.Data.Fin.VecNotation
import Mathlib.Data.List.FinRange

/-!
# The outer/inner batch loop

`formBatchedLoop` restructures a matched loop into an outer loop over batches of `K`
iterations, an inner loop that runs one batch without volatile operations, and a
cleanup copy of the original loop. This module embeds the matched loop as its header
PHIs, its latch values and a body on the tuple of PHI values and memory; the rewritten
code as the PHI operands of every new edge and a block-level machine that evaluates
them; and the promotion handler as a bound that may be lowered once, anywhere between
two volatile operations.

## Main definitions

* `LoopProtocol` — what `matchLoopProtocol` establishes, with its checks as fields.
* `LoopProtocol.after`, `LoopProtocol.exitAfter` — the original loop.
* `formBatchedLoop` — the PHI operands of the rewritten code.
* `step`, `handler` — its blocks, and the replacement of the bound.
* `Inv` — the simulation between the two control-flow graphs.
* `formBatchedLoop_preserves`.
-/
namespace Spork.Unroll.FormBatchedLoop

open LLVM Interrupt

/-- Largest batch the pass accepts, the default of `-spork-max-batch`. -/
def SporkMaxBatch : ℕ := 1024

/-- What a PHI receives from the latch: an instruction of the loop, or a value defined
outside it. -/
inductive Operand (D V : Type)
  | inLoop (d : D)
  | outside (v : V)

variable {w m : ℕ} {V M D X : Type}

/-- The operand's value, given the values of the loop's instructions. -/
def Operand.eval (dfn : D → V) : Operand D V → V
  | inLoop d => dfn d
  | outside v => v

/-- Whether the operand is the instruction `d`. -/
def Operand.isInstr [DecidableEq D] (d : D) : Operand D V → Bool
  | inLoop d' => d' = d
  | outside _ => false

/-- A matched loop with `m` header PHIs, on values `V` and memory `M`. Its instructions
are named by `D` and its exit PHIs by `X`; one iteration of its blocks, less the
volatile operations, is `body`. -/
structure LoopProtocol (w m : ℕ) (V M D X : Type) where
  predicate : Pred
  /-- An SSA value read at the type of the induction. -/
  index : V → BitVec w
  /-- `HeaderPhi::Init`. -/
  init : Fin m → V
  /-- `HeaderPhi::LatchVal`. -/
  latchVal : Fin m → Operand D V
  inductionIndex : Fin m
  nextInduction : D
  exitPhi : X → Operand D V
  body : (Fin m → V) → M → (D → V) × M
  latch_induction : latchVal inductionIndex = .inLoop nextInduction
  next_eq : ∀ phis mem,
    index ((body phis mem).1 nextInduction) = index (phis inductionIndex) + 1
  exit_latch : ∀ x d, exitPhi x = .inLoop d → ∃ k, latchVal k = .inLoop d

namespace LoopProtocol

variable (P : LoopProtocol w m V M D X)

/-- The index the loop starts from. -/
def start : BitVec w := P.index (P.init P.inductionIndex)

/-- Header PHIs and memory of the original loop after `n` iterations. -/
def after (mem : M) : ℕ → (Fin m → V) × M
  | 0 => (P.init, mem)
  | n + 1 =>
      let s := after mem n
      let r := P.body s.1 s.2
      (fun k => (P.latchVal k).eval r.1, r.2)

/-- The instructions of iteration `n` of the original loop. -/
def defs (mem : M) (n : ℕ) : D → V := (P.body (P.after mem n).1 (P.after mem n).2).1

/-- The exit PHIs of the original loop when it leaves after `n` iterations. -/
def exitAfter (mem : M) (n : ℕ) (x : X) : V := (P.exitPhi x).eval (P.defs mem (n - 1))

end LoopProtocol

/-! ## The rewritten code -/

/-- The SSA values of the rewritten function. -/
inductive Value (m : ℕ) (D V : Type)
  | outside (v : V)
  /-- Header PHIs and instructions of the inner loop, which are the original ones. -/
  | phi (k : Fin m)
  | dfn (d : D)
  /-- `.spork.outer`, `.spork.resume` and `.spork.lcssa` PHIs. -/
  | outer (k : Fin m)
  | resume (k : Fin m)
  | lcssa (k : Fin m)
  /-- Header PHIs and instructions of the cleanup clone. -/
  | cleanupPhi (k : Fin m)
  | cleanupDfn (d : D)

/-- The PHI operands of the rewritten function, by the edge they are received on, and
the operands of its two guards and of its progress store. -/
structure BatchedLoop (m : ℕ) (D V X : Type) where
  outerFromPreheader : Fin m → Value m D V
  outerFromBatchLatch : Fin m → Value m D V
  headerFromBatchHeader : Fin m → Value m D V
  headerFromLatch : Fin m → Value m D V
  lcssaFromLatch : Fin m → Value m D V
  resumeFromBatchHeader : Fin m → Value m D V
  cleanupFromCleanupPH : Fin m → Value m D V
  cleanupFromCleanupLatch : Fin m → Value m D V
  exitFromCleanupLatch : X → Value m D V
  exitFromCleanupPH : X → Value m D V
  batchBase : Value m D V
  cleanupBase : Value m D V
  newStored : Value m D V

/-- The operand as the inner loop sees it. -/
def Operand.inner : Operand D V → Value m D V
  | inLoop d => .dfn d
  | outside v => .outside v

/-- The operand mapped through the clone of the loop. -/
def Operand.clone : Operand D V → Value m D V
  | inLoop d => .cleanupDfn d
  | outside v => .outside v

/-- The latch value of a header PHI as the batch latch sees it: through an LCSSA PHI if
it is an instruction of the loop. -/
def lcssaLatch (P : LoopProtocol w m V M D X) (k : Fin m) : Value m D V :=
  match P.latchVal k with
  | .inLoop _ => .lcssa k
  | .outside v => .outside v

/-- The first header PHI whose latch value is `d`. An assertion of the source excludes
the default. -/
def findPhi [DecidableEq D] (P : LoopProtocol w m V M D X) (d : D) : Fin m :=
  ((List.finRange m).find? fun k => (P.latchVal k).isInstr d).getD P.inductionIndex

/-- The rewiring of `formBatchedLoop`. -/
def formBatchedLoop [DecidableEq D] (P : LoopProtocol w m V M D X) : BatchedLoop m D V X where
  outerFromPreheader k := .outside (P.init k)
  outerFromBatchLatch := lcssaLatch P
  headerFromBatchHeader := .outer
  headerFromLatch k := (P.latchVal k).inner
  lcssaFromLatch k := (P.latchVal k).inner
  resumeFromBatchHeader := .outer
  cleanupFromCleanupPH := .resume
  cleanupFromCleanupLatch k := (P.latchVal k).clone
  exitFromCleanupLatch x := (P.exitPhi x).clone
  exitFromCleanupPH x :=
    match P.exitPhi x with
    | .inLoop d => .resume (findPhi P d)
    | .outside v => .outside v
  batchBase := .outer P.inductionIndex
  cleanupBase := .resume P.inductionIndex
  newStored := lcssaLatch P P.inductionIndex

/-- The blocks of the rewritten code. The latch of the cleanup loop is divided at its
two volatile operations. -/
inductive Block
  | batchHeader
  | inner
  | batchLatch
  | cleanupPH
  | cleanup
  | cleanupStore
  | cleanupTest
  | exit
  deriving DecidableEq, Repr

/-- Values of the PHIs and instructions. -/
structure Env (m : ℕ) (D V : Type) where
  phi : Fin m → V
  dfn : D → V
  outer : Fin m → V
  resume : Fin m → V
  lcssa : Fin m → V
  cleanupPhi : Fin m → V
  cleanupDfn : D → V

/-- The value of an SSA value. -/
def Env.eval (env : Env m D V) : Value m D V → V
  | .outside v => v
  | .phi k => env.phi k
  | .dfn d => env.dfn d
  | .outer k => env.outer k
  | .resume k => env.resume k
  | .lcssa k => env.lcssa k
  | .cleanupPhi k => env.cleanupPhi k
  | .cleanupDfn d => env.cleanupDfn d

/-- A state of the rewritten function: SSA values, memory, the batch counter, the two
volatile slots, the indices the body has run on, and the exit PHIs once it has left. -/
structure State (w m : ℕ) (V M D X : Type) where
  block : Block
  env : Env m D V
  mem : M
  counter : BitVec 32
  progress : BitVec w
  bound : BitVec w
  ran : List (BitVec w)
  result : Option (X → V)

/-- A batch guard of the rewritten code, on a fresh load of the bound. -/
def State.guard (P : LoopProtocol w m V M D X) (s : State w m V M D X) (base : Value m D V)
    (count : ℕ) : Bool :=
  createBatchGuard (.direct P.predicate) (P.index (s.env.eval base)) count s.bound

section
variable [DecidableEq D] (P : LoopProtocol w m V M D X) (K : ℕ)

/-- One block of the rewritten function, up to its branch. -/
def step (s : State w m V M D X) : Option (State w m V M D X) :=
  let T := formBatchedLoop P
  match s.block with
  | .batchHeader =>
      if s.guard P T.batchBase K then
        some { s with
          env := { s.env with phi := fun k => s.env.eval (T.headerFromBatchHeader k) }
          counter := 0
          block := .inner }
      else
        some { s with
          env := { s.env with resume := fun k => s.env.eval (T.resumeFromBatchHeader k) }
          block := .cleanupPH }
  | .inner =>
      let r := P.body s.env.phi s.mem
      let env := { s.env with dfn := r.1 }
      let ran := s.ran ++ [P.index (s.env.phi P.inductionIndex)]
      if (s.counter + 1).ult (BitVec.ofNat 32 K) then
        some { s with
          env := { env with phi := fun k => env.eval (T.headerFromLatch k) }
          mem := r.2
          counter := s.counter + 1
          ran := ran }
      else
        some { s with
          env := { env with lcssa := fun k => env.eval (T.lcssaFromLatch k) }
          mem := r.2
          ran := ran
          block := .batchLatch }
  | .batchLatch =>
      some { s with
        progress := P.index (s.env.eval T.newStored)
        env := { s.env with outer := fun k => s.env.eval (T.outerFromBatchLatch k) }
        block := .batchHeader }
  | .cleanupPH =>
      if s.guard P T.cleanupBase 1 then
        some { s with
          env := { s.env with cleanupPhi := fun k => s.env.eval (T.cleanupFromCleanupPH k) }
          block := .cleanup }
      else
        some { s with
          result := some fun x => s.env.eval (T.exitFromCleanupPH x)
          block := .exit }
  | .cleanup =>
      let r := P.body s.env.cleanupPhi s.mem
      some { s with
        env := { s.env with cleanupDfn := r.1 }
        mem := r.2
        ran := s.ran ++ [P.index (s.env.cleanupPhi P.inductionIndex)]
        block := .cleanupStore }
  | .cleanupStore =>
      some { s with
        progress := P.index (s.env.cleanupDfn P.nextInduction)
        block := .cleanupTest }
  | .cleanupTest =>
      if P.predicate.lt (P.index (s.env.cleanupDfn P.nextInduction)) s.bound then
        some { s with
          env := { s.env with cleanupPhi := fun k => s.env.eval (T.cleanupFromCleanupLatch k) }
          block := .cleanup }
      else
        some { s with
          result := some fun x => s.env.eval (T.exitFromCleanupLatch x)
          block := .exit }
  | .exit => none

/-- The rewritten function entered from the preheader, the progress slot holding the
start index. -/
def enter (env : Env m D V) (mem : M) (bound : BitVec w) : State w m V M D X :=
  { block := .batchHeader
    env := { env with outer := fun k => env.eval ((formBatchedLoop P).outerFromPreheader k) }
    mem := mem
    counter := 0
    progress := P.start
    bound := bound
    ran := []
    result := none }

omit [DecidableEq D] in
/-- The bound is replaced by `progress + K` when more than `K` iterations remain. -/
def handler (s : State w m V M D X) : State w m V M D X :=
  if P.predicate.val s.bound - P.predicate.val s.progress > K then
    { s with bound := s.progress + BitVec.ofNat w K }
  else s

/-! ## The simulation -/

/-- The index of iteration `n`. -/
def LoopProtocol.indexAt (P : LoopProtocol w m V M D X) (n : ℕ) : BitVec w :=
  P.start + BitVec.ofNat w n

/-- What holds in each block after `n` iterations: where the loop-carried values of the
original loop are to be found, how far the published progress lags, and which
iterations the bound still admits. -/
def AtBlock (mem : M) (s : State w m V M D X) (n : ℕ) : Prop :=
  match s.block with
  | .batchHeader =>
      s.env.outer = (P.after mem n).1 ∧ s.progress = P.indexAt n ∧
        (n = 0 → P.predicate.val P.start < P.predicate.val s.bound)
  | .inner =>
      s.env.phi = (P.after mem n).1 ∧ ∃ base, s.progress = P.indexAt base ∧
        n = base + s.counter.toNat ∧ s.counter.toNat < K ∧
        P.predicate.val P.start + base + K ≤ P.predicate.val s.bound
  | .batchLatch =>
      (∀ k d, P.latchVal k = .inLoop d → s.env.lcssa k = (P.after mem n).1 k) ∧
        ∃ base, s.progress = P.indexAt base ∧ n = base + K
  | .cleanupPH =>
      s.env.resume = (P.after mem n).1 ∧ s.progress = P.indexAt n ∧
        (n = 0 → P.predicate.val P.start < P.predicate.val s.bound)
  | .cleanup =>
      s.env.cleanupPhi = (P.after mem n).1 ∧ s.progress = P.indexAt n ∧
        P.predicate.val P.start + n < P.predicate.val s.bound
  | .cleanupStore =>
      ∃ base, n = base + 1 ∧ s.env.cleanupDfn = P.defs mem base ∧ s.progress = P.indexAt base
  | .cleanupTest =>
      ∃ base, n = base + 1 ∧ s.env.cleanupDfn = P.defs mem base ∧ s.progress = P.indexAt n
  | .exit =>
      1 ≤ n ∧ s.progress = P.indexAt n ∧
        P.predicate.val s.bound = P.predicate.val P.start + n ∧
        s.result = some (P.exitAfter mem n)

/-- The simulation relation after `n` iterations: the body has run on the first indices,
the memory is that of the original loop, and the bound has not been passed. -/
structure Sim (mem : M) (n : ℕ) (s : State w m V M D X) : Prop where
  ran_eq : s.ran = (List.range n).map P.indexAt
  mem_eq : s.mem = (P.after mem n).2
  le_bound : P.predicate.val P.start + n ≤ P.predicate.val s.bound
  atBlock : AtBlock P K mem s n

/-- What a block weighs when `rem` iterations are left. -/
def Block.weight (rem : ℕ) : Block → ℕ
  | batchHeader => 4 * rem + 2
  | inner => 4 * rem + 1
  | batchLatch => 4 * rem + 3
  | cleanupPH => 4 * rem + 1
  | cleanup => 4 * rem
  | cleanupStore => 4 * rem + 3
  | cleanupTest => 4 * rem + 2
  | exit => 0

/-- Iterations left, and within them the blocks left. -/
def measure (s : State w m V M D X) : ℕ :=
  s.block.weight (P.predicate.val s.bound - P.predicate.val P.start - s.ran.length).toNat

end

namespace LoopProtocol

variable (P : LoopProtocol w m V M D X) (mem : M)

theorem after_succ (n : ℕ) :
    P.after mem (n + 1) = (fun k => (P.latchVal k).eval (P.defs mem n),
      (P.body (P.after mem n).1 (P.after mem n).2).2) := rfl

/-- The induction of the original loop after `n` iterations. -/
theorem index_after (n : ℕ) : P.index ((P.after mem n).1 P.inductionIndex) = P.indexAt n := by
  induction n with
  | zero => simp [after, indexAt, start]
  | succ n ih =>
    simp only [after_succ, P.latch_induction, Operand.eval, defs, P.next_eq, ih]
    simp only [indexAt, BitVec.add_assoc, BitVec.ofNat_add]
    rfl

theorem index_next (n : ℕ) : P.index (P.defs mem n P.nextInduction) = P.indexAt (n + 1) := by
  rw [← P.index_after mem]
  simp only [after_succ, P.latch_induction, Operand.eval]

/-- Below the bound an index reads as the start plus the iteration. -/
theorem val_indexAt {b : BitVec w} {n : ℕ}
    (h : P.predicate.val P.start + n ≤ P.predicate.val b) :
    P.predicate.val (P.indexAt n) = P.predicate.val P.start + n :=
  P.predicate.val_add_ofNat _ _ (h.trans (P.predicate.val_le_maxVal _))

/-- An index below the bound has its iteration. -/
theorem eq_of_val_indexAt {x b : BitVec w} {k n : ℕ}
    (hk : P.predicate.val P.start + k ≤ P.predicate.val b) (hx : x = P.indexAt k)
    (hval : P.predicate.val x = P.predicate.val P.start + n) : k = n := by
  rw [hx, P.val_indexAt hk] at hval
  omega

/-- The iterations read as consecutive integers. -/
theorem val_indexAt_range {b : BitVec w} {n : ℕ}
    (h : P.predicate.val P.start + n ≤ P.predicate.val b) :
    ((List.range n).map P.indexAt).map P.predicate.val =
      Int.range (P.predicate.val P.start) (P.predicate.val P.start + n) := by
  rw [List.map_map, Int.range]
  simp only [add_sub_cancel_left, Int.toNat_natCast]
  refine List.map_congr_left fun k hk => ?_
  rw [List.mem_range] at hk
  simp only [Function.comp_apply]
  rw [P.val_indexAt (b := b) (by omega)]

/-- An exit PHI of an instruction receives the header PHI that `findPhi` chose. -/
theorem latchVal_findPhi [DecidableEq D] {x : X} {d : D} (h : P.exitPhi x = .inLoop d) :
    P.latchVal (findPhi P d) = .inLoop d := by
  obtain ⟨k, hk⟩ := P.exit_latch x d h
  obtain ⟨k', hk'⟩ : ∃ k',
      ((List.finRange m).find? fun k => (P.latchVal k).isInstr d) = some k' := by
    rw [← Option.isSome_iff_exists, List.find?_isSome]
    exact ⟨k, List.mem_finRange k, by simp [hk, Operand.isInstr]⟩
  have hd := List.find?_some hk'
  simp only [findPhi, hk', Option.getD_some]
  cases hl : P.latchVal k' with
  | inLoop d' => simpa [hl, Operand.isInstr] using hd
  | outside v => simp [hl, Operand.isInstr] at hd

end LoopProtocol

section
variable {P : LoopProtocol w m V M D X} {K : ℕ} {mem : M} {s s' : State w m V M D X}

/-- Running the body on the next iteration keeps the history and the memory in step with
the original loop. -/
theorem Sim.run {n : ℕ} (hs : Sim P K mem n s) {phis : Fin m → V}
    (hphi : phis = (P.after mem n).1) :
    s.ran ++ [P.index (phis P.inductionIndex)] = (List.range (n + 1)).map P.indexAt ∧
      (P.body phis s.mem).1 = P.defs mem n ∧
      (P.body phis s.mem).2 = (P.after mem (n + 1)).2 := by
  subst hphi
  refine ⟨?_, ?_, ?_⟩
  · rw [P.index_after, List.range_succ, List.map_append, ← hs.ran_eq]
    rfl
  · rw [hs.mem_eq, LoopProtocol.defs]
  · rw [hs.mem_eq, P.after_succ]

theorem Sim.measure_eq {n : ℕ} (hs : Sim P K mem n s) :
    measure P s =
      s.block.weight (P.predicate.val s.bound - P.predicate.val P.start - n).toNat := by
  rw [measure, hs.ran_eq, List.length_map, List.length_range]

theorem eval_inner (o : Operand D V) (env : Env m D V) :
    env.eval o.inner = o.eval env.dfn := by
  cases o <;> rfl

theorem eval_clone (o : Operand D V) (env : Env m D V) :
    env.eval o.clone = o.eval env.cleanupDfn := by
  cases o <;> rfl

/-- A latch value that is no instruction is the same after every iteration. -/
theorem after_outside {k : Fin m} {v : V} (h : P.latchVal k = .outside v) {n : ℕ} (hn : 1 ≤ n) :
    (P.after mem n).1 k = v := by
  obtain ⟨n, rfl⟩ : ∃ i, n = i + 1 := ⟨n - 1, by omega⟩
  simp only [P.after_succ, h, Operand.eval]

variable (mem) in
/-- The batch latch finds every header PHI of the next iteration. -/
theorem eval_lcssaLatch {n : ℕ} (hn : 1 ≤ n) {env : Env m D V}
    (h : ∀ k d, P.latchVal k = .inLoop d → env.lcssa k = (P.after mem n).1 k) (k : Fin m) :
    env.eval (lcssaLatch P k) = (P.after mem n).1 k := by
  rw [lcssaLatch]
  cases hl : P.latchVal k with
  | inLoop d => exact h k d hl
  | outside v => exact (after_outside hl hn).symm


/-- The guard of a batch of `count` iterations, taken after `n` of them. -/
theorem guard_iff {n count : ℕ} {base : Value m D V}
    (hbase : P.index (s.env.eval base) = P.indexAt n)
    (hn : P.predicate.val P.start + n ≤ P.predicate.val s.bound) (h₁ : 1 ≤ count)
    (hc : (count : ℤ) ≤ Pred.maxVal .slt w) :
    s.guard P base count = true ↔
      P.predicate.val P.start + n + count ≤ P.predicate.val s.bound := by
  have hcount := hc.trans (P.predicate.maxVal_slt_le w)
  rw [State.guard, createBatchGuard_iff P.predicate _ _ h₁ hcount, hbase, P.val_indexAt hn]

/-! ## One lemma per block -/

variable [DecidableEq D] {n : ℕ}

/-- The state goes on to one in which the simulation holds with less left to do. -/
def Advances (P : LoopProtocol w m V M D X) (K : ℕ) (mem : M) (s : State w m V M D X) : Prop :=
  ∃ s' n', step P K s = some s' ∧ Sim P K mem n' s' ∧ measure P s' < measure P s

/-- A step to a block of less weight. -/
theorem Sim.advances (hs : Sim P K mem n s)
    (h : ∃ s' n', step P K s = some s' ∧ Sim P K mem n' s' ∧
      s'.block.weight (P.predicate.val s'.bound - P.predicate.val P.start - n').toNat <
        s.block.weight (P.predicate.val s.bound - P.predicate.val P.start - n).toNat) :
    Advances P K mem s := by
  obtain ⟨s', n', hstep, hs', hlt⟩ := h
  exact ⟨s', n', hstep, hs', by rwa [hs.measure_eq, hs'.measure_eq]⟩

theorem advances_batchHeader (hs : Sim P K mem n s) (h₁ : 1 ≤ K)
    (hK : (K : ℤ) ≤ Pred.maxVal .slt w) (hb : s.block = .batchHeader) : Advances P K mem s := by
  have hat := hs.atBlock
  simp only [AtBlock, hb] at hat
  obtain ⟨houter, hprog, hpos⟩ := hat
  have hbase : P.index (s.env.eval (formBatchedLoop P).batchBase) = P.indexAt n := by
    rw [← P.index_after mem, ← houter]
    rfl
  have hguard := guard_iff hbase hs.le_bound h₁ hK
  by_cases hg : s.guard P (formBatchedLoop P).batchBase K = true
  · refine hs.advances ?_
    simp only [step, hb, if_pos hg]
    refine ⟨_, _, rfl, ⟨hs.ran_eq, hs.mem_eq, hs.le_bound, ?_⟩, by simp only [Block.weight]; omega⟩
    exact ⟨houter, n, hprog, rfl, h₁, hguard.mp hg⟩
  · refine hs.advances ?_
    simp only [step, hb, if_neg hg]
    refine ⟨_, _, rfl, ⟨hs.ran_eq, hs.mem_eq, hs.le_bound, ?_⟩, by simp only [Block.weight]; omega⟩
    exact ⟨houter, hprog, hpos⟩

theorem advances_inner (hs : Sim P K mem n s) (hK : K < 2 ^ 32) (hb : s.block = .inner) :
    Advances P K mem s := by
  have hat := hs.atBlock
  simp only [AtBlock, hb] at hat
  obtain ⟨hphi, base, hprog, hn, hlt, hroom⟩ := hat
  obtain ⟨hran, hdfn, hmem⟩ := hs.run hphi
  have hcounter : (s.counter + 1).toNat = s.counter.toNat + 1 := by
    rw [BitVec.toNat_add_of_lt] <;> simp; omega
  have hult : (s.counter + 1).ult (BitVec.ofNat 32 K) = true ↔ s.counter.toNat + 1 < K := by
    simp only [BitVec.ult, hcounter, BitVec.toNat_ofNat, Nat.mod_eq_of_lt hK, decide_eq_true_eq]
  have hle : P.predicate.val P.start + (n + 1 : ℕ) ≤ P.predicate.val s.bound := by
    push_cast; omega
  by_cases hc : (s.counter + 1).ult (BitVec.ofNat 32 K) = true
  · refine hs.advances ?_
    simp only [step, hb, if_pos hc]
    refine ⟨_, n + 1, rfl, ⟨hran, hmem, hle, ?_⟩, by simp only [Block.weight]; push_cast; omega⟩
    refine ⟨funext fun k => ?_, base, hprog, by simp only [hcounter]; omega,
      by simpa only [hcounter] using hult.mp hc, hroom⟩
    simp only [formBatchedLoop, eval_inner, hdfn, P.after_succ]
  · have hc' := mt hult.mpr hc
    refine hs.advances ?_
    simp only [step, hb, if_neg hc]
    refine ⟨_, n + 1, rfl, ⟨hran, hmem, hle, ?_⟩, by simp only [Block.weight]; push_cast; omega⟩
    refine ⟨fun k d hk => ?_, base, hprog, by omega⟩
    simp only [formBatchedLoop, eval_inner, hdfn, P.after_succ]

theorem advances_batchLatch (hs : Sim P K mem n s) (h₁ : 1 ≤ K) (hb : s.block = .batchLatch) :
    Advances P K mem s := by
  have hat := hs.atBlock
  simp only [AtBlock, hb] at hat
  obtain ⟨hlcssa, base, hprog, hn⟩ := hat
  have hval := eval_lcssaLatch (P := P) mem (by omega : 1 ≤ n) hlcssa
  refine hs.advances ?_
  simp only [step, hb]
  refine ⟨_, _, rfl, ⟨hs.ran_eq, hs.mem_eq, hs.le_bound, ?_⟩, by simp only [Block.weight]; omega⟩
  refine ⟨funext hval, ?_, fun h0 => by omega⟩
  simp only [formBatchedLoop, hval, P.index_after]

/-- Leaving from the cleanup preheader, an exit PHI reads the resume PHI of the header
PHI it shares a latch value with. -/
theorem eval_exitFromCleanupPH {env : Env m D V} (hn : 1 ≤ n)
    (hresume : env.resume = (P.after mem n).1) (x : X) :
    env.eval ((formBatchedLoop P).exitFromCleanupPH x) = P.exitAfter mem n x := by
  obtain ⟨n, rfl⟩ : ∃ i, n = i + 1 := ⟨n - 1, by omega⟩
  simp only [formBatchedLoop, LoopProtocol.exitAfter, Nat.add_sub_cancel]
  cases hx : P.exitPhi x with
  | inLoop d => simp only [Env.eval, hresume, P.after_succ, P.latchVal_findPhi hx, Operand.eval]
  | outside v => rfl

theorem advances_cleanupPH (hs : Sim P K mem n s) (hw : 1 ≤ Pred.maxVal .slt w)
    (hb : s.block = .cleanupPH) : Advances P K mem s := by
  have hat := hs.atBlock
  simp only [AtBlock, hb] at hat
  obtain ⟨hresume, hprog, hpos⟩ := hat
  have hbase : P.index (s.env.eval (formBatchedLoop P).cleanupBase) = P.indexAt n := by
    rw [← P.index_after mem, ← hresume]
    rfl
  have hle := hs.le_bound
  have hguard := guard_iff hbase hle le_rfl (by exact_mod_cast hw)
  by_cases hg : s.guard P (formBatchedLoop P).cleanupBase 1 = true
  · have hg' := hguard.mp hg
    refine hs.advances ?_
    simp only [step, hb, if_pos hg]
    refine ⟨_, _, rfl, ⟨hs.ran_eq, hs.mem_eq, hle, ?_⟩, by simp only [Block.weight]; omega⟩
    exact ⟨hresume, hprog, by show _ < P.predicate.val s.bound; omega⟩
  · have hg' := mt hguard.mpr hg
    -- an index that has reached the bound has been advanced by whole batches
    have hn : 1 ≤ n := by
      rcases Nat.eq_zero_or_pos n with h0 | h0
      · have := hpos h0
        omega
      · exact h0
    refine hs.advances ?_
    simp only [step, hb, if_neg hg]
    refine ⟨_, _, rfl, ⟨hs.ran_eq, hs.mem_eq, hle, ?_⟩, by simp only [Block.weight]; omega⟩
    refine ⟨hn, hprog, by show P.predicate.val s.bound = _; omega, ?_⟩
    exact congrArg some (funext fun x => eval_exitFromCleanupPH hn hresume x)

theorem advances_cleanup (hs : Sim P K mem n s) (hb : s.block = .cleanup) :
    Advances P K mem s := by
  have hat := hs.atBlock
  simp only [AtBlock, hb] at hat
  obtain ⟨hphi, hprog, hlt⟩ := hat
  obtain ⟨hran, hdfn, hmem⟩ := hs.run hphi
  refine hs.advances ?_
  simp only [step, hb]
  have hle : P.predicate.val P.start + (n + 1 : ℕ) ≤ P.predicate.val s.bound := by
    push_cast; omega
  refine ⟨_, n + 1, rfl, ⟨hran, hmem, hle, ?_⟩, by simp only [Block.weight]; push_cast; omega⟩
  exact ⟨n, rfl, hdfn, hprog⟩

theorem advances_cleanupStore (hs : Sim P K mem n s) (hb : s.block = .cleanupStore) :
    Advances P K mem s := by
  have hat := hs.atBlock
  simp only [AtBlock, hb] at hat
  obtain ⟨base, rfl, hdfn, hprog⟩ := hat
  refine hs.advances ?_
  simp only [step, hb]
  refine ⟨_, _, rfl, ⟨hs.ran_eq, hs.mem_eq, hs.le_bound, ?_⟩, by simp only [Block.weight]; omega⟩
  exact ⟨base, rfl, hdfn, by simp only [hdfn, P.index_next]⟩

theorem advances_cleanupTest (hs : Sim P K mem n s) (hb : s.block = .cleanupTest) :
    Advances P K mem s := by
  have hat := hs.atBlock
  simp only [AtBlock, hb] at hat
  obtain ⟨base, rfl, hdfn, hprog⟩ := hat
  have hle := hs.le_bound
  have hnext : P.index (s.env.cleanupDfn P.nextInduction) = P.indexAt (base + 1) := by
    rw [hdfn, P.index_next]
  have htest : P.predicate.lt (P.index (s.env.cleanupDfn P.nextInduction)) s.bound = true ↔
      P.predicate.val P.start + (base + 1 : ℕ) < P.predicate.val s.bound := by
    rw [Pred.lt_iff, hnext, P.val_indexAt hle]
  by_cases ht : P.predicate.lt (P.index (s.env.cleanupDfn P.nextInduction)) s.bound = true
  · refine hs.advances ?_
    simp only [step, hb, if_pos ht]
    refine ⟨_, _, rfl, ⟨hs.ran_eq, hs.mem_eq, hle, ?_⟩, by simp only [Block.weight]; omega⟩
    refine ⟨funext fun k => ?_, hprog, htest.mp ht⟩
    simp only [formBatchedLoop, eval_clone, hdfn, P.after_succ]
  · have ht' := mt htest.mpr ht
    refine hs.advances ?_
    simp only [step, hb, if_neg ht]
    refine ⟨_, _, rfl, ⟨hs.ran_eq, hs.mem_eq, hle, ?_⟩, by simp only [Block.weight]; omega⟩
    refine ⟨by omega, hprog, by show P.predicate.val s.bound = _; omega, ?_⟩
    refine congrArg some (funext fun x => ?_)
    simp only [formBatchedLoop, eval_clone, hdfn, LoopProtocol.exitAfter, Nat.add_sub_cancel]

theorem step_eq_none : step P K s = none ↔ s.block = .exit := by
  rw [step]
  cases s.block <;> simp <;> split <;> simp

/-- The blocks leave the bound alone. -/
theorem step_bound {s' : State w m V M D X} (h : step P K s = some s') : s'.bound = s.bound := by
  rw [step] at h
  cases hb : s.block <;> simp only [hb] at h
  case batchHeader => split at h <;> cases h <;> rfl
  case inner => split at h <;> cases h <;> rfl
  case cleanupPH => split at h <;> cases h <;> rfl
  case cleanupTest => split at h <;> cases h <;> rfl
  case exit => cases h
  all_goals cases h; rfl

theorem advances_or_exit (hs : Sim P K mem n s) (hmin : 1 ≤ K) (hmax : K < 2 ^ 32)
    (hK : (K : ℤ) ≤ Pred.maxVal .slt w) : s.block = .exit ∨ Advances P K mem s := by
  cases hb : s.block with
  | batchHeader => exact .inr (advances_batchHeader hs hmin hK hb)
  | inner => exact .inr (advances_inner hs hmax hb)
  | batchLatch => exact .inr (advances_batchLatch hs hmin hb)
  | cleanupPH => exact .inr (advances_cleanupPH hs (by omega) hb)
  | cleanup => exact .inr (advances_cleanup hs hb)
  | cleanupStore => exact .inr (advances_cleanupStore hs hb)
  | cleanupTest => exact .inr (advances_cleanupTest hs hb)
  | exit => exact .inl rfl

/-! ## The handler -/

omit [DecidableEq D] in
/-- The published progress is an index of the loop, at most one batch behind the
iterations that have run. -/
theorem Sim.lag (hs : Sim P K mem n s) (hmin : 1 ≤ K) :
    ∃ base ≤ n, s.progress = P.indexAt base ∧ n ≤ base + K := by
  have hat := hs.atBlock
  rw [AtBlock] at hat
  split at hat
  · exact ⟨n, le_rfl, hat.2.1, by omega⟩
  · obtain ⟨-, base, hprog, hn, hlt, -⟩ := hat
    exact ⟨base, by omega, hprog, by omega⟩
  · obtain ⟨-, base, hprog, hn⟩ := hat
    exact ⟨base, by omega, hprog, by omega⟩
  · exact ⟨n, le_rfl, hat.2.1, by omega⟩
  · exact ⟨n, le_rfl, hat.2.1, by omega⟩
  · obtain ⟨base, hn, -, hprog⟩ := hat
    exact ⟨base, by omega, hprog, by omega⟩
  · obtain ⟨base, hn, -, hprog⟩ := hat
    exact ⟨n, le_rfl, hprog, by omega⟩
  · exact ⟨n, le_rfl, hat.2.1, by omega⟩

omit [DecidableEq D] in
/-- A lowered bound still admits the batch or the iteration under way. -/
theorem AtBlock.lower {bound : BitVec w} {base : ℕ} (hat : AtBlock P K mem s n)
    (hle : P.predicate.val P.start + n ≤ P.predicate.val s.bound) (hmin : 1 ≤ K)
    (hval : P.predicate.val s.progress = P.predicate.val P.start + base)
    (hgt : P.predicate.val P.start + base + K < P.predicate.val s.bound)
    (hbound : P.predicate.val bound = P.predicate.val P.start + base + K) :
    AtBlock P K mem { s with bound := bound } n := by
  have hbase : ∀ b, b ≤ n → s.progress = P.indexAt b → b = base := by
    intro b hb hprog
    exact P.eq_of_val_indexAt (b := s.bound) (by omega) hprog hval
  rw [AtBlock] at hat ⊢
  cases hb : s.block <;> simp only [hb] at hat ⊢
  case batchHeader => exact ⟨hat.1, hat.2.1, fun _ => by omega⟩
  case inner =>
    obtain ⟨hphi, b, hprog, hn, hlt, -⟩ := hat
    have := hbase b (by omega) hprog
    exact ⟨hphi, b, hprog, hn, hlt, by omega⟩
  case batchLatch => exact hat
  case cleanupPH => exact ⟨hat.1, hat.2.1, fun _ => by omega⟩
  case cleanup =>
    have := hbase n le_rfl hat.2.1
    exact ⟨hat.1, hat.2.1, by omega⟩
  case cleanupStore => exact hat
  case cleanupTest => exact hat
  case exit =>
    have := hbase n le_rfl hat.2.1
    omega

omit [DecidableEq D] in
theorem sim_handler (hs : Sim P K mem n s) (hmin : 1 ≤ K) : Sim P K mem n (handler P K s) := by
  obtain ⟨base, hbase, hprog, hlag⟩ := hs.lag hmin
  have hle := hs.le_bound
  have hval : P.predicate.val s.progress = P.predicate.val P.start + base := by
    rw [hprog, P.val_indexAt (b := s.bound) (by omega)]
  rw [handler]
  split
  · next hgt =>
    have hmaxVal := P.predicate.val_le_maxVal s.bound
    have hbound : P.predicate.val (s.progress + BitVec.ofNat w K) =
        P.predicate.val P.start + base + K := by
      rw [P.predicate.val_add_ofNat _ _ (by omega), hval]
    refine ⟨hs.ran_eq, hs.mem_eq, ?_, hs.atBlock.lower hle hmin hval (by omega) hbound⟩
    show _ ≤ P.predicate.val (s.progress + BitVec.ofNat w K)
    omega
  · exact hs

omit [DecidableEq D] in
theorem handler_block : (handler P K s).block = s.block := by
  rw [handler]
  split <;> rfl

variable (P mem) in
theorem certificate (hmin : 1 ≤ K) (hmax : K < 2 ^ 32) (hK : (K : ℤ) ≤ Pred.maxVal .slt w) :
    Certificate (step P K) (handler P K) (fun _ s => ∃ n, Sim P K mem n s) (measure P) := by
  apply Certificate.of_simulation
  · exact fun s => step_eq_none
  · intro s hb
    rwa [handler_block]
  · exact fun n s hs => advances_or_exit hs hmin hmax hK
  · exact fun n s hs => sim_handler hs hmin

theorem sim_enter (env : Env m D V) {bound : BitVec w}
    (hlt : P.predicate.lt P.start bound = true) : Sim P K mem 0 (enter P env mem bound) := by
  have hlt := (Pred.lt_iff _ _ _).mp hlt
  refine ⟨rfl, rfl, ?_, rfl, ?_, fun _ => hlt⟩
  · show P.predicate.val P.start + (0 : ℕ) ≤ P.predicate.val bound
    push_cast; omega
  · simp [enter, LoopProtocol.indexAt]

omit [DecidableEq D] in
/-- What the body has run on reads as the integers from the start on, without a wrap. -/
theorem Sim.ran_val (hs : Sim P K mem n s) :
    s.ran.map P.predicate.val =
      Int.range (P.predicate.val P.start) (P.predicate.val P.start + n) := by
  rw [hs.ran_eq]
  exact P.val_indexAt_range hs.le_bound

omit [DecidableEq D] in
theorem Sim.next_val (hs : Sim P K mem n s) {i : BitVec w} (hi : i ∈ s.ran) :
    P.predicate.val (i + 1) = P.predicate.val i + 1 := by
  have hle := hs.le_bound
  rw [hs.ran_eq, List.mem_map] at hi
  obtain ⟨k, hk, rfl⟩ := hi
  rw [List.mem_range] at hk
  have hnext : P.indexAt k + 1 = P.indexAt (k + 1) := by
    simp only [LoopProtocol.indexAt, BitVec.add_assoc, BitVec.ofNat_add]
    rfl
  rw [hnext, P.val_indexAt (b := s.bound) (by push_cast; omega),
    P.val_indexAt (b := s.bound) (by omega)]
  push_cast
  ring

end

/-- A batch fits the signed reading of both index types. -/
theorem batch_le_maxVal {K : ℕ} (hw : w = 32 ∨ w = 64) (hK : K ≤ SporkMaxBatch) :
    (K : ℤ) ≤ Pred.maxVal .slt w := by
  have : (K : ℤ) ≤ 1024 := by exact_mod_cast hK
  rcases hw with rfl | rfl
  · exact this.trans (by decide)
  · exact this.trans (by decide)

/-- **The batched loop preserves the interruptible loop.** Whenever the bound is lowered,
and also when it never is, the rewritten code leaves after some `n ≥ 1` iterations, with
the bound read as `start + n`: it has run the body on `start, start + 1, …` once each and
without a wrap, has published the bound as its progress, and has brought memory and every
exit PHI to where the original loop has them after `n` iterations. -/
theorem formBatchedLoop_preserves [DecidableEq D] (P : LoopProtocol w m V M D X)
    (hw : w = 32 ∨ w = 64) (K : ℕ) (hmin : 2 ≤ K) (hmax : K ≤ SporkMaxBatch)
    (bound : BitVec w) (hlt : P.predicate.lt P.start bound = true)
    (env : Env m D V) (mem : M) (t : Option ℕ) :
    ∃ (s : State w m V M D X) (n : ℕ),
      EndsIn (step P K) (handler P K) t (enter P env mem bound) s ∧
      s.block = .exit ∧ 1 ≤ n ∧
      P.predicate.val s.bound = P.predicate.val P.start + n ∧
      s.ran.map P.predicate.val = Int.range (P.predicate.val P.start) (P.predicate.val s.bound) ∧
      (∀ i ∈ s.ran, P.predicate.val (i + 1) = P.predicate.val i + 1) ∧
      s.progress = s.bound ∧
      s.mem = (P.after mem n).2 ∧
      s.result = some (P.exitAfter mem n) := by
  have hK : K < 2 ^ 32 := lt_of_le_of_lt hmax (by decide)
  obtain ⟨s, hends, ⟨n, hs⟩, hhalt⟩ :=
    (certificate P mem (by omega) hK (batch_le_maxVal hw hmax)).exec_total t
      (enter P env mem bound) ⟨0, sim_enter env hlt⟩
  have hexit := step_eq_none.mp hhalt
  have hat := hs.atBlock
  simp only [AtBlock, hexit] at hat
  obtain ⟨hn, hprog, hbound, hresult⟩ := hat
  refine ⟨s, n, hends, hexit, hn, hbound, ?_, fun i => hs.next_val, ?_, hs.mem_eq, hresult⟩
  · rw [hbound]; exact hs.ran_val
  · refine P.predicate.val_injective ?_
    rw [hprog, P.val_indexAt hs.le_bound, hbound]

/-- A loop that sums its unsigned index. -/
def sumLoop : LoopProtocol 32 2 (BitVec 32) Unit Bool Unit where
  predicate := .ult
  index := id
  init := ![5, 0]
  latchVal := ![.inLoop false, .inLoop true]
  inductionIndex := 0
  nextInduction := false
  exitPhi _ := .inLoop true
  body phis mem := (fun d => if d then phis 1 + phis 0 else phis 0 + 1, mem)
  latch_induction := rfl
  next_eq _ _ := rfl
  exit_latch := by
    intro x d h
    cases h
    exact ⟨1, rfl⟩

/-- What the SSA values hold before they are assigned. -/
def zeroEnv : Env 2 Bool (BitVec 32) :=
  ⟨fun _ => 0#32, fun _ => 0#32, fun _ => 0#32, fun _ => 0#32, fun _ => 0#32, fun _ => 0#32,
    fun _ => 0#32⟩

/-- Batches of four from 5 up to 20, the bound lowered to 9 during the first batch. -/
theorem formBatchedLoop_preserves_sumLoop :
    ∃ (s : State 32 2 (BitVec 32) Unit Bool Unit) (n : ℕ),
      EndsIn (step sumLoop 4) (handler sumLoop 4) (some 3)
        (enter sumLoop zeroEnv () 20) s ∧
      s.ran.map Pred.ult.val = Int.range 5 (Pred.ult.val s.bound) ∧
      s.progress = s.bound ∧ s.result = some (sumLoop.exitAfter () n) := by
  obtain ⟨s, n, hends, -, -, -, hran, -, hprog, -, hresult⟩ :=
    formBatchedLoop_preserves sumLoop (.inl rfl) 4 (by decide) (by decide) 20 (by decide)
      zeroEnv () (some 3)
  exact ⟨s, n, hends, hran, hprog, hresult⟩

end Spork.Unroll.FormBatchedLoop
