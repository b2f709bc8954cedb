import Spork.Unroll.FormBatchedLoop

/-!
# The clone chain and its cleanup loop

The other pass has LLVM unroll the loop first. `formBatchedLoopWithCleanup` then takes a
chain of `Count` checked copies of the loop, deletes all but the last progress store and
exit test, guards the entry and the last latch by a batch guard for the batch to come, and
appends the original loop to clean up. Its cleanup PHIs merge what the preheader has, when
no batch fits at all, with what the last copy leaves.

## Main definitions

* `CloneChain` — the copies of a loop, `unrollLoop` for plain copies.
* `formBatchedLoopWithCleanup` — the operands and branches of the rewritten code.
* `step`, `handler` — its blocks, and the replacement of the bound.
* `Sim` — the simulation by the original loop.
* `formBatchedLoopWithCleanup_preserves`.
-/
namespace Spork.Unroll.Cleanup

open LLVM Interrupt
open FormBatchedLoop (LoopProtocol Operand)

/-! ## The batch guard -/

/-- The batch guard: the addition is checked for every `count`. -/
def createBatchGuard {w bw cw : ℕ} (t : ExitTest w bw cw) (base : BitVec w) (count : ℕ)
    (bound : BitVec bw) : Bool :=
  let offset := BitVec.ofNat w (count - 1)
  let last := base + offset
  let overflow :=
    if t.predicate.isSigned then base.saddOverflow offset else base.uaddOverflow offset
  !overflow && t.predicate.lt (t.nextCasts last) (t.boundCasts bound)

/-- On a direct compare the guard asks for the whole batch, and its last index has not
wrapped if it holds. -/
theorem createBatchGuard_iff {w : ℕ} (p : Pred) (base bound : BitVec w) {count : ℕ}
    (h₁ : 1 ≤ count) (hc : (count : ℤ) - 1 ≤ p.maxVal w) :
    (createBatchGuard (.direct p) base count bound = true ↔
      p.val base + count ≤ p.val bound) ∧
    (createBatchGuard (.direct p) base count bound = true →
      p.val (base + BitVec.ofNat w (count - 1)) = p.val base + (count - 1)) := by
  obtain ⟨n, rfl⟩ : ∃ n, count = n + 1 := ⟨count - 1, by omega⟩
  have hb := p.val_le_maxVal bound
  have hov := guard_overflow_iff p base (n := n) (by push_cast at hc; omega)
  have hlast : p.val base + n ≤ p.maxVal w → p.val (base + BitVec.ofNat w n) = p.val base + n :=
    p.val_add_ofNat base n
  have hguard : createBatchGuard (.direct p) base (n + 1) bound = true ↔
      p.val base + n ≤ p.maxVal w ∧ p.val (base + BitVec.ofNat w n) < p.val bound := by
    rw [createBatchGuard, ExitTest.direct]
    simp only [Nat.add_sub_cancel, id, Bool.and_eq_true, Bool.not_eq_true', hov, Pred.lt_iff]
  rw [hguard, Nat.add_sub_cancel]
  push_cast
  constructor
  · constructor
    · rintro ⟨hfit, hlt⟩
      have := hlast hfit
      omega
    · intro h
      have hfit : p.val base + n ≤ p.maxVal w := by omega
      exact ⟨hfit, by rw [hlast hfit]; omega⟩
  · rintro ⟨hfit, -⟩
    rw [hlast hfit]
    ring

/-! ## The clone chain -/

variable {w m Count : ℕ} {V M D E : Type}

/-- The header PHIs as copy `c` sees them: those of the loop itself, or the latch values of
the copy before it. -/
def carried (latchVal : ℕ → Fin m → Operand E V) (phis : Fin m → V) (dfn : E → V) :
    ℕ → Fin m → V
  | 0 => phis
  | c + 1 => fun k => (latchVal c k).eval dfn

/-- What `UnrollLoop` makes of a loop: `Count` copies in a chain, each of them an iteration
with its own progress store and exit test. The instructions of the chain are named by `E`. -/
structure CloneChain (P : LoopProtocol w m V M D Empty) (Count : ℕ) (E : Type) where
  /-- The latch values of a copy. -/
  latchVal : ℕ → Fin m → Operand E V
  /-- What a copy stores as its progress, and compares. -/
  nextInduction : ℕ → E
  /-- The instructions of a copy but for the volatile operations, given the header PHIs and
  the instructions of the copies before it. -/
  copy : ℕ → (Fin m → V) → (E → V) → M → (E → V) × M
  two_le : 2 ≤ Count
  /-- The count LLVM chooses is one the index type can hold. -/
  count_le : (Count : ℤ) - 1 ≤ P.predicate.maxVal w
  copy_latch : ∀ c < Count, ∀ phis dfn mem k,
    (latchVal c k).eval (copy c phis dfn mem).1 =
      (P.latchVal k).eval (P.body (carried latchVal phis dfn c) mem).1
  copy_mem : ∀ c < Count, ∀ phis dfn mem,
    (copy c phis dfn mem).2 = (P.body (carried latchVal phis dfn c) mem).2
  copy_next : ∀ c < Count, ∀ phis dfn mem,
    P.index ((copy c phis dfn mem).1 (nextInduction c)) =
      P.index ((P.body (carried latchVal phis dfn c) mem).1 P.nextInduction)

/-- An operand in copy `c`. -/
def cloneOperand (c : ℕ) : Operand D V → Operand (ℕ × D) V
  | .inLoop d => .inLoop (c, d)
  | .outside v => .outside v

/-- The chain of plain copies. -/
def unrollLoop (P : LoopProtocol w m V M D Empty) (two_le : 2 ≤ Count)
    (count_le : (Count : ℤ) - 1 ≤ P.predicate.maxVal w) : CloneChain P Count (ℕ × D) where
  latchVal c k := cloneOperand c (P.latchVal k)
  nextInduction c := (c, P.nextInduction)
  copy c phis dfn mem :=
    let r := P.body (carried (fun c k => cloneOperand c (P.latchVal k)) phis dfn c) mem
    (fun e => if e.1 = c then r.1 e.2 else dfn e, r.2)
  two_le := two_le
  count_le := count_le
  copy_latch c _ phis dfn mem k := by
    cases P.latchVal k <;> simp [cloneOperand, Operand.eval]
  copy_mem c _ phis dfn mem := rfl
  copy_next c _ phis dfn mem := by simp

/-! ## The rewritten code -/

/-- The SSA values of the rewritten function. -/
inductive Value (m : ℕ) (D E V : Type)
  | outside (v : V)
  /-- Header PHIs and instructions of the chain. -/
  | phi (k : Fin m)
  | dfn (e : E)
  /-- `.spork.cleanup.start` PHIs. -/
  | start (k : Fin m)
  /-- Header PHIs and instructions of the cleanup loop. -/
  | cleanupPhi (k : Fin m)
  | cleanupDfn (d : D)

/-- How a copy ends, in place of its exit test. -/
inductive Branch
  /-- Unconditionally in the next copy. -/
  | next
  /-- In the guard of the next batch. -/
  | batchGuard
  deriving DecidableEq, Repr

/-- The operands of the PHIs, by the edge they are received on, those of the guards, and what
is left of the store and the test of each copy. -/
structure BatchedLoop (m : ℕ) (D E V : Type) where
  headerFromPreheader : Fin m → Value m D E V
  headerFromFinalLatch : Fin m → Value m D E V
  startFromPreheader : Fin m → Value m D E V
  startFromFinalLatch : Fin m → Value m D E V
  cleanupFromCleanupPreheader : Fin m → Value m D E V
  cleanupFromCleanup : Fin m → Value m D E V
  entryBase : Value m D E V
  nextBase : Value m D E V
  cleanupBase : Value m D E V
  stored : ℕ → Option (Value m D E V)
  branch : ℕ → Branch

/-- The operand as the chain sees it. -/
def chainOperand : Operand E V → Value m D E V
  | .inLoop e => .dfn e
  | .outside v => .outside v

/-- The operand mapped through the clone of the original loop. -/
def cleanupOperand : Operand D V → Value m D E V
  | .inLoop d => .cleanupDfn d
  | .outside v => .outside v

/-- What the header PHIs receive from the last copy. -/
def finalValues {P : LoopProtocol w m V M D Empty} (U : CloneChain P Count E) (k : Fin m) :
    Value m D E V :=
  chainOperand (U.latchVal (Count - 1) k)

/-- The rewiring of `formBatchedLoopWithCleanup`. The first `Count - 1` copies lose their
store and their test. -/
def formBatchedLoopWithCleanup (P : LoopProtocol w m V M D Empty) (U : CloneChain P Count E) :
    BatchedLoop m D E V where
  headerFromPreheader k := .outside (P.init k)
  headerFromFinalLatch := finalValues U
  startFromPreheader k := .outside (P.init k)
  startFromFinalLatch := finalValues U
  cleanupFromCleanupPreheader := .start
  cleanupFromCleanup k := cleanupOperand (P.latchVal k)
  entryBase := .outside (P.init P.inductionIndex)
  nextBase := finalValues U P.inductionIndex
  cleanupBase := .start P.inductionIndex
  stored c := if c + 1 < Count then none else some (.dfn (U.nextInduction c))
  branch c := if c + 1 < Count then .next else .batchGuard

/-- The blocks of the rewritten code. Each copy is divided at its store and at its branch,
and the block of the cleanup loop at its two volatile operations. -/
inductive Block
  | preheader
  | copy (c : ℕ)
  | store (c : ℕ)
  | latch (c : ℕ)
  | cleanupPreheader
  | cleanup
  | cleanupStore
  | cleanupTest
  | exit
  deriving DecidableEq, Repr

/-- Values of the PHIs and instructions. -/
structure Env (m : ℕ) (D E V : Type) where
  phi : Fin m → V
  dfn : E → V
  start : Fin m → V
  cleanupPhi : Fin m → V
  cleanupDfn : D → V

/-- The value of an SSA value. -/
def Env.eval (env : Env m D E V) : Value m D E V → V
  | .outside v => v
  | .phi k => env.phi k
  | .dfn e => env.dfn e
  | .start k => env.start k
  | .cleanupPhi k => env.cleanupPhi k
  | .cleanupDfn d => env.cleanupDfn d

/-- What can be seen of a loop: the body runs on an index, or progress is published. -/
inductive Event (w : ℕ)
  | run (i : BitVec w)
  | publish (v : BitVec w)
  deriving DecidableEq, Repr

/-- A guard that has been evaluated. -/
structure Guard (w : ℕ) where
  base : BitVec w
  count : ℕ
  bound : BitVec w
  ready : Bool
  deriving DecidableEq, Repr

/-- A state of the rewritten function: SSA values, memory, the two volatile slots, and what
has happened. -/
structure State (w m : ℕ) (V M D E : Type) where
  block : Block
  env : Env m D E V
  mem : M
  progress : BitVec w
  bound : BitVec w
  trace : List (Event w)
  guards : List (Guard w)

section
variable (P : LoopProtocol w m V M D Empty)

/-- A guard, on a fresh load of the bound. -/
def State.guard (s : State w m V M D E) (base : Value m D E V) (count : ℕ) : Guard w :=
  let b := P.index (s.env.eval base)
  ⟨b, count, s.bound, createBatchGuard (.direct P.predicate) b count s.bound⟩

variable {P} (U : CloneChain P Count E)

/-- One block of the rewritten function, up to its branch. -/
def step (s : State w m V M D E) : Option (State w m V M D E) :=
  let T := formBatchedLoopWithCleanup P U
  match s.block with
  | .preheader =>
      let g := s.guard P T.entryBase Count
      let s := { s with guards := s.guards ++ [g] }
      if g.ready then
        some { s with
          env := { s.env with phi := fun k => s.env.eval (T.headerFromPreheader k) }
          block := .copy 0 }
      else
        some { s with
          env := { s.env with start := fun k => s.env.eval (T.startFromPreheader k) }
          block := .cleanupPreheader }
  | .copy c =>
      let r := U.copy c s.env.phi s.env.dfn s.mem
      some { s with
        env := { s.env with dfn := r.1 }
        mem := r.2
        trace := s.trace ++
          [.run (P.index (carried U.latchVal s.env.phi s.env.dfn c P.inductionIndex))]
        block := .store c }
  | .store c =>
      match T.stored c with
      | none => some { s with block := .latch c }
      | some v =>
          some { s with
            progress := P.index (s.env.eval v)
            trace := s.trace ++ [.publish (P.index (s.env.eval v))]
            block := .latch c }
  | .latch c =>
      match T.branch c with
      | .next => some { s with block := .copy (c + 1) }
      | .batchGuard =>
          let g := s.guard P T.nextBase Count
          let s := { s with guards := s.guards ++ [g] }
          if g.ready then
            some { s with
              env := { s.env with phi := fun k => s.env.eval (T.headerFromFinalLatch k) }
              block := .copy 0 }
          else
            some { s with
              env := { s.env with start := fun k => s.env.eval (T.startFromFinalLatch k) }
              block := .cleanupPreheader }
  | .cleanupPreheader =>
      let g := s.guard P T.cleanupBase 1
      let s := { s with guards := s.guards ++ [g] }
      if g.ready then
        some { s with
          env := { s.env with
            cleanupPhi := fun k => s.env.eval (T.cleanupFromCleanupPreheader k) }
          block := .cleanup }
      else
        some { s with block := .exit }
  | .cleanup =>
      let r := P.body s.env.cleanupPhi s.mem
      some { s with
        env := { s.env with cleanupDfn := r.1 }
        mem := r.2
        trace := s.trace ++ [.run (P.index (s.env.cleanupPhi P.inductionIndex))]
        block := .cleanupStore }
  | .cleanupStore =>
      let v := P.index (s.env.cleanupDfn P.nextInduction)
      some { s with
        progress := v
        trace := s.trace ++ [.publish v]
        block := .cleanupTest }
  | .cleanupTest =>
      if P.predicate.lt (P.index (s.env.cleanupDfn P.nextInduction)) s.bound then
        some { s with
          env := { s.env with cleanupPhi := fun k => s.env.eval (T.cleanupFromCleanup k) }
          block := .cleanup }
      else
        some { s with block := .exit }
  | .exit => none

variable (P)

/-- The rewritten function entered at its preheader, the progress slot holding the start
index. -/
def enter (env : Env m D E V) (mem : M) (bound : BitVec w) : State w m V M D E where
  block := .preheader
  env := env
  mem := mem
  progress := P.start
  bound := bound
  trace := []
  guards := []

/-- The bound is replaced by `progress + Count` when more than `Count` iterations remain. -/
def handler (Count : ℕ) (s : State w m V M D E) : State w m V M D E :=
  if P.predicate.val s.bound - P.predicate.val s.progress > Count then
    { s with bound := s.progress + BitVec.ofNat w Count }
  else s


/-! ## The simulation -/

/-- The events of the original loop in its first `n` iterations. -/
def traceAfter (n : ℕ) : List (Event w) :=
  (List.range n).flatMap fun k => [.run (P.indexAt k), .publish (P.indexAt (k + 1))]

/-- The indices the body has run on. -/
def runs (trace : List (Event w)) : List (BitVec w) :=
  trace.filterMap fun e => match e with
    | .run i => some i
    | .publish _ => none

/-- An iteration has run, and its progress may be published. -/
def Unpublished (trace : List (Event w)) (n : ℕ) : Prop :=
  ∃ k, n = k + 1 ∧ trace.Sublist (traceAfter P k ++ [.run (P.indexAt k)])

/-- A guard answers as the integers do, and does not hold on a sum that has wrapped. -/
structure Guard.Exact (g : Guard w) : Prop where
  ready_iff : g.ready = true ↔ P.predicate.val g.base + g.count ≤ P.predicate.val g.bound
  no_wrap : g.ready = true →
    P.predicate.val (g.base + BitVec.ofNat w (g.count - 1)) =
      P.predicate.val g.base + (g.count - 1)

/-- The copies of a batch from `base` on: after `n` iterations copy `c` is reached, and the
bound admits the whole batch. -/
structure InBatch (Count : ℕ) (progress bound : BitVec w) (n c base : ℕ) : Prop where
  count : n = base + c
  progress : progress = P.indexAt base
  admitted : P.predicate.val P.start + base + Count ≤ P.predicate.val bound

variable {P}

/-- What holds in each block after `n` iterations. -/
def AtBlock (mem : M) (s : State w m V M D E) (n : ℕ) : Prop :=
  match s.block with
  | .preheader =>
      n = 0 ∧ s.progress = P.indexAt 0 ∧ P.predicate.val P.start < P.predicate.val s.bound
  | .copy c =>
      carried U.latchVal s.env.phi s.env.dfn c = (P.after mem n).1 ∧ c < Count ∧
        ∃ base, InBatch P Count s.progress s.bound n c base
  | .store c =>
      carried U.latchVal s.env.phi s.env.dfn (c + 1) = (P.after mem n).1 ∧ c < Count ∧
        P.index (s.env.dfn (U.nextInduction c)) = P.indexAt n ∧ Unpublished P s.trace n ∧
        ∃ base, InBatch P Count s.progress s.bound n (c + 1) base
  | .latch c =>
      carried U.latchVal s.env.phi s.env.dfn (c + 1) = (P.after mem n).1 ∧ c < Count ∧ 1 ≤ n ∧
        if c + 1 < Count then ∃ base, InBatch P Count s.progress s.bound n (c + 1) base
        else s.progress = P.indexAt n
  | .cleanupPreheader =>
      s.env.start = (P.after mem n).1 ∧ s.progress = P.indexAt n ∧
        (n = 0 → P.predicate.val P.start < P.predicate.val s.bound)
  | .cleanup =>
      s.env.cleanupPhi = (P.after mem n).1 ∧ s.progress = P.indexAt n ∧
        P.predicate.val P.start + n < P.predicate.val s.bound
  | .cleanupStore =>
      ∃ base, n = base + 1 ∧ s.env.cleanupDfn = P.defs mem base ∧ s.progress = P.indexAt base ∧
        Unpublished P s.trace n
  | .cleanupTest =>
      ∃ base, n = base + 1 ∧ s.env.cleanupDfn = P.defs mem base ∧ s.progress = P.indexAt n
  | .exit =>
      1 ≤ n ∧ s.progress = P.indexAt n ∧ P.predicate.val s.bound = P.predicate.val P.start + n

/-- The simulation relation after `n` iterations: the body has run on the first indices, what
can be seen is what can be seen of the original loop less some progress stores, the memory is
that of the original loop, and the bound has not been passed. -/
structure Sim (mem : M) (n : ℕ) (s : State w m V M D E) : Prop where
  runs_eq : runs s.trace = (List.range n).map P.indexAt
  sublist : s.trace.Sublist (traceAfter P n)
  mem_eq : s.mem = (P.after mem n).2
  le_bound : P.predicate.val P.start + n ≤ P.predicate.val s.bound
  guards : ∀ g ∈ s.guards, g.Exact P
  atBlock : AtBlock U mem s n

/-- What a block weighs when `rem` iterations are left. -/
def Block.weight (rem : ℕ) : Block → ℕ
  | preheader => 4 * rem + 2
  | copy _ => 4 * rem + 1
  | store _ => 4 * rem + 4
  | latch _ => 4 * rem + 3
  | cleanupPreheader => 4 * rem + 1
  | cleanup => 4 * rem
  | cleanupStore => 4 * rem + 3
  | cleanupTest => 4 * rem + 2
  | exit => 0

variable (P) in
/-- Iterations left, and within them the blocks left. -/
def measure (s : State w m V M D E) : ℕ :=
  s.block.weight (P.predicate.val s.bound - P.predicate.val P.start - (runs s.trace).length).toNat

theorem traceAfter_succ (n : ℕ) : traceAfter P (n + 1) =
    traceAfter P n ++ [.run (P.indexAt n), .publish (P.indexAt (n + 1))] := by
  simp [traceAfter, List.range_succ]

@[simp] theorem runs_run (trace : List (Event w)) (i : BitVec w) :
    runs (trace ++ [.run i]) = runs trace ++ [i] := by
  simp [runs]

@[simp] theorem runs_publish (trace : List (Event w)) (v : BitVec w) :
    runs (trace ++ [.publish v]) = runs trace := by
  simp [runs]

/-- An iteration may stay unpublished. -/
theorem Unpublished.sublist {trace : List (Event w)} {n : ℕ} (h : Unpublished P trace n) :
    trace.Sublist (traceAfter P n) := by
  obtain ⟨k, rfl, hsub⟩ := h
  rw [traceAfter_succ]
  refine hsub.trans (List.Sublist.append_left ?_ _)
  simp

/-- It is published before the next one runs. -/
theorem Unpublished.publish {trace : List (Event w)} {n : ℕ} (h : Unpublished P trace n) :
    (trace ++ [Event.publish (P.indexAt n)]).Sublist (traceAfter P n) := by
  obtain ⟨k, rfl, hsub⟩ := h
  rw [traceAfter_succ]
  have happ := hsub.append (List.Sublist.refl [Event.publish (P.indexAt (k + 1))])
  simpa using happ

variable {U} {mem : M} {n : ℕ} {s s' : State w m V M D E}

theorem Sim.measure_eq (hs : Sim U mem n s) :
    measure P s =
      s.block.weight (P.predicate.val s.bound - P.predicate.val P.start - n).toNat := by
  rw [measure, hs.runs_eq, List.length_map, List.length_range]

/-- The next iteration runs. -/
theorem Sim.run (hs : Sim U mem n s) :
    runs (s.trace ++ [.run (P.indexAt n)]) = (List.range (n + 1)).map P.indexAt ∧
    Unpublished P (s.trace ++ [.run (P.indexAt n)]) (n + 1) := by
  constructor
  · rw [runs_run, hs.runs_eq, List.range_succ, List.map_append]
    rfl
  · exact ⟨n, rfl, hs.sublist.append (List.Sublist.refl _)⟩

/-- A guard taken after `n` iterations. -/
theorem Sim.guard (hs : Sim U mem n s) {base : Value m D E V} {count : ℕ}
    (hbase : P.index (s.env.eval base) = P.indexAt n) (h₁ : 1 ≤ count)
    (hc : (count : ℤ) - 1 ≤ P.predicate.maxVal w) :
    (∀ g ∈ s.guards ++ [s.guard P base count], g.Exact P) ∧
    ((s.guard P base count).ready = true ↔
      P.predicate.val P.start + n + count ≤ P.predicate.val s.bound) := by
  have hg := createBatchGuard_iff P.predicate (P.index (s.env.eval base)) s.bound h₁ hc
  refine ⟨List.forall_mem_append.mpr ⟨hs.guards, List.forall_mem_singleton.mpr ⟨hg.1, hg.2⟩⟩, ?_⟩
  have hready := hg.1
  rw [hbase, P.val_indexAt hs.le_bound] at hready
  rw [← hready, ← hbase]
  rfl

theorem eval_chainOperand (o : Operand E V) (env : Env m D E V) :
    env.eval (chainOperand o) = o.eval env.dfn := by
  cases o <;> rfl

theorem eval_cleanupOperand (o : Operand D V) (env : Env m D E V) :
    env.eval (cleanupOperand o) = o.eval env.cleanupDfn := by
  cases o <;> rfl


/-! ## One lemma per block -/

/-- The state goes on to one in which the simulation holds with less left to do. -/
def Advances (U : CloneChain P Count E) (mem : M) (s : State w m V M D E) : Prop :=
  ∃ s' n', step U s = some s' ∧ Sim U mem n' s' ∧ measure P s' < measure P s

/-- A step to a block of less weight. -/
theorem Sim.advances (hs : Sim U mem n s)
    (h : ∃ s' n', step U s = some s' ∧ Sim U mem n' s' ∧
      s'.block.weight (P.predicate.val s'.bound - P.predicate.val P.start - n').toNat <
        s.block.weight (P.predicate.val s.bound - P.predicate.val P.start - n).toNat) :
    Advances U mem s := by
  obtain ⟨s', n', hstep, hs', hlt⟩ := h
  exact ⟨s', n', hstep, hs', by rwa [hs.measure_eq, hs'.measure_eq]⟩

theorem advances_preheader (hs : Sim U mem n s) (hb : s.block = .preheader) :
    Advances U mem s := by
  have hat := hs.atBlock
  simp only [AtBlock, hb] at hat
  obtain ⟨rfl, hprog, hpos⟩ := hat
  have htwo := U.two_le
  have hbase : P.index (s.env.eval (formBatchedLoopWithCleanup P U).entryBase) = P.indexAt 0 :=
    P.index_after mem 0
  obtain ⟨hguards, hready⟩ := hs.guard hbase (by omega) U.count_le
  by_cases hg : (s.guard P (formBatchedLoopWithCleanup P U).entryBase Count).ready = true
  · refine hs.advances ?_
    simp only [step, hb, if_pos hg]
    refine ⟨_, _, rfl, ⟨hs.runs_eq, hs.sublist, hs.mem_eq, hs.le_bound, hguards, ?_⟩,
      by simp only [Block.weight]; omega⟩
    exact ⟨rfl, by omega, 0, rfl, hprog, hready.mp hg⟩
  · refine hs.advances ?_
    simp only [step, hb, if_neg hg]
    refine ⟨_, _, rfl, ⟨hs.runs_eq, hs.sublist, hs.mem_eq, hs.le_bound, hguards, ?_⟩,
      by simp only [Block.weight]; omega⟩
    exact ⟨rfl, hprog, fun _ => hpos⟩

theorem advances_copy {c : ℕ} (hs : Sim U mem n s) (hb : s.block = .copy c) :
    Advances U mem s := by
  have hat := hs.atBlock
  simp only [AtBlock, hb] at hat
  obtain ⟨hphi, hc, base, hn, hprog, hroom⟩ := hat
  have hi : P.index (carried U.latchVal s.env.phi s.env.dfn c P.inductionIndex) = P.indexAt n := by
    rw [hphi, P.index_after]
  obtain ⟨hruns, hunp⟩ := hs.run
  have hlatch := U.copy_latch c hc s.env.phi s.env.dfn s.mem
  have hmem := U.copy_mem c hc s.env.phi s.env.dfn s.mem
  have hnext := U.copy_next c hc s.env.phi s.env.dfn s.mem
  rw [hphi, hs.mem_eq] at hlatch hmem hnext
  have hle : P.predicate.val P.start + (n + 1 : ℕ) ≤ P.predicate.val s.bound := by
    push_cast
    omega
  refine hs.advances ?_
  simp only [step, hb, hi]
  refine ⟨_, n + 1, rfl, ⟨hruns, hunp.sublist, ?_, hle, hs.guards, ?_⟩,
    by simp only [Block.weight]; push_cast; omega⟩
  · show (U.copy c s.env.phi s.env.dfn s.mem).2 = _
    rw [hs.mem_eq, hmem]
    rfl
  · refine ⟨?_, hc, ?_, hunp, base, by omega, hprog, hroom⟩
    · funext k
      show (U.latchVal c k).eval (U.copy c s.env.phi s.env.dfn s.mem).1 = _
      rw [hs.mem_eq, hlatch k]
      rfl
    · show P.index ((U.copy c s.env.phi s.env.dfn s.mem).1 _) = _
      rw [hs.mem_eq, hnext]
      exact P.index_next mem n

theorem advances_store {c : ℕ} (hs : Sim U mem n s) (hb : s.block = .store c) :
    Advances U mem s := by
  have hat := hs.atBlock
  simp only [AtBlock, hb] at hat
  obtain ⟨hphi, hc, hnext, hunp, base, hin⟩ := hat
  have hn := hin.count
  by_cases hlast : c + 1 < Count
  · refine hs.advances ?_
    simp only [step, hb, formBatchedLoopWithCleanup, if_pos hlast]
    refine ⟨_, n, rfl, ⟨hs.runs_eq, hs.sublist, hs.mem_eq, hs.le_bound, hs.guards, ?_⟩,
      by simp only [Block.weight]; omega⟩
    refine ⟨hphi, hc, by omega, ?_⟩
    rw [if_pos hlast]
    exact ⟨base, hin.count, hin.progress, hin.admitted⟩
  · refine hs.advances ?_
    simp only [step, hb, formBatchedLoopWithCleanup, if_neg hlast, Env.eval, hnext]
    refine ⟨_, n, rfl, ⟨?_, hunp.publish, hs.mem_eq, hs.le_bound, hs.guards, ?_⟩,
      by simp only [Block.weight]; omega⟩
    · rw [runs_publish, hs.runs_eq]
    · refine ⟨hphi, hc, by omega, ?_⟩
      rw [if_neg hlast]

theorem advances_latch {c : ℕ} (hs : Sim U mem n s) (hb : s.block = .latch c) :
    Advances U mem s := by
  have hat := hs.atBlock
  simp only [AtBlock, hb] at hat
  obtain ⟨hphi, hc, hn, hat⟩ := hat
  by_cases hlast : c + 1 < Count
  · rw [if_pos hlast] at hat
    obtain ⟨base, hin⟩ := hat
    refine hs.advances ?_
    simp only [step, hb, formBatchedLoopWithCleanup, if_pos hlast]
    refine ⟨_, n, rfl, ⟨hs.runs_eq, hs.sublist, hs.mem_eq, hs.le_bound, hs.guards, ?_⟩,
      by simp only [Block.weight]; omega⟩
    exact ⟨hphi, hlast, base, hin.count, hin.progress, hin.admitted⟩
  · rw [if_neg hlast] at hat
    have htwo := U.two_le
    have hfinal : ∀ k, s.env.eval (finalValues U k) = (P.after mem n).1 k := by
      intro k
      have hcount : Count - 1 = c := by omega
      rw [finalValues, hcount, eval_chainOperand, ← hphi]
      rfl
    have hbase : P.index (s.env.eval (formBatchedLoopWithCleanup P U).nextBase) = P.indexAt n := by
      rw [← P.index_after mem, ← hfinal]
      rfl
    obtain ⟨hguards, hready⟩ := hs.guard hbase (by omega) U.count_le
    have hbranch : (formBatchedLoopWithCleanup P U).branch c = .batchGuard := if_neg hlast
    by_cases hg : (s.guard P (formBatchedLoopWithCleanup P U).nextBase Count).ready = true
    · refine hs.advances ?_
      simp only [step, hb, hbranch, if_pos hg]
      refine ⟨_, n, rfl, ⟨hs.runs_eq, hs.sublist, hs.mem_eq, hs.le_bound, hguards, ?_⟩,
        by simp only [Block.weight]; omega⟩
      exact ⟨funext hfinal, by omega, n, rfl, hat, hready.mp hg⟩
    · refine hs.advances ?_
      simp only [step, hb, hbranch, if_neg hg]
      refine ⟨_, n, rfl, ⟨hs.runs_eq, hs.sublist, hs.mem_eq, hs.le_bound, hguards, ?_⟩,
        by simp only [Block.weight]; omega⟩
      exact ⟨funext hfinal, hat, fun h0 => by omega⟩

theorem advances_cleanupPreheader (hs : Sim U mem n s) (hb : s.block = .cleanupPreheader) :
    Advances U mem s := by
  have hat := hs.atBlock
  simp only [AtBlock, hb] at hat
  obtain ⟨hstart, hprog, hpos⟩ := hat
  have htwo := U.two_le
  have hcount := U.count_le
  have hbase : P.index (s.env.eval (formBatchedLoopWithCleanup P U).cleanupBase) = P.indexAt n := by
    rw [← P.index_after mem, ← hstart]
    rfl
  obtain ⟨hguards, hready⟩ := hs.guard hbase le_rfl (by push_cast; omega)
  have hle := hs.le_bound
  by_cases hg : (s.guard P (formBatchedLoopWithCleanup P U).cleanupBase 1).ready = true
  · have hg' := hready.mp hg
    refine hs.advances ?_
    simp only [step, hb, if_pos hg]
    refine ⟨_, n, rfl, ⟨hs.runs_eq, hs.sublist, hs.mem_eq, hle, hguards, ?_⟩,
      by simp only [Block.weight]; omega⟩
    exact ⟨hstart, hprog, by show _ < P.predicate.val s.bound; omega⟩
  · have hg' := mt hready.mpr hg
    have hn : 1 ≤ n := by
      rcases Nat.eq_zero_or_pos n with h0 | h0
      · have := hpos h0
        omega
      · exact h0
    refine hs.advances ?_
    simp only [step, hb, if_neg hg]
    refine ⟨_, n, rfl, ⟨hs.runs_eq, hs.sublist, hs.mem_eq, hle, hguards, ?_⟩,
      by simp only [Block.weight]; omega⟩
    exact ⟨hn, hprog, by show P.predicate.val s.bound = _; omega⟩

theorem advances_cleanup (hs : Sim U mem n s) (hb : s.block = .cleanup) : Advances U mem s := by
  have hat := hs.atBlock
  simp only [AtBlock, hb] at hat
  obtain ⟨hphi, hprog, hlt⟩ := hat
  have hi : P.index (s.env.cleanupPhi P.inductionIndex) = P.indexAt n := by
    rw [hphi, P.index_after]
  obtain ⟨hruns, hunp⟩ := hs.run
  have hle : P.predicate.val P.start + (n + 1 : ℕ) ≤ P.predicate.val s.bound := by
    push_cast
    omega
  refine hs.advances ?_
  simp only [step, hb, hi]
  refine ⟨_, n + 1, rfl, ⟨hruns, hunp.sublist, ?_, hle, hs.guards, ?_⟩,
    by simp only [Block.weight]; push_cast; omega⟩
  · rw [hphi, hs.mem_eq]
    rfl
  · refine ⟨n, rfl, ?_, hprog, hunp⟩
    rw [hphi, hs.mem_eq]
    rfl

theorem advances_cleanupStore (hs : Sim U mem n s) (hb : s.block = .cleanupStore) :
    Advances U mem s := by
  have hat := hs.atBlock
  simp only [AtBlock, hb] at hat
  obtain ⟨base, rfl, hdfn, hprog, hunp⟩ := hat
  have hnext : P.index (s.env.cleanupDfn P.nextInduction) = P.indexAt (base + 1) := by
    rw [hdfn, P.index_next]
  refine hs.advances ?_
  simp only [step, hb, hnext]
  refine ⟨_, base + 1, rfl, ⟨?_, hunp.publish, hs.mem_eq, hs.le_bound, hs.guards, ?_⟩,
    by simp only [Block.weight]; omega⟩
  · rw [runs_publish, hs.runs_eq]
  · exact ⟨base, rfl, hdfn, rfl⟩

theorem advances_cleanupTest (hs : Sim U mem n s) (hb : s.block = .cleanupTest) :
    Advances U mem s := by
  have hat := hs.atBlock
  simp only [AtBlock, hb] at hat
  obtain ⟨base, rfl, hdfn, hprog⟩ := hat
  have hle := hs.le_bound
  have hnext : P.index (s.env.cleanupDfn P.nextInduction) = P.indexAt (base + 1) := by
    rw [hdfn, P.index_next]
  have htest : P.predicate.lt (P.index (s.env.cleanupDfn P.nextInduction)) s.bound = true ↔
      P.predicate.val P.start + (base + 1 : ℕ) < P.predicate.val s.bound := by
    rw [Pred.lt_iff, hnext, P.val_indexAt hle]
  by_cases ht : P.predicate.lt (P.index (s.env.cleanupDfn P.nextInduction)) s.bound = true
  · refine hs.advances ?_
    simp only [step, hb, if_pos ht]
    refine ⟨_, base + 1, rfl, ⟨hs.runs_eq, hs.sublist, hs.mem_eq, hle, hs.guards, ?_⟩,
      by simp only [Block.weight]; omega⟩
    refine ⟨funext fun k => ?_, hprog, htest.mp ht⟩
    simp only [formBatchedLoopWithCleanup, eval_cleanupOperand, hdfn, P.after_succ]
  · have ht' := mt htest.mpr ht
    refine hs.advances ?_
    simp only [step, hb, if_neg ht]
    refine ⟨_, base + 1, rfl, ⟨hs.runs_eq, hs.sublist, hs.mem_eq, hle, hs.guards, ?_⟩,
      by simp only [Block.weight]; omega⟩
    exact ⟨by omega, hprog, by show P.predicate.val s.bound = _; omega⟩


theorem step_eq_none : step U s = none ↔ s.block = .exit := by
  rw [step]
  cases s.block with
  | store c =>
    simp only [reduceCtorEq, iff_false]
    cases (formBatchedLoopWithCleanup P U).stored c <;> simp
  | latch c =>
    simp only [reduceCtorEq, iff_false]
    cases (formBatchedLoopWithCleanup P U).branch c
    · simp
    · simp only
      split <;> simp
  | _ => simp <;> split <;> simp

theorem advances_or_exit (hs : Sim U mem n s) : s.block = .exit ∨ Advances U mem s := by
  cases hb : s.block with
  | preheader => exact .inr (advances_preheader hs hb)
  | copy c => exact .inr (advances_copy hs hb)
  | store c => exact .inr (advances_store hs hb)
  | latch c => exact .inr (advances_latch hs hb)
  | cleanupPreheader => exact .inr (advances_cleanupPreheader hs hb)
  | cleanup => exact .inr (advances_cleanup hs hb)
  | cleanupStore => exact .inr (advances_cleanupStore hs hb)
  | cleanupTest => exact .inr (advances_cleanupTest hs hb)
  | exit => exact .inl rfl

/-! ## The handler -/

/-- The published progress is an index of the loop, at most one batch behind the iterations
that have run. -/
theorem Sim.lag (hs : Sim U mem n s) :
    ∃ base ≤ n, s.progress = P.indexAt base ∧ n ≤ base + Count := by
  have hat := hs.atBlock
  have htwo := U.two_le
  rw [AtBlock] at hat
  cases hb : s.block <;> simp only [hb] at hat
  case preheader => exact ⟨0, by omega, hat.2.1, by omega⟩
  case copy c =>
    obtain ⟨-, hc, base, hn, hprog, -⟩ := hat
    exact ⟨base, by omega, hprog, by omega⟩
  case store c =>
    obtain ⟨-, hc, -, -, base, hn, hprog, -⟩ := hat
    exact ⟨base, by omega, hprog, by omega⟩
  case latch c =>
    obtain ⟨-, hc, -, hat⟩ := hat
    by_cases hlast : c + 1 < Count
    · rw [if_pos hlast] at hat
      obtain ⟨base, hn, hprog, -⟩ := hat
      exact ⟨base, by omega, hprog, by omega⟩
    · rw [if_neg hlast] at hat
      exact ⟨n, le_rfl, hat, by omega⟩
  case cleanupPreheader => exact ⟨n, le_rfl, hat.2.1, by omega⟩
  case cleanup => exact ⟨n, le_rfl, hat.2.1, by omega⟩
  case cleanupStore =>
    obtain ⟨base, hn, -, hprog, -⟩ := hat
    exact ⟨base, by omega, hprog, by omega⟩
  case cleanupTest =>
    obtain ⟨base, hn, -, hprog⟩ := hat
    exact ⟨n, le_rfl, hprog, by omega⟩
  case exit => exact ⟨n, le_rfl, hat.2.1, by omega⟩

/-- A lowered bound admits the batch or the iteration under way. -/
theorem AtBlock.lower {bound : BitVec w} {base : ℕ} (htwo : 2 ≤ Count) (hat : AtBlock U mem s n)
    (hle : P.predicate.val P.start + n ≤ P.predicate.val s.bound)
    (hval : P.predicate.val s.progress = P.predicate.val P.start + base)
    (hbound : P.predicate.val bound = P.predicate.val P.start + base + Count)
    (hgt : P.predicate.val bound < P.predicate.val s.bound) :
    AtBlock U mem { s with bound := bound } n := by
  have hbase : ∀ b, b ≤ n → s.progress = P.indexAt b → b = base := by
    intro b hb hprog
    exact P.eq_of_val_indexAt (b := s.bound) (by omega) hprog hval
  have hbatch : ∀ c, (∃ b, InBatch P Count s.progress s.bound n c b) →
      ∃ b, InBatch P Count s.progress bound n c b := by
    rintro c ⟨b, hn, hprog, -⟩
    have := hbase b (by omega) hprog
    exact ⟨b, hn, hprog, by omega⟩
  rw [AtBlock] at hat ⊢
  cases hb : s.block <;> simp only [hb] at hat ⊢
  case preheader => exact ⟨hat.1, hat.2.1, by omega⟩
  case copy c => exact ⟨hat.1, hat.2.1, hbatch _ hat.2.2⟩
  case store c => exact ⟨hat.1, hat.2.1, hat.2.2.1, hat.2.2.2.1, hbatch _ hat.2.2.2.2⟩
  case latch c =>
    obtain ⟨hphi, hc, hn, hat⟩ := hat
    refine ⟨hphi, hc, hn, ?_⟩
    by_cases hlast : c + 1 < Count
    · rw [if_pos hlast] at hat ⊢
      exact hbatch _ hat
    · rw [if_neg hlast] at hat ⊢
      exact hat
  case cleanupPreheader => exact ⟨hat.1, hat.2.1, fun _ => by omega⟩
  case cleanup =>
    have := hbase n le_rfl hat.2.1
    exact ⟨hat.1, hat.2.1, by omega⟩
  case cleanupStore => exact hat
  case cleanupTest => exact hat
  case exit =>
    have := hbase n le_rfl hat.2.1
    omega

theorem sim_handler (hs : Sim U mem n s) : Sim U mem n (handler P Count s) := by
  obtain ⟨base, hbase, hprog, hlag⟩ := hs.lag
  have hle := hs.le_bound
  have hval : P.predicate.val s.progress = P.predicate.val P.start + base := by
    rw [hprog, P.val_indexAt (b := s.bound) (by omega)]
  rw [handler]
  split
  · next hgt =>
    have hmax := P.predicate.val_le_maxVal s.bound
    have hbound : P.predicate.val (s.progress + BitVec.ofNat w Count) =
        P.predicate.val P.start + base + Count := by
      rw [P.predicate.val_add_ofNat _ _ (by omega), hval]
    refine ⟨hs.runs_eq, hs.sublist, hs.mem_eq, ?_, hs.guards,
      hs.atBlock.lower U.two_le hle hval hbound (by omega)⟩
    show _ ≤ P.predicate.val (s.progress + BitVec.ofNat w Count)
    omega
  · exact hs

theorem handler_block : (handler P Count s).block = s.block := by
  rw [handler]
  split <;> rfl

variable (U mem) in
theorem certificate :
    Certificate (step U) (handler P Count) (fun _ s => ∃ n, Sim U mem n s) (measure P) := by
  apply Certificate.of_simulation
  · exact fun s => step_eq_none
  · intro s hb
    rwa [handler_block]
  · exact fun n s hs => advances_or_exit hs
  · exact fun n s hs => sim_handler hs

theorem sim_enter (env : Env m D E V) {bound : BitVec w}
    (hlt : P.predicate.lt P.start bound = true) : Sim U mem 0 (enter P env mem bound) := by
  have hlt := (Pred.lt_iff _ _ _).mp hlt
  refine ⟨rfl, List.Sublist.refl _, rfl, ?_, List.forall_mem_nil _, rfl, ?_, hlt⟩
  · show P.predicate.val P.start + (0 : ℕ) ≤ P.predicate.val bound
    push_cast
    omega
  · simp [enter, LoopProtocol.indexAt]

/-- The indices the body has run on read as consecutive integers. -/
theorem Sim.runs_val (hs : Sim U mem n s) :
    (runs s.trace).map P.predicate.val =
      Int.range (P.predicate.val P.start) (P.predicate.val P.start + n) := by
  rw [hs.runs_eq]
  exact P.val_indexAt_range hs.le_bound

end

/-- A loop that sums its index in memory. -/
def sumLoop : LoopProtocol 32 1 (BitVec 32) (BitVec 32) Unit Empty where
  predicate := .slt
  index := id
  init := ![5]
  latchVal _ := .inLoop ()
  inductionIndex := 0
  nextInduction := ()
  exitPhi x := x.elim
  body phis mem := (fun _ => phis 0 + 1, mem + phis 0)
  latch_induction := rfl
  next_eq _ _ := rfl
  exit_latch x := x.elim

end Spork.Unroll.Cleanup
