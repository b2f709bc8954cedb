import Spork.Parfor.Parfor

/-!
# The front end of `parfor`, and ranges with nothing in them

`parfor` takes every index type. One wider than `sig_atomic_t` is moved into 32 bits, by
blocks if need be, after an early return on a range with nothing in it; one that fits goes
straight to `parfor_`. There the loop does exit at once, but the promotion handler, which
may run before it does, measures the range by `loop_end - ssi` without asking whether the
range is the right way round.

## Main definitions

* `parfor`, `blockBody` — the source.
* `DoesNothing` — what a call on an empty or reversed range should amount to.
* `Idle` — the states of the loop on such a range, and `idle_step` the step lemma.
* `parfor_doesNothing_iff`.
-/
namespace Spork.Parfor.Front

open CInt ForkJoin

section
variable {L V E S : Type}

/-- The value of an operator, if it has one. -/
def value {A : Type} (x : Option ℤ) (k : ℤ → Prog L V E A) : Prog L V E A :=
  match x with
  | none => .ub
  | some x => k x

variable [Monoid S]

/-- The loop body of the block branch: one block of the range `[i, j)`. -/
def blockBody (ty : IntTy) (K : List Site → ℤ) (o : Oracle) (fuel : ℕ) (path : List Site)
    (body : ℤ → S → Prog L V E S) (i j block : ℤ) (a : S) : Prog L V E S :=
  let offset := ty.wrap (block <<< (30 : ℕ))
  value (ty.arith (j - i)) fun n =>
  value (ty.arith (n - 1)) fun m =>
  value (ty.arith ((1 : ℤ) + (m >>> (30 : ℕ)))) fun last =>
  value (if block = last then (ty.arith (block + 1)).map fun b : ℤ => ty.wrap (b <<< (30 : ℕ))
    else ty.arith (n - offset)) fun block_end =>
  value (ty.arith (i + offset)) fun base =>
  parfor_ (.machine .uint32) (K (.body block :: path)) o
    (fun k a => value (ty.arith (base + ty.wrap k)) fun x => body x a) fuel
    (.body block :: path) 0 (IntTy.uint32.wrap block_end) a

/-- `parfor`. `K` gives the unroll factor that the call at a path is told. -/
def parfor (ty : IntTy) (K : List Site → ℤ) (o : Oracle) :
    ℕ → List Site → (ℤ → S → Prog L V E S) → ℤ → ℤ → S → Prog L V E S
  | 0, _, _, _, _, _ => .ub
  | fuel + 1, path, body, i, j, a =>
      if ty.bits ≤ IntTy.int.bits then parfor_ (.machine ty) (K path) o body fuel path i j a
      else if i ≥ j then .ret a
      else if ty.signed ∧ i ≥ IntTy.int.min ∧ j ≤ IntTy.int.max then
        parfor_ (.machine .int) (K path) o (fun k a => body (ty.wrap k) a) fuel path
          (IntTy.int.wrap i) (IntTy.int.wrap j) a
      else if ¬ty.signed ∧ j ≤ 0xFFFFFFFF then
        parfor_ (.machine .uint32) (K path) o (fun k a => body (ty.wrap k) a) fuel path
          (IntTy.uint32.wrap i) (IntTy.uint32.wrap j) a
      else
        value (ty.arith (j - i)) fun n =>
        if n ≤ 0xFFFFFFFF then
          parfor_ (.machine .uint32) (K path) o
            (fun k a => value (ty.arith (i + ty.wrap k)) fun x => body x a) fuel path
            0 (IntTy.uint32.wrap n) a
        else
          value (ty.arith (n - 1)) fun m =>
          value (ty.arith ((1 : ℤ) + (m >>> (30 : ℕ)))) fun num_blocks =>
          parfor ty K o fuel path (blockBody ty K o fuel path body i j) 0 num_blocks a

variable (L V E S) in
/-- A call on `[i, j)` has nothing to do: whatever its body and under every schedule it
leaves the accumulator alone, like `seqfor`, and at whichever step of its loop a heartbeat
comes, the handler enqueues no job. -/
structure DoesNothing (ty : IntTy) (K i j : ℤ) : Prop where
  returns : ∀ (factor : List Site → ℤ) (o : Oracle) (fuel : ℕ) (path : List Site)
    (body : ℤ → S → Prog L V E S) (a : S), factor path = K →
    parfor ty factor o (fuel + 2) path body i j a = .ret a
  seqfor_returns : ∀ (n : ℕ) (body : ℤ → S → Prog L V E S) (a : S),
    seqfor (.machine ty) body (n + 1) i j a = .ret a
  enqueues : ty.bits ≤ IntTy.int.bits → ∀ t c,
    (Loop.enter (.machine ty) i j).run (.machine ty) t = some c →
      ∃ p, promotion (.machine ty) K j c.vars = some p ∧ p.enqueued = []

end

/-! ## The loop on a range with nothing in it -/

/-- The loop has not left its entry, or has left by the exit. -/
structure Idle (ar : Arith) (i j : ℤ) (c : Loop) : Prop where
  vars : c.vars = ⟨i, ar.toSig i, j⟩
  pc : c.pc = .test ∨ c.pc = .done

section
variable {L V E S : Type} {ar : Arith} {i j : ℤ} {c : Loop}

theorem idle_enter : Idle ar i j (Loop.enter ar i j) := ⟨rfl, .inl rfl⟩

/-- A step of an idle loop runs no body and changes no variable. -/
theorem idle_step (hij : j ≤ i) (h : Idle ar i j c) (body : ℤ → S → Prog L V E S) (a : S) :
    ∃ c', c.step ar = some c' ∧ c'.pc = .done ∧ Idle ar i j c' ∧
      loopStep ar body (c, a) = .ret (c', a) := by
  obtain ⟨vars, pc⟩ := c
  obtain ⟨hvars, hpc⟩ := h
  simp only at hvars hpc
  subst hvars
  rcases hpc with rfl | rfl
  · have hlt : ¬i < j := not_lt.mpr hij
    refine ⟨⟨⟨i, ar.toSig i, j⟩, .done⟩, ?_, rfl, ⟨rfl, .inr rfl⟩, ?_⟩
    · simp [Loop.step, hlt]
    · simp [loopStep, Loop.step, hlt]
  · exact ⟨⟨⟨i, ar.toSig i, j⟩, .done⟩, rfl, rfl, ⟨rfl, .inr rfl⟩, by simp [loopStep, Loop.step]⟩

/-- However many steps are taken. -/
theorem idle_run (hij : j ≤ i) (body : ℤ → S → Prog L V E S) (a : S) (t : ℕ)
    (h : Idle ar i j c) :
    ∃ c', c.run ar t = some c' ∧ Idle ar i j c' ∧ runSteps ar body t (c, a) = .ret (c', a) := by
  induction t generalizing c with
  | zero => exact ⟨c, rfl, h, rfl⟩
  | succ t ih =>
    obtain ⟨c₁, hstep, -, h₁, hloop⟩ := idle_step hij h body a
    obtain ⟨c', hrun, h', hsteps⟩ := ih h₁
    refine ⟨c', ?_, h', ?_⟩
    · simp [Loop.run, hstep, hrun]
    · simp [runSteps, hloop, hsteps]

/-- The idle loop leaves the accumulator alone. -/
theorem idle_runLoop (hij : j ≤ i) (h : Idle ar i j c) (body : ℤ → S → Prog L V E S) (a : S) :
    runLoop ar body (c, a) = .ret a := by
  obtain ⟨c', -, hdone, -, hloop⟩ := idle_step hij h body a
  have hfin : ∀ n, finish ar body (n + 2) (c, a) = .ret (c', a) ∨
      finish ar body (n + 2) (c, a) = .ret (c, a) := by
    intro n
    simp only [finish, hloop, Prog.ret_bind, hdone, if_true]
    split
    · exact .inr rfl
    · exact .inl rfl
  have hbudget : c.budget = 1 + 2 := by
    have : (j - i).toNat = 0 := by omega
    simp [Loop.budget, h.vars, this]
  rw [runLoop]
  show (finish ar body c.budget (c, a)).bind _ = _
  rw [hbudget]
  rcases hfin 1 with h | h <;> simp [h]

/-- A call whose handler splits nothing while the loop is idle. -/
theorem parfor_idle [Monoid S] {K : ℤ} (hij : j ≤ i)
    (h : promotion ar K j ⟨i, ar.toSig i, j⟩ = some ⟨j, ⟨0, 0⟩, ⟨0, 0⟩, []⟩) (o : Oracle)
    (body : ℤ → S → Prog L V E S) (fuel : ℕ) (path : List Site) (a : S) :
    parfor_ ar K o body (fuel + 1) path i j a = .ret a := by
  rw [parfor_]
  cases (o path).promoted with
  | none => exact idle_runLoop hij idle_enter body a
  | some t =>
    have henter : Idle ar i j (Loop.enter ar i j) := idle_enter
    obtain ⟨⟨vars, pc⟩, -, hc, hsteps⟩ := idle_run hij body a t henter
    obtain rfl : vars = _ := hc.vars
    simp only [hsteps, Prog.ret_bind, h, afterHandler_none]
    exact idle_runLoop hij hc body a

end

/-! ## The handler on such a range -/

section
variable {ar : Arith} {K i j r : ℤ} {v : LoopVars}

theorem promotion_short (h : ar.op (v.loop_end - ar.conv v.sig_safe_i) = some r)
    (hr : r ≤ ar.conv K) : promotion ar K j v = some ⟨v.loop_end, ⟨0, 0⟩, ⟨0, 0⟩, []⟩ := by
  simp [promotion, h, hr]

/-- The handler enqueues nothing when it finds the rest short, and only then. -/
theorem promotion_enqueues_nothing_iff
    (h : ar.op (v.loop_end - ar.conv v.sig_safe_i) = some r) :
    (∃ p, promotion ar K j v = some p ∧ p.enqueued = []) ↔ r ≤ ar.conv K := by
  constructor
  · intro ⟨p, hp, hnone⟩
    by_contra hr
    simp only [promotion, h, hr, Option.bind_eq_bind, Option.bind_some, if_false,
      Option.bind_eq_some_iff, Option.pure_def] at hp
    obtain ⟨prom, -, mid, -, hp⟩ := hp
    split at hp <;> simp only [Option.some.injEq] at hp <;> simp [← hp] at hnone
  · intro hr
    exact ⟨_, promotion_short h hr, rfl⟩

variable {ty : IntTy}

/-- `loop_end - ssi` on a reversed range of `uint32_t` wraps. -/
theorem rest_uint32 (hb : ty.bits = 32) (hs : ¬ty.signed) (hi : ty.InRange i)
    (hj : ty.InRange j) (hij : j ≤ i) :
    ty.arith (j - i) = some (if i = j then 0 else 2 ^ 32 - (i - j)) := by
  obtain ⟨bits, signed, hw⟩ := ty
  obtain rfl : bits = 32 := hb
  cases signed
  · simp only [IntTy.InRange, IntTy.min, IntTy.max, Bool.false_eq_true, if_false] at hi hj
    simp only [IntTy.arith, IntTy.promote, lt_irrefl, if_false, Bool.false_eq_true, IntTy.wrap]
    congr 1
    split <;> omega
  · simp at hs

/-- In every other type that fits `sig_atomic_t` it is exact. -/
theorem rest_exact (hw : ty.bits ≤ 32) (h : ¬(ty.bits = 32 ∧ ¬ty.signed)) (hi : ty.InRange i)
    (hj : ty.InRange j) (hsub : ty.signed → (ty.arith (j - i)).isSome) :
    ty.arith (j - i) = some (j - i) := by
  by_cases hb : ty.bits = 32
  · have hs : ty.signed := by
      by_contra hs
      exact h ⟨hb, hs⟩
    have hp : ty.promote = ty := by rw [IntTy.promote, if_neg (by omega)]
    have hsome := hsub hs
    rw [IntTy.arith, hp, if_pos hs] at hsome ⊢
    split at hsome
    · next hr => rw [if_pos hr]
    · cases hsome
  · apply IntTy.arith_of_promote
    obtain ⟨bits, signed, hbits⟩ := ty
    rcases hbits with rfl | rfl | rfl | rfl <;> cases signed <;>
      simp_all [IntTy.InRange, IntTy.promote, IntTy.min, IntTy.max, IntTy.int] <;> omega

/-- The handler's view of what remains, which a call with nothing to do must find short. -/
theorem doesNothing_of_rest {L V E S : Type} [Monoid S] (hw : ty.bits ≤ 32)
    (hi : ty.InRange i) (hij : j ≤ i) (h : ty.arith (j - i) = some r) :
    DoesNothing L V E S ty K i j ↔ r ≤ ty.wrap K := by
  have hbits : ty.bits ≤ IntTy.int.bits := hw
  have hssi : ty.wrap (IntTy.int.wrap i) = i := IntTy.wrap_wrap_int hw hi
  have hrest : ∀ v : LoopVars, v = ⟨i, IntTy.int.wrap i, j⟩ →
      (Arith.machine ty).op (v.loop_end - (Arith.machine ty).conv v.sig_safe_i) = some r := by
    intro v hv
    rw [hv]
    simpa only [Arith.machine, hssi] using h
  constructor
  · intro hd
    exact (promotion_enqueues_nothing_iff (hrest _ rfl)).mp (hd.enqueues hbits 0 _ rfl)
  · intro hr
    refine ⟨fun factor o fuel path body a hK => ?_, fun n body a => ?_, fun _ t c hrun => ?_⟩
    · rw [parfor, if_pos hbits, hK]
      exact parfor_idle hij (promotion_short (hrest _ rfl) hr) o body fuel path a
    · rw [seqfor, if_neg (not_lt.mpr hij)]
    · obtain ⟨c', hrun', hc, -⟩ := idle_run hij (L := Unit) (V := Unit) (E := Unit)
        (fun _ (_ : Unit) => .ret ()) () t (idle_enter : Idle (.machine ty) i j _)
      obtain rfl : c = c' := Option.some.inj (hrun.symm.trans hrun')
      exact (promotion_enqueues_nothing_iff (hrest _ hc.vars)).mpr hr

end

/-- **Empty and reversed ranges.** With `i ≥ j`, and `j - i` defined in a signed type, a
call does nothing exactly when the type is wider than `sig_atomic_t`, or is `uint32_t` and
the range is empty or its wrapped length is at most the factor, or is any other type and
`j - i` is at most the factor as a value of the type. -/
theorem parfor_doesNothing_iff {L V E S : Type} [Monoid S] {ty : IntTy} {K i j : ℤ}
    (hi : ty.InRange i) (hj : ty.InRange j) (hij : i ≥ j)
    (hsub : ty.signed → (ty.arith (j - i)).isSome) (hK : 1 ≤ K) (hK' : K < 2 ^ 32) :
    DoesNothing L V E S ty K i j ↔
      32 < ty.bits ∨
      (ty.bits = 32 ∧ ¬ty.signed ∧ (i = j ∨ 2 ^ 32 - (i - j) ≤ K)) ∨
      (ty.bits ≤ 32 ∧ ¬(ty.bits = 32 ∧ ¬ty.signed) ∧ j - i ≤ ty.wrap K) := by
  by_cases hw : ty.bits ≤ 32
  · by_cases hu : ty.bits = 32 ∧ ¬ty.signed
    · have hwK : ty.wrap K = K := by
        apply IntTy.wrap_of_inRange
        simp only [IntTy.InRange, IntTy.min, IntTy.max, hu.1, if_neg hu.2]
        omega
      rw [doesNothing_of_rest hw hi hij (rest_uint32 hu.1 hu.2 hi hj hij), hwK]
      by_cases heq : i = j
      · rw [if_pos heq]
        exact iff_of_true (by omega) (.inr (.inl ⟨hu.1, hu.2, .inl heq⟩))
      · simp [heq, hu]
    · rw [doesNothing_of_rest hw hi hij (rest_exact hw hu hi hj hsub)]
      have hnot : ¬(ty.bits = 32 ∧ ¬ty.signed ∧ (i = j ∨ 2 ^ 32 - (i - j) ≤ K)) := by
        intro h
        exact hu ⟨h.1, h.2.1⟩
      simp only [hnot, hw, hu, not_lt.mpr hw, not_false_eq_true, true_and, false_or]
  · have hbits : ¬ty.bits ≤ IntTy.int.bits := hw
    refine iff_of_true ⟨?_, ?_, ?_⟩ (.inl (not_le.mp hw))
    · intro factor o fuel path body a _
      rw [parfor, if_neg hbits, if_pos hij]
    · intro n body a
      rw [seqfor, if_neg (not_lt.mpr hij)]
    · intro h
      exact absurd h hbits

/-- A reversed range of `int`. -/
theorem doesNothing_int : DoesNothing Unit Unit Unit (Multiplicative ℕ) .int 8 5 3 :=
  Iff.mpr (parfor_doesNothing_iff (by decide) (by decide) (by decide) (by decide) (by decide)
    (by decide)) (.inr (.inr (by decide)))

/-- `parfor(5u, 3u)` with a token left at its entry: two jobs are enqueued, and the loop
runs the body on 5. -/
theorem parfor_uint32_reversed :
    promotion (.machine .uint32) 1 3 (Loop.enter (.machine .uint32) 5 3).vars =
        some ⟨6, ⟨6, 2147483652⟩, ⟨2147483652, 3⟩, [.r, .l]⟩ ∧
      ¬DoesNothing Unit Unit Unit (Multiplicative ℕ) .uint32 1 5 3 := by
  have hprom : promotion (.machine .uint32) 1 3 (Loop.enter (.machine .uint32) 5 3).vars =
      some ⟨6, ⟨6, 2147483652⟩, ⟨2147483652, 3⟩, [.r, .l]⟩ := by decide
  refine ⟨hprom, fun h => ?_⟩
  obtain ⟨p, hp, hnone⟩ := h.enqueues (by decide) 0 _ rfl
  rw [hprom, Option.some.injEq] at hp
  simp [← hp] at hnone

end Spork.Parfor.Front
