import Spork.Parfor.Loop
import Mathlib.Algebra.BigOperators.Group.List.Basic
import Mathlib.Algebra.FreeMonoid.Basic
import Mathlib.Tactic.Ring

/-!
# `parfor_`

The parallel loop. Its body may act on the memory and folds a value into an
accumulator; a promotion hands the upper part of the range to jobs that start from the
identity, are run beside the loop or after it, and are themselves `parfor_`. What is left
open (whether and when the handler runs in a call, and which jobs are stolen) is read
off an oracle, at the path of the call.

## Main definitions

* `Site`, `Choice`, `Oracle` — paths of calls, and the choices made at them.
* `parfor_` — the source.
* `parfor_shape` — what a call amounts to.
* `parfor_wp`, `parfor_safe` — its rules, from those of the body.
* `parfor_eq_seqfor` — for a body that folds `f`, under every schedule.
-/
namespace Spork.Parfor

open CInt ForkJoin IntRange

/-- A call within a call: the job of one half of a `parfor_`, the body at an index, or a
call named by its position. -/
inductive Site
  | job (h : Half)
  | body (k : ℤ)
  | call (n : ℕ)
  deriving DecidableEq, Repr

/-- What is left open in one call of `parfor_`. -/
structure Choice where
  /-- The number of loop steps before the handler runs, if it does. -/
  promoted : Option ℕ
  stolen : Half → Bool

/-- The choices of every call, by its path, innermost site first. -/
abbrev Oracle := List Site → Choice

section
variable {L V E S : Type} [Monoid S]

/-- A job that may not have been enqueued. -/
def enqueue {B C : Type} (enqueued stolen : Bool) (own : Prog L V E B) (job : Prog L V E C) :
    Prog L V E (B × Option C) :=
  if enqueued then (spawn stolen own job).bind fun r => .ret (r.1, some r.2)
  else own.bind fun b => .ret (b, none)

/-- The join of a job. Waiting for a job that was never enqueued, and leaving one that
was, have no behaviour. -/
def join (synced : Bool) (r : S × Option S) : Prog L V E S :=
  match synced, r.2 with
  | true, some b => .ret (r.1 * b)
  | false, none => .ret r.1
  | _, _ => .ub

/-- The call from the promotion on: what is left of the loop beside the jobs that the
handler enqueued, `r` before `l`, and the joins, `l` before `r`. -/
def afterHandler (stolen : Half → Bool) (loop : Prog L V E S) (p : Promotion)
    (job : Half → Prog L V E S) : Prog L V E S :=
  let left := (enqueue (p.enqueued.contains .l) (stolen .l) loop (job .l)).bind
    (join (p.l.i < p.l.j))
  (enqueue (p.enqueued.contains .r) (stolen .r) left (job .r)).bind (join (p.r.i < p.r.j))

/-- The loop up to its exit, and the accumulator it leaves. -/
def runLoop (ar : Arith) (body : ℤ → S → Prog L V E S) (s : Loop × S) : Prog L V E S :=
  (finish ar body s.1.budget s).bind fun s => .ret s.2

/-- `parfor_`, with the unroll factor `K`. -/
def parfor_ (ar : Arith) (K : ℤ) (o : Oracle) (body : ℤ → S → Prog L V E S) :
    ℕ → List Site → ℤ → ℤ → S → Prog L V E S
  | 0, _, _, _, _ => .ub
  | fuel + 1, path, i, j, a =>
      match (o path).promoted with
      | none => runLoop ar body (Loop.enter ar i j, a)
      | some t =>
          (runSteps ar body t (Loop.enter ar i j, a)).bind fun s =>
            match promotion ar K j s.1.vars with
            | none => .ub
            | some p =>
                let c := { s.1 with vars := { s.1.vars with loop_end := p.loop_end } }
                afterHandler (o path).stolen (runLoop ar body (c, s.2)) p fun h =>
                  parfor_ ar K o body fuel (.job h :: path) (p.job h).i (p.job h).j 1

variable {ar : Arith} {K lo hi : ℤ} {o : Oracle} {body : ℤ → S → Prog L V E S}

/-- The loop beside a job on the range `[e, j)`, and their values combined. -/
def withJob (stolen : Bool) (own job : Prog L V E S) : Prog L V E S :=
  (spawn stolen own job).bind fun r => .ret (r.1 * r.2)

variable (body) in
omit [Monoid S] in
theorem runLoop_eq (hf : ar.FaithfulOn lo hi) {c : Loop} (h : c.Ok ar lo)
    (hhi : c.vars.loop_end ≤ hi) (a : S) :
    runLoop ar body (c, a) = bodies body (Int.range c.next c.vars.loop_end) a := by
  obtain ⟨c', -, hrun⟩ := finish_eq body hf c.budget h hhi c.measure_lt_budget
  rw [runLoop, hrun, Prog.bind_assoc]
  simp only [Prog.ret_bind, Prog.bind_ret]

section
variable {stolen : Half → Bool} {loop : Prog L V E S} {job : Half → Prog L V E S} {e mid j : ℤ}

/-- No job was enqueued, and none is waited for. -/
theorem afterHandler_none : afterHandler stolen loop ⟨e, ⟨0, 0⟩, ⟨0, 0⟩, []⟩ job = loop := by
  simp [afterHandler, enqueue, join, Prog.bind_assoc]

/-- The right job alone. -/
theorem afterHandler_right (h : e < j) :
    afterHandler stolen loop ⟨e, ⟨0, 0⟩, ⟨e, j⟩, [.r]⟩ job =
      withJob (stolen .r) loop (job .r) := by
  simp [afterHandler, enqueue, join, withJob, Prog.bind_assoc, h]

/-- Both jobs. -/
theorem afterHandler_both (h₁ : e < mid) (h₂ : mid < j) :
    afterHandler stolen loop ⟨e, ⟨e, mid⟩, ⟨mid, j⟩, [.r, .l]⟩ job =
      withJob (stolen .r) (withJob (stolen .l) loop (job .l)) (job .r) := by
  simp [afterHandler, enqueue, join, withJob, Prog.bind_assoc, h₁, h₂]

end

variable (o body) in
/-- **What a call amounts to.** Either it runs its whole range itself; or it runs
`[i, x)`, then `[x, e)` beside a job on `[e, j)`; or beside two jobs on `[e, mid)` and
`[mid, j)`. -/
theorem parfor_shape (hf : ar.FaithfulOn lo hi) (hK : ar.conv K = K) (hK₁ : 1 ≤ K) (fuel : ℕ)
    (path : List Site) {i j : ℤ} (hlo : lo ≤ i) (hij : i ≤ j) (hhi : j ≤ hi) :
    (∀ a, parfor_ ar K o body (fuel + 1) path i j a = bodies body (Int.range i j) a) ∨
    (∃ x e, i ≤ x ∧ x ≤ e ∧ i < e ∧ e < j ∧
      ∀ a, parfor_ ar K o body (fuel + 1) path i j a =
        (bodies body (Int.range i x) a).bind fun b =>
          withJob ((o path).stolen .r) (bodies body (Int.range x e) b)
            (parfor_ ar K o body fuel (.job .r :: path) e j 1)) ∨
    (∃ x e mid, i ≤ x ∧ x ≤ e ∧ i < e ∧ e < mid ∧ mid < j ∧
      ∀ a, parfor_ ar K o body (fuel + 1) path i j a =
        (bodies body (Int.range i x) a).bind fun b =>
          withJob ((o path).stolen .r)
            (withJob ((o path).stolen .l) (bodies body (Int.range x e) b)
              (parfor_ ar K o body fuel (.job .l :: path) e mid 1))
            (parfor_ ar K o body fuel (.job .r :: path) mid j 1)) := by
  have hf' : ar.FaithfulOn i hi := hf.mono hlo le_rfl
  have henter : (Loop.enter ar i j).Ok ar i := Loop.ok_enter hij
  have hnext : (Loop.enter ar i j).next = i := rfl
  have hend : (Loop.enter ar i j).vars.loop_end = j := rfl
  cases ht : (o path).promoted with
  | none =>
    refine .inl fun a => ?_
    simp only [parfor_, ht]
    rw [runLoop_eq body hf' henter (by rw [hend]; exact hhi), hnext, hend]
  | some t =>
    obtain ⟨c, -, hok, hce, hle, hrun⟩ := runSteps_eq body hf' t henter (by rw [hend]; exact hhi)
    rw [hnext] at hle hrun
    rw [hend] at hce
    have hlag := c.lag
    have hprog := hok.lo_le
    have hnle := hok.next_le
    have hprom := promotion_eq (j := j) hf' hK (by omega) hok.progress hprog (by omega)
      (by rw [hce]; exact hhi)
    rw [hce] at hprom
    rcases split_cases K j c.published j with ⟨hnone, heq⟩ | ⟨hone, heq⟩ | ⟨mid, hlo', hhi', heq⟩
    · -- too little is left
      refine .inl fun a => ?_
      have hloop := runLoop_eq body hf' hok (by omega)
      rw [bodies_range body hle (by omega)]
      simp only [parfor_, ht, hrun, Prog.bind_assoc, Prog.ret_bind, hprom, heq, afterHandler_none]
      congr 1
      funext b
      subst hce
      exact hloop b
    · -- one iteration is left for a job
      have hok' := hok.lower hK₁ (by omega)
      refine .inr (.inl ⟨c.next, c.published + K, hle, hok'.next_le, by omega, by omega,
        fun a => ?_⟩)
      simp only [parfor_, ht, hrun, Prog.bind_assoc, Prog.ret_bind, hprom, heq]
      congr 1
      funext b
      rw [afterHandler_right (by omega), runLoop_eq body hf' hok' (by simp only; omega)]
      rfl
    · have hok' := hok.lower hK₁ (by omega)
      refine .inr (.inr ⟨c.next, c.published + K, mid, hle, hok'.next_le, by omega, hlo', hhi',
        fun a => ?_⟩)
      simp only [parfor_, ht, hrun, Prog.bind_assoc, Prog.ret_bind, hprom, heq]
      congr 1
      funext b
      rw [afterHandler_both hlo' hhi', runLoop_eq body hf' hok' (by simp only; omega)]
      rfl

/-! ## Its value -/

section
variable [DecidableEq L] {I : ℤ → (L → V) → List (Act L E) → Prop} {f : ℤ → S}

/-- Sequentially, the body at `k` folds in `f k` and takes the invariant from `k` to
`k + 1`. The invariant sees the memory and the actions so far. -/
def Folds (body : ℤ → S → Prog L V E S) (lo hi : ℤ) (I : ℤ → (L → V) → List (Act L E) → Prop)
    (f : ℤ → S) : Prop :=
  ∀ k, lo ≤ k → k < hi → ∀ a m tr, I k m tr →
    Wp (body k a) (fun a' m' tr' => a' = a * f k ∧ I (k + 1) m' (tr ++ tr')) m

/-- The fold over a range, on top of an accumulator. -/
def fold (f : ℤ → S) (a : S) (i j : ℤ) : S := a * ((Int.range i j).map f).prod

theorem fold_self (f : ℤ → S) (a : S) (i : ℤ) : fold f a i i = a := by simp [fold]

theorem fold_fold (f : ℤ → S) (a : S) {i k j : ℤ} (hik : i ≤ k) (hkj : k ≤ j) :
    fold f (fold f a i k) k j = fold f a i j := by
  simp only [fold, ← range_append hik hkj, List.map_append, List.prod_append, mul_assoc]

/-- A job starts from the identity, and its value is combined on the right. -/
theorem mul_fold_one (f : ℤ → S) (a : S) (i j : ℤ) : a * fold f 1 i j = fold f a i j := by
  simp only [fold, one_mul]

omit [DecidableEq L] in
theorem fold_succ (f : ℤ → S) (a : S) {i j : ℤ} (h : i ≤ j) :
    fold f a i (j + 1) = fold f a i j * f j := by
  rw [← fold_fold f a h (by omega : j ≤ j + 1)]
  simp only [fold, range_singleton, List.map_cons, List.map_nil, List.prod_singleton]

omit [Monoid S] in
/-- The rule of a sequence of bodies: an invariant of the index, the accumulator, the
memory and the actions so far. -/
theorem bodies_wp_of {J : ℤ → S → (L → V) → List (Act L E) → Prop}
    (hbody : ∀ k, lo ≤ k → k < hi → ∀ a m tr, J k a m tr →
      Wp (body k a) (fun a' m' tr' => J (k + 1) a' m' (tr ++ tr')) m)
    {i j : ℤ} (hlo : lo ≤ i) (hij : i ≤ j) (hhi : j ≤ hi) (a : S) {m : L → V}
    {t : List (Act L E)} (hJ : J i a m t) :
    Wp (bodies body (Int.range i j) a) (fun a' m' tr' => J j a' m' (t ++ tr')) m := by
  induction hn : (j - i).toNat generalizing i a m t with
  | zero =>
    obtain rfl : i = j := by omega
    simp [bodies, hJ]
  | succ n ih =>
    have hlt : i < j := by omega
    simp only [range_eq_cons hlt, bodies, wp_bind]
    refine (hbody i hlo (by omega) a m t hJ).mono fun a' m' tr' hJ' => ?_
    refine (ih (by omega) (by omega) a' hJ' (by omega)).mono fun a'' m'' tr'' hJ'' => ?_
    simpa only [List.append_assoc] using hJ''

theorem bodies_wp (hbody : Folds body lo hi I f) {i j : ℤ} (hlo : lo ≤ i) (hij : i ≤ j)
    (hhi : j ≤ hi) (a : S) {m : L → V} {t : List (Act L E)} (hI : I i m t) :
    Wp (bodies body (Int.range i j) a)
      (fun a' m' tr' => a' = fold f a i j ∧ I j m' (t ++ tr')) m := by
  refine bodies_wp_of (J := fun k a' m tr => a' = fold f a i k ∧ I k m tr)
    ?_ le_rfl hij le_rfl a ⟨(fold_self f a i).symm, hI⟩
  rintro k h₁ h₂ a' m tr ⟨ha, hI⟩
  refine (hbody k (by omega) (by omega) a' m tr hI).mono ?_
  rintro a'' m' tr' ⟨ha', hI'⟩
  refine ⟨?_, hI'⟩
  rw [ha', ha, fold_succ f a h₁]

/-- **The value of a call.** Sequentially `parfor_` is the fold over its range, whatever
the oracle says. -/
theorem parfor_wp (hf : ar.FaithfulOn lo hi) (hK : ar.conv K = K) (hK₁ : 1 ≤ K)
    (hbody : Folds body lo hi I f) (fuel : ℕ) (path : List Site) {i j : ℤ} (hlo : lo ≤ i)
    (hij : i ≤ j) (hhi : j ≤ hi) (hfuel : (j - i).toNat < fuel) (a : S) {m : L → V}
    {t : List (Act L E)} (hI : I i m t) :
    Wp (parfor_ ar K o body fuel path i j a)
      (fun a' m' tr' => a' = fold f a i j ∧ I j m' (t ++ tr')) m := by
  induction fuel generalizing path i j a m t with
  | zero => omega
  | succ fuel ih =>
    rcases parfor_shape o body hf hK hK₁ fuel path hlo hij hhi with
      hrun | ⟨x, e, hix, hxe, hie, hej, hrun⟩ | ⟨x, e, mid, hix, hxe, hie, hem, hmj, hrun⟩
    · rw [hrun]
      exact bodies_wp hbody hlo hij hhi a hI
    · simp only [hrun, wp_bind, withJob, wp_spawn, wp_ret]
      refine (bodies_wp hbody hlo hix (by omega) a hI).mono ?_
      rintro a₁ m₁ t₁ ⟨ha₁, hI₁⟩
      refine (bodies_wp hbody (by omega) hxe (by omega) a₁ hI₁).mono ?_
      rintro a₂ m₂ t₂ ⟨ha₂, hI₂⟩
      refine (ih _ (by omega) (by omega) hhi (by omega) 1 hI₂).mono ?_
      rintro a₃ m₃ t₃ ⟨ha₃, hI₃⟩
      refine ⟨?_, by simpa only [List.append_assoc, List.append_nil] using hI₃⟩
      rw [ha₃, mul_fold_one, ha₂, ha₁, fold_fold f a hix hxe, fold_fold f a (by omega) (by omega)]
    · simp only [hrun, wp_bind, withJob, wp_spawn, wp_ret]
      refine (bodies_wp hbody hlo hix (by omega) a hI).mono ?_
      rintro a₁ m₁ t₁ ⟨ha₁, hI₁⟩
      refine (bodies_wp hbody (by omega) hxe (by omega) a₁ hI₁).mono ?_
      rintro a₂ m₂ t₂ ⟨ha₂, hI₂⟩
      refine (ih _ (by omega) (by omega) (by omega) (by omega) 1 hI₂).mono ?_
      rintro a₃ m₃ t₃ ⟨ha₃, hI₃⟩
      refine (ih _ (by omega) (by omega) hhi (by omega) 1 hI₃).mono ?_
      rintro a₄ m₄ t₄ ⟨ha₄, hI₄⟩
      refine ⟨?_, by simpa only [List.append_assoc, List.append_nil] using hI₄⟩
      rw [ha₄, mul_fold_one, ha₃, mul_fold_one, ha₂, ha₁, fold_fold f a hix hxe,
        fold_fold f a (by omega) (by omega), fold_fold f a (by omega) (by omega)]

end

/-! ## Its footprint -/

section
variable {F : ℤ → Foot L E}

/-- The indices of a range. -/
def span (i j : ℤ) : Set ℤ := {k | i ≤ k ∧ k < j}

omit [Monoid S] in
theorem bodies_safe (hbody : ∀ k, lo ≤ k → k < hi → ∀ a, Safe (F k) (body k a) fun _ => True)
    {i j : ℤ} (hlo : lo ≤ i) (hhi : j ≤ hi) (a : S) :
    Safe (.iUnion (span i j) F) (bodies body (Int.range i j) a) fun _ => True := by
  have hmem : ∀ k ∈ Int.range i j, k ∈ span i j := fun k hk => Int.mem_range_iff.mp hk
  generalize Int.range i j = ks at hmem
  induction ks generalizing a with
  | nil => trivial
  | cons k ks ih =>
    have hk := hmem k List.mem_cons_self
    have hle : (F k).Le (.iUnion (span i j) F) := Foot.le_iUnion hk
    refine ((hbody k (hlo.trans hk.1) (lt_of_lt_of_le hk.2 hhi) a).mono hle fun _ => id).bind
      fun a' _ => ?_
    exact ih a' fun k' hk' => hmem k' (List.mem_cons_of_mem _ hk')

variable (body) in
/-- **The footprint of a call.** If the bodies of different indices do not interfere,
neither do the loop and its jobs. -/
theorem parfor_safe (hf : ar.FaithfulOn lo hi) (hK : ar.conv K = K) (hK₁ : 1 ≤ K)
    (hbody : ∀ k, lo ≤ k → k < hi → ∀ a, Safe (F k) (body k a) fun _ => True)
    (hindep : ∀ k k', lo ≤ k → k < k' → k' < hi → (F k).Indep (F k')) (fuel : ℕ)
    (path : List Site) {i j : ℤ} (hlo : lo ≤ i) (hij : i ≤ j) (hhi : j ≤ hi)
    (hfuel : (j - i).toNat < fuel) (a : S) :
    Safe (.iUnion (span i j) F) (parfor_ ar K o body fuel path i j a) fun _ => True := by
  have hsplit : ∀ x y z w, lo ≤ x → y ≤ z → w ≤ hi →
      (Foot.iUnion (span x y) F).Indep (.iUnion (span z w) F) := fun x y z w hx hyz hw =>
    Foot.iUnion_indep fun k hk k' hk' => hindep k k' (hx.trans hk.1)
      (lt_of_lt_of_le hk.2 (hyz.trans hk'.1)) (lt_of_lt_of_le hk'.2 hw)
  have hsub : ∀ x y z w, z ≤ x → y ≤ w → (Foot.iUnion (span x y) F).Le (.iUnion (span z w) F) :=
    fun x y z w hx hy => Foot.iUnion_mono fun k hk => ⟨hx.trans hk.1, lt_of_lt_of_le hk.2 hy⟩
  induction fuel generalizing path i j a with
  | zero => omega
  | succ fuel ih =>
    rcases parfor_shape o body hf hK hK₁ fuel path hlo hij hhi with
      hrun | ⟨x, e, hix, hxe, hie, hej, hrun⟩ | ⟨x, e, mid, hix, hxe, hie, hem, hmj, hrun⟩
    · rw [hrun]
      exact bodies_safe hbody hlo hhi a
    · rw [hrun]
      refine ((bodies_safe hbody hlo (by omega) a).mono (hsub i x i j le_rfl (by omega))
        fun _ => id).bind fun b _ => ?_
      have hloop := bodies_safe hbody (by omega : lo ≤ x) (by omega : e ≤ hi) b
      have hjob := ih (.job .r :: path) (by omega : lo ≤ e) (by omega) hhi (by omega) 1
      exact (Safe.spawn _ hloop hjob (hsub x e i j hix (by omega)) (hsub e j i j (by omega) le_rfl)
        (hsplit x e e j (by omega) le_rfl hhi)).bind fun _ _ => trivial
    · rw [hrun]
      refine ((bodies_safe hbody hlo (by omega) a).mono (hsub i x i j le_rfl (by omega))
        fun _ => id).bind fun b _ => ?_
      have hloop := bodies_safe hbody (by omega : lo ≤ x) (by omega : e ≤ hi) b
      have hl := ih (.job .l :: path) (by omega : lo ≤ e) (by omega) (by omega : mid ≤ hi)
        (by omega) 1
      have hr := ih (.job .r :: path) (by omega : lo ≤ mid) (by omega) hhi (by omega) 1
      have hleft : Safe (.iUnion (span x mid) F) (withJob ((o path).stolen .l)
          (bodies body (Int.range x e) b) (parfor_ ar K o body fuel (.job .l :: path) e mid 1))
          fun _ => True :=
        (Safe.spawn _ hloop hl (hsub x e x mid le_rfl (by omega)) (hsub e mid x mid hxe le_rfl)
          (hsplit x e e mid (by omega) le_rfl (by omega))).bind fun _ _ => trivial
      have hright := hsub mid j i j (by omega) le_rfl
      exact (Safe.spawn _ hleft hr (hsub x mid i j hix (by omega)) hright
        (hsplit x mid mid j (by omega) le_rfl hhi)).bind fun _ _ => trivial

end
/-! ## Folding a function -/

/-- A body that folds in `f k`, its call being noted. -/
def foldBody (f : ℤ → S) (k : ℤ) (a : S) : Prog L V ℤ S := .note k (.ret (a * f k))

/-- The notes of a range of calls. -/
def noted (i j : ℤ) : List (Act L ℤ) := (Int.range i j).map .note

omit [Monoid S] in
theorem noted_succ {i k : ℤ} (h : i ≤ k) :
    (noted i (k + 1) : List (Act L ℤ)) = noted i k ++ [.note k] := by
  simp only [noted, range_succ h, List.map_append, List.map_singleton]

theorem folds_foldBody [DecidableEq L] (f : ℤ → S) (lo hi : ℤ) :
    Folds (foldBody f : ℤ → S → Prog L V ℤ S) lo hi (fun k _ tr => tr = noted lo k) f := by
  intro k hlo hhi a m tr htr
  simp [foldBody, htr, noted_succ hlo]

end

/-- **`parfor_` is the sequential loop.** For every index type no wider than
`sig_atomic_t`, every range whose length it represents, and every choice of promotions
and thefts, each schedule ends with the body called once on each index and with the
accumulator that folds the range in index order, which is the one `seqfor` computes. -/
theorem parfor_eq_seqfor {L V S : Type} [DecidableEq L] [Monoid S] (ty : IntTy)
    (hw : ty.bits ≤ 32) (f : ℤ → S) (i j : ℤ) (hi : ty.InRange i) (hj : ty.InRange j)
    (hij : i ≤ j) (hlen : ty.InRange (j - i)) (o : Oracle) (path : List Site) (a : S)
    (m : L → V) :
    AllRuns (fun a' _ tr => tr.Perm ((Int.range i j).map .note) ∧
        a' = a * ((Int.range i j).map f).prod ∧
        Wp (seqfor (.machine ty) (foldBody f) ((j - i).toNat + 1) i j a)
          (fun b _ _ => b = a') m)
      m [] (parfor_ (.machine ty) 1 o (foldBody f) ((j - i).toNat + 1) path i j a) := by
  have hf := Arith.machine_faithfulOn hw hi hj hlen.promote
  have hK : (Arith.machine ty).conv 1 = 1 :=
    IntTy.wrap_of_inRange (ty.inRange_small (by norm_num) (by norm_num))
  have hbody := folds_foldBody (L := L) (V := V) f i j
  have hstart : noted i i = ([] : List (Act L ℤ)) := by simp [noted]
  have hseq := bodies_wp hbody le_rfl hij le_rfl a (m := m) hstart.symm
  rw [← seqfor_eq (foldBody f) hf _ le_rfl le_rfl (Nat.lt_succ_self _)] at hseq
  have hpar := parfor_wp (o := o) hf hK le_rfl hbody ((j - i).toNat + 1) path le_rfl hij le_rfl
    (Nat.lt_succ_self _) a (m := m) hstart.symm
  have hsafe := parfor_safe (o := o) (F := fun k => ⟨∅, ∅, {k}⟩)
    (foldBody f : ℤ → S → Prog L V ℤ S) hf hK le_rfl (fun k _ _ a => ⟨rfl, trivial⟩)
    (fun _ _ _ _ _ => ⟨fun _ h => h.elim, fun _ h => h.elim⟩) ((j - i).toNat + 1) path le_rfl hij
    le_rfl (Nat.lt_succ_self _) a
  refine (hsafe.allRuns hpar).mono ?_
  rintro a' m' tr ⟨tr₀, ⟨ha, htr₀⟩, hperm⟩
  refine ⟨hperm.symm.trans (List.Perm.of_eq htr₀), ha, hseq.mono ?_⟩
  rintro b _ _ ⟨hb, -⟩
  rw [hb, ha]

/-- The theorem at an `int` range, promoted in the second iteration, its right job
stolen, folding into the free monoid. -/
theorem parfor_eq_seqfor_int :
    AllRuns (fun a' _ _ => a' = FreeMonoid.ofList [3, 4, 5, 6, 7])
      (fun _ => ()) [] (parfor_ (L := Empty) (.machine .int) 1
        (fun _ => ⟨some 6, fun h => h = .r⟩) (foldBody FreeMonoid.of) 6 [] 3 8 1) :=
  (parfor_eq_seqfor .int (by decide) FreeMonoid.of 3 8 (by decide) (by decide) (by decide)
    (by decide) _ [] 1 _).mono fun _ _ _ h => h.2.1.trans rfl

end Spork.Parfor
