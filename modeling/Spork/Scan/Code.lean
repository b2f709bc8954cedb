import Spork.Parfor.Parfor
import Mathlib.Algebra.Ring.PUnit
import Mathlib.Data.Nat.Sqrt

/-!
# `scan`

The parallel inclusive scan, as a fork-join program on a memory of buffers. A buffer is
named by the path of the call that allocates it, so that buffers of different calls are
different. A promotion of `scan` hands the middle of the array to an upsweep job. If the
job is stolen, its partial sums let the middle and the rest be scanned side by side; if
it is taken back it is dropped and the rest is scanned in place.

Index arithmetic is exact in this module.

## Main definitions

* `Loc`, `Ptr`, `Note` — cells, pointers, and the allocations and releases.
* `ScanChoice`, `Oracles` — what is left open in a call.
* `scan_upsweep`, `scan_downsweep`, `scan` — the source.
* `scan_whole`, `scan_split` — what a call amounts to.
-/
namespace Spork.Scan

open CInt ForkJoin IntRange Parfor

/-- A cell: the buffer, by the path of the call that allocated it, and the index. -/
abbrev Loc := List Site × ℤ

/-- A pointer into a buffer. -/
structure Ptr where
  buf : List Site
  off : ℤ
  deriving DecidableEq, Repr

/-- The cell `arr[k]`. -/
def Ptr.cell (arr : Ptr) (k : ℤ) : Loc := (arr.buf, arr.off + k)

/-- The pointer `&arr[k]`. -/
def Ptr.add (arr : Ptr) (k : ℤ) : Ptr := ⟨arr.buf, arr.off + k⟩

/-- What the memory allocator is asked to do. -/
inductive Note
  | p_malloc (buf : List Site)
  | p_free (buf : List Site)
  deriving DecidableEq, Repr

/-- What is left open in one call of `scan`. -/
structure ScanChoice where
  /-- The number of loop steps before the handler runs, if it does. -/
  promoted : Option ℕ
  upStolen : Bool
  /-- Whether the allocation of the partial sums returns null. -/
  mallocNull : Bool
  /-- Whether the right branch of `par` is stolen. -/
  parStolen : Bool

/-- The choices of every call of `scan` and of `parfor_`. -/
structure Oracles where
  scan : List Site → ScanChoice
  parfor : Oracle

/-- `floor(sqrt(n))`. -/
def scan_chunksize (n : ℤ) : ℤ := Nat.sqrt n.toNat

/-- `1 + (n - 1) / chunksize`. -/
def scan_chunks (n : ℤ) : ℤ := 1 + (n - 1).tdiv (scan_chunksize n)

/-- The end of chunk `c`. -/
def chunkEnd (n c : ℤ) : ℤ :=
  if scan_chunksize n > n - c * scan_chunksize n then n
  else c * scan_chunksize n + scan_chunksize n

/-- The length of chunk `c`. -/
def chunkSize (n c : ℤ) : ℤ :=
  if scan_chunksize n > n - c * scan_chunksize n then n - c * scan_chunksize n
  else scan_chunksize n

/-- `i + (j - i) / 5`. -/
def third1 (i j : ℤ) : ℤ := i + (j - i).tdiv 5

/-- `j - 2 * ((j - i) / 5)`. -/
def third2 (i j : ℤ) : ℤ := j - 2 * (j - i).tdiv 5

/-- What the promotion lambda leaves: the new bound and the range of the upsweep. -/
structure Split where
  prom_i : ℤ
  t1 : ℤ
  t2 : ℤ
  deriving DecidableEq, Repr

/-- The promotion lambda, which enqueues the upsweep if every third has work to do. -/
def promotion (n sig_safe_i : ℤ) : Option Split :=
  let prom_i := sig_safe_i + 5
  let t1 := third1 prom_i n
  let t2 := third2 prom_i n
  if prom_i < t1 ∧ t1 < t2 ∧ t2 < n then some ⟨prom_i, t1, t2⟩ else none

section
variable {A : Type} [Monoid A]

/-- Programs of this module. -/
abbrev Code (A B : Type) := Prog Loc A Note B

/-- A call of `scan`, by its path. -/
abbrev ScanCall (A : Type) := List Site → A → Ptr → ℤ → Code A Unit

variable (o : Oracles) (K : ℤ)

/-- A parallel loop without an accumulator. -/
def parforUnit (path : List Site) (n : ℤ) (body : ℤ → Code A Unit) : Code A Unit :=
  parfor_ .exact K o.parfor (fun k (_ : Unit) => body k) (n.toNat + 1) path 0 n ()

/-- The fold of `arr[start], …, arr[end - 1]`. -/
def parforSum (path : List Site) (arr : Ptr) (i j : ℤ) : Code A A :=
  parfor_ .exact K o.parfor (fun k sum => .rd (arr.cell k) fun x => .ret (sum * x))
    ((j - i).toNat + 1) path i j 1

/-- The prefix sums of the chunks of `arr`, in a new buffer; `none` is null. -/
def scan_upsweep (scan : ScanCall A) (path : List Site) (arr : Ptr) (n : ℤ) :
    Code A (Option Ptr) :=
  if (o.scan path).mallocNull then .ret none
  else .note (.p_malloc path) <|
    (parforUnit o K (.call 0 :: path) (scan_chunks n) fun c =>
      (parforSum o K (.body c :: path) arr (c * scan_chunksize n) (chunkEnd n c)).bind fun s =>
        .wr (Ptr.cell ⟨path, 0⟩ c) s (.ret ())).bind fun _ =>
    (scan (.call 1 :: path) 1 ⟨path, 0⟩ (scan_chunks n)).bind fun _ =>
    .ret (some ⟨path, 0⟩)

/-- Scan one chunk of `arr` on top of the partial sum before it. -/
def downBody (scan : ScanCall A) (path : List Site) (partials arr : Ptr) (n chunk : ℤ) :
    Code A Unit :=
  (if chunk ≠ 0 then
      Prog.rd (arr.cell (-1)) fun x => .rd (partials.cell (chunk - 1)) fun y => .ret (x * y)
    else .rd (arr.cell (-1)) .ret).bind fun pfx =>
  scan (.body chunk :: path) pfx (arr.add (chunk * scan_chunksize n)) (chunkSize n chunk)

/-- Scan every chunk, and release the partial sums. -/
def scan_downsweep (scan : ScanCall A) (path : List Site) (partials arr : Ptr) (n : ℤ) :
    Code A Unit :=
  (parforUnit o K (.call 0 :: path) (scan_chunks n) (downBody scan path partials arr n)).bind
    fun _ => .note (.p_free partials.buf) (.ret ())

/-- The loop body of `scan`. -/
def scanBody (arr : Ptr) (i : ℤ) (a : A) : Code A A :=
  .rd (arr.cell i) fun x => .wr (arr.cell i) (a * x) (.ret (a * x))

/-- The index of the partial sum of the whole middle third. -/
def lastPartial (t1 t2 : ℤ) : ℤ := (t2 - t1 - 1).tdiv (scan_chunksize (t2 - t1))

/-- The right branch of the `par`: the last third, on top of the first two. -/
def scanTail (scan : ScanCall A) (path : List Site) (partials arr : Ptr) (t1 t2 n : ℤ) :
    Code A Unit :=
  .rd (partials.cell (lastPartial t1 t2)) fun sum12 =>
    .rd (arr.cell (t1 - 1)) fun x => scan (.call 3 :: path) (x * sum12) (arr.add t2) (n - t2)

/-- The `par` of the downsweep and the last third. -/
def scanPar (scan : ScanCall A) (path : List Site) (partials arr : Ptr) (t1 t2 n : ℤ) :
    Code A Unit :=
  (spawn (o.scan path).parStolen
    (scan_downsweep o K scan (.call 2 :: path) partials (arr.add t1) (t2 - t1))
    (scanTail scan path partials arr t1 t2 n)).bind fun _ => .ret ()

/-- After `sync_is_stolen`: `up` is the result of the upsweep if it was stolen. -/
def afterSync (scan : ScanCall A) (path : List Site) (arr : Ptr) (i n : ℤ)
    (up : Option (Option Ptr)) : Code A Unit :=
  let t1 := third1 i n
  let t2 := third2 i n
  match up with
  | some (some partials) => scanPar o K scan path partials arr t1 t2 n
  | _ => .rd (arr.cell (t1 - 1)) fun x => scan (.call 3 :: path) x (arr.add t1) (n - t1)

/-- The owner's work beside the upsweep: the rest of the loop and, if that has not reached
the end, the first third. Its result is the index the loop has reached. -/
def scanOwn (scan : ScanCall A) (path : List Site) (arr : Ptr) (n : ℤ) (s : Loop × A) :
    Code A ℤ :=
  (finish .exact (scanBody arr) s.1.budget s).bind fun s =>
    if s.1.vars.i ≠ n then
      .rd (arr.cell (s.1.vars.i - 1)) fun x =>
        (scan (.call 0 :: path) x (arr.add s.1.vars.i) (third1 s.1.vars.i n - s.1.vars.i)).bind
          fun _ => .ret s.1.vars.i
    else .ret s.1.vars.i

/-- `scan`, promoted with the loop in state `s`. Waiting for an upsweep that was never
enqueued, and leaving one that was, have no behaviour. -/
def scanPromoted (scan : ScanCall A) (path : List Site) (arr : Ptr) (n : ℤ) (s : Loop × A) :
    Code A Unit :=
  match promotion n s.1.vars.sig_safe_i with
  | none => (scanOwn scan path arr n s).bind fun i => if i ≠ n then .ub else .ret ()
  | some p =>
      let own := scanOwn scan path arr n
        ({ s.1 with vars := { s.1.vars with loop_end := p.prom_i } }, s.2)
      if (o.scan path).upStolen then
        .fork own (scan_upsweep o K scan (.call 1 :: path) (arr.add p.t1) (p.t2 - p.t1))
          fun i up => if i ≠ n then afterSync o K scan path arr i n (some up) else .ub
      else own.bind fun i => if i ≠ n then afterSync o K scan path arr i n none else .ub

/-- `scan`, with the unroll factor `K` of the loops in `scan_upsweep` and
`scan_downsweep`. -/
def scan : ℕ → ScanCall A
  | 0, _, _, _, _ => .ub
  | fuel + 1, path, a, arr, n =>
      match (o.scan path).promoted with
      | none =>
          (finish .exact (scanBody arr) (Loop.enter .exact 0 n).budget
            (Loop.enter .exact 0 n, a)).bind fun _ => .ret ()
      | some t =>
          (runSteps .exact (scanBody arr) t (Loop.enter .exact 0 n, a)).bind
            (scanPromoted o K (scan fuel) path arr n)

/-! ## What a call amounts to -/

/-- The owner's work from `x` on when the bound has been lowered to `e`. -/
def firstThird (scan : ScanCall A) (path : List Site) (arr : Ptr) (n x e : ℤ) (b : A) :
    Code A ℤ :=
  (bodies (scanBody arr) (Int.range x e) b).bind fun _ =>
    .rd (arr.cell (e - 1)) fun v =>
      (scan (.call 0 :: path) v (arr.add e) (third1 e n - e)).bind fun _ => .ret e

/-- A split at `e` leaves work for every third. -/
structure Thirds (e n : ℤ) : Prop where
  lo : 5 ≤ e
  first : e < third1 e n
  middle : third1 e n < third2 e n
  last : third2 e n < n

variable {o K} {path : List Site} {arr : Ptr} {n : ℤ}

theorem scanOwn_split (call : ScanCall A) {c : Loop} {e : ℤ} (hok : c.Ok .exact 0)
    (he : c.vars.loop_end = e) (hn : e ≠ n) (b : A) :
    scanOwn call path arr n (c, b) = firstThird call path arr n c.next e b := by
  obtain ⟨c', hi, hrun⟩ := finish_eq (scanBody (A := A) arr) (Arith.exact_faithfulOn 0 e) c.budget
    hok (le_of_eq he) c.measure_lt_budget
  rw [he] at hi hrun
  simp only [scanOwn, firstThird, hrun, Prog.bind_assoc, Prog.ret_bind, hi, if_pos hn]

theorem scanOwn_whole {call : ScanCall A} {c : Loop} (hok : c.Ok .exact 0)
    (he : c.vars.loop_end = n) (b : A) :
    scanOwn call path arr n (c, b) =
      (bodies (scanBody arr) (Int.range c.next n) b).bind fun _ => .ret n := by
  obtain ⟨c', hi, hrun⟩ := finish_eq (scanBody (A := A) arr) (Arith.exact_faithfulOn 0 n) c.budget
    hok (le_of_eq he) c.measure_lt_budget
  rw [he] at hi hrun
  simp only [scanOwn, hrun, Prog.bind_assoc, Prog.ret_bind, hi, ne_eq, not_true_eq_false, if_false]

variable (o path n) in
/-- The split of a call, if the handler runs and finds enough to do. -/
def splitOf : Option Split := do
  let t ← (o.scan path).promoted
  let c ← (Loop.enter .exact 0 n).run .exact t
  promotion n c.vars.sig_safe_i

/-- A call that is not split scans the whole array itself. -/
theorem scan_whole (fuel : ℕ) (hn : 0 ≤ n) (hsplit : splitOf o path n = none) (a : A) :
    scan o K (fuel + 1) path a arr n =
      (bodies (scanBody arr) (Int.range 0 n) a).bind fun _ => .ret () := by
  have henter : (Loop.enter .exact 0 n).Ok .exact 0 := Loop.ok_enter hn
  have hnext : (Loop.enter .exact 0 n).next = 0 := rfl
  have hend : (Loop.enter .exact 0 n).vars.loop_end = n := rfl
  have hf := Arith.exact_faithfulOn 0 n
  cases ht : (o.scan path).promoted with
  | none =>
    obtain ⟨c', -, hrun⟩ := finish_eq (scanBody (A := A) arr) hf (Loop.enter .exact 0 n).budget
      henter (le_of_eq hend) (Loop.measure_lt_budget _)
    simp only [scan, ht, hrun, Prog.bind_assoc, Prog.ret_bind, hnext, hend]
  | some t =>
    obtain ⟨c, hc, hok, hce, hle, hrun⟩ := runSteps_eq (scanBody (A := A) arr) hf t henter
      (le_of_eq hend)
    rw [hnext] at hle hrun
    rw [hend] at hce
    have hnle := hok.next_le
    have hprom : promotion n c.vars.sig_safe_i = none := by simpa [splitOf, ht, hc] using hsplit
    simp only [scan, ht, hrun, Prog.bind_assoc, Prog.ret_bind, scanPromoted, hprom,
      scanOwn_whole hok hce, ne_eq, not_true_eq_false, if_false]
    rw [bodies_range (scanBody arr) hle (by omega : c.next ≤ n), Prog.bind_assoc]

variable (arr) in
/-- A call that is split scans up to some `x`, and from there the first third, beside the
upsweep of the middle one if that is stolen. -/
theorem scan_split (fuel : ℕ) (hn : 0 ≤ n) {p : Split} (hsplit : splitOf o path n = some p) :
    Thirds p.prom_i n ∧ p.t1 = third1 p.prom_i n ∧ p.t2 = third2 p.prom_i n ∧
    ∃ x, 0 ≤ x ∧ x ≤ p.prom_i ∧ ∀ a : A, scan o K (fuel + 1) path a arr n =
      (bodies (scanBody arr) (Int.range 0 x) a).bind fun b =>
        let own := firstThird (scan o K fuel) path arr n x p.prom_i b
        if (o.scan path).upStolen then
          .fork own
            (scan_upsweep o K (scan o K fuel) (.call 1 :: path) (arr.add p.t1) (p.t2 - p.t1))
            fun i up =>
              if i ≠ n then afterSync o K (scan o K fuel) path arr i n (some up) else .ub
        else own.bind fun i =>
          if i ≠ n then afterSync o K (scan o K fuel) path arr i n none else .ub := by
  have hend : (Loop.enter .exact 0 n).vars.loop_end = n := rfl
  obtain ⟨t, ht, c', hc', hprom⟩ : ∃ t, (o.scan path).promoted = some t ∧
      ∃ c, (Loop.enter .exact 0 n).run .exact t = some c ∧
        promotion n c.vars.sig_safe_i = some p := by
    simpa [splitOf, Option.bind_eq_some_iff] using hsplit
  obtain ⟨c, hc, hok, hce, hle, hrun⟩ := runSteps_eq (scanBody (A := A) arr)
    (Arith.exact_faithfulOn 0 n) t (Loop.ok_enter hn) (le_of_eq hend)
  obtain rfl : c = c' := Option.some.inj (hc.symm.trans hc')
  rw [hend] at hce
  have hlag := c.lag
  have hssi : c.vars.sig_safe_i = c.published := hok.progress
  have hlo := hok.lo_le
  have hp := hprom
  rw [hssi, promotion] at hp
  split at hp
  · next h =>
    obtain rfl := Option.some.inj hp
    have hthird : Thirds (c.published + 5) n := ⟨by omega, h.1, h.2.1, h.2.2⟩
    have hroom := hthird.first.trans (hthird.middle.trans hthird.last)
    have hok' := hok.lower (K := 5) (by norm_num) (by omega)
    refine ⟨hthird, rfl, rfl, c.next, hle, by simp only; omega, fun a => ?_⟩
    have hown : ∀ b : A, scanOwn (scan o K fuel) path arr n
        ({ c with vars := { c.vars with loop_end := c.published + 5 } }, b) =
          firstThird (scan o K fuel) path arr n c.next (c.published + 5) b := fun b =>
      scanOwn_split (e := c.published + 5) _ hok' rfl (by omega) b
    simp only [scan, ht, hrun, Prog.bind_assoc, Prog.ret_bind, scanPromoted, hprom, hown]
    rfl
  · cases hp

end
end Spork.Scan
