import Spork.Parfor.Parfor
import Mathlib.Data.Nat.Fib.Basic
import Mathlib.Data.UInt

/-!
# The Fibonacci numbers of `fib.hpp`

`fib` runs its two calls side by side by `par` and adds the values they leave on its stack.
`fibE` does the same by hand, with the promotion handler and a job of its own. In both it is
left open which calls are promoted, and which of their jobs are stolen.

## Main definitions

* `Var`, `Cell` — the variables on the stack of a call.
* `par` — the source.
* `fibSeq`, `fib`, `fibE` — the source.
* `fib_eq_fibSeq` — they agree, under every schedule.
-/
namespace Spork.Programs

open ForkJoin Parfor

/-- The variables of a call of `fib` or `fibE`. -/
inductive Var
  | l
  | r
  /-- The result of the job of `fibE`. -/
  | jp_r
  deriving DecidableEq, Repr

/-- A variable, by the path of its call. -/
abbrev Cell := List Site × Var

section
variable {E : Type}

/-- What is left open in a call of `par`: whether it is promoted, and if it is, whether its job
is stolen. -/
abbrev Heartbeats := List Site → Option Bool

/-- `par`. A job that is not stolen is taken back by `sync`. -/
def par {L V : Type} (choice : Option Bool) (lamL lamR : Prog L V E Unit) : Prog L V E Unit :=
  match choice with
  | some stolen => (spawn stolen lamL lamR).bind fun _ => .ret ()
  | none => lamL.bind fun _ => lamR

/-- `fibSeq`. -/
def fibSeq : ℕ → UInt32
  | 0 => 0
  | 1 => 1
  | n + 2 => fibSeq (n + 1) + fibSeq n

variable (o : Heartbeats)

/-- `fib`. -/
def fib : ℕ → List Site → Prog Cell UInt32 E UInt32
  | 0, _ => .ret 0
  | 1, _ => .ret 1
  | n + 2, path =>
      (par (o path)
        ((fib (n + 1) (.call 0 :: path)).bind fun v => .wr (path, .l) v (.ret ()))
        ((fib n (.call 1 :: path)).bind fun v => .wr (path, .r) v (.ret ()))).bind fun _ =>
      .rd (path, .l) fun l => .rd (path, .r) fun r => .ret (l + r)

/-- `fibE`. -/
def fibE : ℕ → List Site → Prog Cell UInt32 E UInt32
  | 0, _ => .ret 0
  | 1, _ => .ret 1
  | n + 2, path =>
      let body := (fibE (n + 1) (.call 0 :: path)).bind fun v => .wr (path, .l) v (.ret ())
      let run := (fibE n (.call 1 :: path)).bind fun v => .wr (path, .jp_r) v (.ret ())
      match o path with
      | some stolen => (spawn stolen body run).bind fun _ =>
          .rd (path, .l) fun l => .rd (path, .jp_r) fun r => .ret (l + r)
      | none => body.bind fun _ =>
          .rd (path, .l) fun l => (fibE n (.call 1 :: path)).bind fun r => .ret (l + r)

end

theorem fibSeq_eq (n : ℕ) : fibSeq n = UInt32.ofNat (Nat.fib n) := by
  induction n using Nat.strong_induction_on with
  | _ n ih =>
    match n with
    | 0 => rfl
    | 1 => rfl
    | n + 2 =>
      rw [fibSeq, ih (n + 1) (by omega), ih n (by omega), Nat.fib_add_two, UInt32.ofNat_add,
        add_comm]

/-! ## Footprints -/

section
variable {E : Type} {o : Heartbeats} {path : List Site} {n : ℕ}

/-- The variables of the calls within a call. -/
def frames (path : List Site) : Set Cell := {x | path <:+ x.1}

/-- What a call of `fib` touches. -/
def fibFoot (path : List Site) : Foot Cell E := ⟨frames path, ∅, ∅⟩

/-- What the call with the site `s` does for its caller, with the variable it is stored in. -/
def branchFoot (s : Site) (x : Var) (path : List Site) : Foot Cell E :=
  ⟨insert (path, x) (frames (s :: path)), ∅, ∅⟩

theorem frames_cons {s : Site} : frames (s :: path) ⊆ frames path := fun _ h =>
  (List.suffix_cons s path).trans h

theorem self_notMem_frames {s : Site} {x : Var} : (path, x) ∉ frames (s :: path) := fun h => by
  have := List.IsSuffix.length_le h
  simp at this

theorem frames_disjoint {s s' : Site} (h : s ≠ s') {x : Cell} (hx : x ∈ frames (s :: path)) :
    x ∉ frames (s' :: path) := fun hx' =>
  h (List.cons.inj ((List.suffix_of_suffix_length_le hx hx' le_rfl).eq_of_length rfl)).1

theorem branchFoot_le {s : Site} {x : Var} :
    (branchFoot s x path : Foot Cell E).Le (fibFoot path) := by
  refine ⟨?_, fun _ h => h.elim, fun _ h => h⟩
  rintro y (rfl | hy)
  · exact List.suffix_refl path
  · exact frames_cons hy

/-- The two calls of one call do not interfere. -/
theorem branchFoot_indep {s s' : Site} {x x' : Var} (hs : s ≠ s') (hx : x ≠ x') :
    (branchFoot s x path : Foot Cell E).Indep (branchFoot s' x' path) := by
  have hdisj : ∀ {s s' : Site} {x x' : Var}, s ≠ s' → x ≠ x' →
      ∀ y ∈ insert (path, x) (frames (s :: path)),
        y ∉ insert (path, x') (frames (s' :: path)) ∪ (∅ : Set Cell) := by
    intro s s' x x' hs hx y hy hy'
    rw [Set.union_empty] at hy'
    rcases hy with rfl | hy
    · rcases hy' with hy' | hy'
      · exact hx (congrArg Prod.snd hy')
      · exact self_notMem_frames hy'
    · rcases hy' with rfl | hy'
      · exact self_notMem_frames hy
      · exact frames_disjoint hs hy hy'
  exact ⟨hdisj hs hx, hdisj hs.symm hx.symm⟩

theorem branch_safe {s : Site} {x : Var} {p : Prog Cell UInt32 E UInt32}
    (h : Safe (fibFoot (s :: path)) p fun _ => True) :
    Safe (branchFoot s x path) (p.bind fun v => .wr (path, x) v (.ret ())) fun _ => True :=
  Safe.bind (h.mono ⟨fun _ h => .inr h, fun _ h => h.elim, fun _ h => h⟩ fun _ => id) fun _ _ =>
    ⟨.inl rfl, trivial⟩

/-- `par` touches what its branches do. -/
theorem par_safe {L V : Type} {F Fp Fq : Foot L E} {lamL lamR : Prog L V E Unit}
    (choice : Option Bool) (hL : Safe Fp lamL fun _ => True) (hR : Safe Fq lamR fun _ => True)
    (hp : Fp.Le F) (hq : Fq.Le F) (hi : Fp.Indep Fq) :
    Safe F (par choice lamL lamR) fun _ => True := by
  cases choice with
  | none => exact (hL.mono hp fun _ => id).bind fun _ _ => hR.mono hq fun _ => id
  | some stolen => exact (Safe.spawn stolen hL hR hp hq hi).bind fun _ _ => trivial

theorem fib_safe (n : ℕ) (path : List Site) :
    Safe (fibFoot path : Foot Cell E) (fib o n path) fun _ => True := by
  induction n using Nat.strong_induction_on generalizing path with
  | _ n ih =>
    match n with
    | 0 => trivial
    | 1 => trivial
    | n + 2 =>
      have hL := branch_safe (x := .l) (ih (n + 1) (by omega) (.call 0 :: path))
      have hR := branch_safe (x := .r) (ih n (by omega) (.call 1 :: path))
      refine (par_safe (o path) hL hR branchFoot_le branchFoot_le
        (branchFoot_indep (by simp) (by simp))).bind fun _ _ => ?_
      exact ⟨.inl (List.suffix_refl path), fun _ =>
        ⟨.inl (List.suffix_refl path), fun _ => trivial⟩⟩

theorem fibE_safe (n : ℕ) (path : List Site) :
    Safe (fibFoot path : Foot Cell E) (fibE o n path) fun _ => True := by
  induction n using Nat.strong_induction_on generalizing path with
  | _ n ih =>
    match n with
    | 0 => trivial
    | 1 => trivial
    | n + 2 =>
      have hL := branch_safe (x := .l) (ih (n + 1) (by omega) (.call 0 :: path))
      have hR := branch_safe (x := .jp_r) (ih n (by omega) (.call 1 :: path))
      have hself : ∀ x, (path, x) ∈ (fibFoot path : Foot Cell E).cells := fun _ =>
        .inl (List.suffix_refl path)
      rw [fibE]
      cases o path with
      | some stolen =>
        refine (Safe.spawn stolen hL hR branchFoot_le branchFoot_le
          (branchFoot_indep (by simp) (by simp))).bind fun _ _ => ?_
        exact ⟨hself _, fun _ => ⟨hself _, fun _ => trivial⟩⟩
      | none =>
        refine (hL.mono branchFoot_le fun _ => id).bind fun _ _ => ⟨hself _, fun _ => ?_⟩
        exact Safe.bind ((ih n (by omega) (.call 1 :: path)).mono
          ⟨frames_cons, fun _ h => h.elim, fun _ h => h⟩ fun _ => id) fun _ _ => trivial

/-! ## Values -/

/-- What a branch leaves in its variable, and in those of the caller. -/
theorem branch_wp {s : Site} {x : Var} {p : Prog Cell UInt32 E UInt32} {v : UInt32}
    (hs : Safe (fibFoot (s :: path)) p fun _ => True)
    (hwp : ∀ m, Wp p (fun a _ _ => a = v) m) (m : Cell → UInt32) :
    Wp (p.bind fun v => .wr (path, x) v (.ret ()))
      (fun _ m' _ => m' (path, x) = v ∧ ∀ y ≠ x, m' (path, y) = m (path, y)) m := by
  rw [wp_bind]
  refine (hs.wp (hwp m)).mono ?_
  rintro a m' _ ⟨rfl, -, hframe⟩
  simp only [wp_wr, wp_ret, Function.update_self, true_and]
  intro y hy
  rw [Function.update_of_ne (by simpa using hy)]
  exact hframe _ self_notMem_frames

/-- Sequentially it makes no difference whether `par` is promoted. -/
theorem wp_par {L V : Type} [DecidableEq L] {choice : Option Bool} {lamL lamR : Prog L V E Unit}
    {Q : (L → V) → Prop} {m : L → V} :
    Wp (par choice lamL lamR) (fun _ m' _ => Q m') m ↔
      Wp lamL (fun _ m₁ _ => Wp lamR (fun _ m₂ _ => Q m₂) m₁) m := by
  cases choice <;> simp [par]

theorem fib_wp (n : ℕ) (path : List Site) (m : Cell → UInt32) :
    Wp (fib (E := E) o n path) (fun v _ _ => v = fibSeq n) m := by
  induction n using Nat.strong_induction_on generalizing path m with
  | _ n ih =>
    match n with
    | 0 => exact wp_ret.mpr rfl
    | 1 => exact wp_ret.mpr rfl
    | n + 2 =>
      rw [fib, wp_bind]
      simp only [wp_rd, wp_ret]
      refine wp_par.mpr ((branch_wp (fib_safe _ _) (ih (n + 1) (by omega) _) m).mono ?_)
      rintro _ m₁ _ ⟨hl, -⟩
      refine (branch_wp (fib_safe _ _) (ih n (by omega) _) m₁).mono ?_
      rintro _ m₂ _ ⟨hr, hframe⟩
      rw [hr, hframe .l (by simp), hl, fibSeq]

theorem fibE_wp (n : ℕ) (path : List Site) (m : Cell → UInt32) :
    Wp (fibE (E := E) o n path) (fun v _ _ => v = fibSeq n) m := by
  induction n using Nat.strong_induction_on generalizing path m with
  | _ n ih =>
    match n with
    | 0 => exact wp_ret.mpr rfl
    | 1 => exact wp_ret.mpr rfl
    | n + 2 =>
      have hbody := branch_wp (x := .l) (fibE_safe (n + 1) (.call 0 :: path))
        (ih (n + 1) (by omega) (.call 0 :: path)) m
      rw [fibE]
      cases o path with
      | some stolen =>
        rw [wp_bind, wp_spawn]
        simp only [wp_rd, wp_ret]
        refine hbody.mono ?_
        rintro _ m₁ _ ⟨hl, -⟩
        refine (branch_wp (fibE_safe n _) (ih n (by omega) _) m₁).mono ?_
        rintro _ m₂ _ ⟨hr, hframe⟩
        rw [hr, hframe .l (by simp), hl, fibSeq]
      | none =>
        rw [wp_bind]
        refine hbody.mono ?_
        rintro _ m₁ _ ⟨hl, -⟩
        rw [wp_rd, wp_bind]
        refine (ih n (by omega) _ m₁).mono ?_
        rintro r _ _ rfl
        rw [wp_ret, hl, fibSeq]

end

/-- **The Fibonacci numbers.** Every schedule of `fib`, and of `fibE`, ends with the value of
`fibSeq`, which is the Fibonacci number as a `uint`, whichever calls are promoted and whichever
jobs are stolen. -/
theorem fib_eq_fibSeq (E : Type) (o : Heartbeats) (n : ℕ) (m : Cell → UInt32) :
    fibSeq n = UInt32.ofNat (Nat.fib n) ∧
    AllRuns (fun v _ _ => v = fibSeq n) m [] (fib (E := E) o n []) ∧
    AllRuns (fun v _ _ => v = fibSeq n) m [] (fibE (E := E) o n []) := by
  refine ⟨fibSeq_eq n, ((fib_safe n []).allRuns (fib_wp n [] m)).mono ?_,
    ((fibE_safe n []).allRuns (fibE_wp n [] m)).mono ?_⟩
  · rintro _ _ _ ⟨_, hv, -⟩
    exact hv
  · rintro _ _ _ ⟨_, hv, -⟩
    exact hv

end Spork.Programs
