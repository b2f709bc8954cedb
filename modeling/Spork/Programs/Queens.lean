import Spork.Lib.Backtrack
import Spork.Parfor.Front
import Mathlib.Data.UInt

/-!
# The queens of `nqueens.cpp`

`countSol` counts the ways to place `n` queens by a `parfor` over the columns of a row, whose
body places a queen and counts the ways to go on in the next row, with another `parfor`. Every
one of these calls may be promoted, and every job stolen.

A pointer to a node is the list of the nodes that can be reached from it: they lie on the
stacks of the calls around, and nobody writes them.

## Main definitions

* `safe`, `countSol` — the source.
* `Attacks`, `Solution` — what is counted.
* `countSol_solutions` — the count, under every schedule.
-/
namespace Spork.Programs

open CInt ForkJoin IntRange Parfor Backtrack

/-- A queen, by its row and its column. -/
structure Queens where
  x : UInt32
  y : UInt32
  deriving DecidableEq, Repr

/-- No queen of the list attacks the square. -/
def safe (i j : UInt32) : List Queens → Bool
  | [] => true
  | q :: next =>
      if i = q.x ∨ j = q.y ∨ i - j = q.x - q.y ∨ i + j = q.x + q.y then false else safe i j next

section
variable {L V E : Type} (K : List Site → ℤ) (o : Oracle)

/-- The ways to place queens in the rows from `i` on. -/
def countSol : ℕ → List Site → UInt32 → UInt32 → List Queens →
    Prog L V E (Multiplicative UInt32)
  | 0, _, _, _, _ => .ub
  | fuel + 1, path, i, n, q =>
      if i ≥ n then .ret (.ofAdd 1)
      else Front.parfor .uint32 K o (n.toNat + 2) path
        (fun k sols =>
          let j := UInt32.ofNat k.toNat
          if safe i j q then
            (countSol fuel (.body k :: path) (i + 1) n (⟨i, j⟩ :: q)).bind fun s => .ret (sols * s)
          else .ret sols)
        0 n.toNat 1

end

/-! ## What is counted -/

/-- Queens attack along rows, columns and diagonals. -/
def Attacks (q q' : ℕ × ℕ) : Prop :=
  q.1 = q'.1 ∨ q.2 = q'.2 ∨ (q.1 : ℤ) - q.2 = q'.1 - q'.2 ∨ q.1 + q.2 = q'.1 + q'.2

instance (q q' : ℕ × ℕ) : Decidable (Attacks q q') := by unfold Attacks; infer_instance

/-- A queen in each row, of which no two attack each other. -/
def Solution {n : ℕ} (c : Fin n → Fin n) : Prop :=
  ∀ r s : Fin n, r ≠ s → ¬ Attacks (r, c r) (s, c s)

instance {n : ℕ} (c : Fin n → Fin n) : Decidable (Solution c) := by
  unfold Solution; infer_instance

variable {n : ℕ}

/-- Two queens of the search that do not attack each other. -/
def Peace (q q' : ℕ × Fin n) : Prop := ¬ Attacks (q.1, q.2) (q'.1, q'.2)

theorem Attacks.symm {q q' : ℕ × ℕ} (h : Attacks q q') : Attacks q' q := by
  rcases h with h | h | h | h
  · exact .inl h.symm
  · exact .inr (.inl h.symm)
  · exact .inr (.inr (.inl h.symm))
  · exact .inr (.inr (.inr h.symm))

theorem completes_iff_solution {c : Fin n → Fin n} : Completes Peace 0 [] c ↔ Solution c := by
  constructor
  · intro h r s hrs
    rcases lt_or_gt_of_ne hrs with hlt | hlt
    · exact fun ha => by simpa [Peace, ha.symm] using h.within r s hlt
    · exact fun ha => by simpa [Peace, ha] using h.within s r hlt
  · refine fun h => ⟨fun _ _ hq => (by cases hq), fun s t hst => ?_⟩
    simpa [Peace] using h t s hst.ne'

/-! ## One square -/

/-- The node of a queen. -/
def node (q : ℕ × Fin n) : Queens := ⟨.ofNat q.1, .ofNat q.2⟩

section
variable {a b c d : ℕ}

theorem ofNat_inj (ha : a < 2 ^ 32) (hb : b < 2 ^ 32) : UInt32.ofNat a = .ofNat b ↔ a = b := by
  rw [← UInt32.toNat_inj, UInt32.toNat_ofNat', UInt32.toNat_ofNat', Nat.mod_eq_of_lt ha,
    Nat.mod_eq_of_lt hb]

/-- Sums of squares on the board do not wrap. -/
theorem ofNat_add_inj (ha : a < 2 ^ 31) (hb : b < 2 ^ 31) (hc : c < 2 ^ 31) (hd : d < 2 ^ 31) :
    UInt32.ofNat a + .ofNat b = .ofNat c + .ofNat d ↔ a + b = c + d := by
  rw [← UInt32.ofNat_add, ← UInt32.ofNat_add]
  exact ofNat_inj (by omega) (by omega)

/-- Differences wrap, and are equal only where those of the integers are. -/
theorem ofNat_sub_inj (ha : a < 2 ^ 31) (hb : b < 2 ^ 31) (hc : c < 2 ^ 31) (hd : d < 2 ^ 31) :
    UInt32.ofNat a - .ofNat b = .ofNat c - .ofNat d ↔ (a : ℤ) - b = c - d := by
  rw [sub_eq_sub_iff_add_eq_add, ofNat_add_inj ha hd hc hb]
  omega

end

/-- The test of the source is exact on boards whose sums do not wrap. -/
theorem safe_iff (hn : n ≤ 2 ^ 31) {i : ℕ} (hi : i < n) (j : Fin n) {qs : List (ℕ × Fin n)}
    (hqs : ∀ q ∈ qs, q.1 < n) :
    safe (.ofNat i) (.ofNat j) (qs.map node) = true ↔ ∀ q ∈ qs, Peace (i, j) q := by
  induction qs with
  | nil => simp [safe]
  | cons q qs ih =>
    have hq := hqs q List.mem_cons_self
    have hj := j.isLt
    have hy := q.2.isLt
    have htest : (UInt32.ofNat i = (node q).x ∨ UInt32.ofNat j = (node q).y ∨
        UInt32.ofNat i - .ofNat j = (node q).x - (node q).y ∨
        UInt32.ofNat i + .ofNat j = (node q).x + (node q).y) ↔ Attacks (i, j) (q.1, q.2) := by
      rw [node, ofNat_inj (by omega) (by omega), ofNat_inj (by omega) (by omega),
        ofNat_sub_inj (by omega) (by omega) (by omega) (by omega),
        ofNat_add_inj (by omega) (by omega) (by omega) (by omega), Attacks]
    rw [List.map_cons, safe, List.forall_mem_cons, ← ih fun q' hq' =>
      hqs q' (List.mem_cons_of_mem _ hq'), Peace]
    by_cases ha : Attacks (i, j) (q.1, q.2)
    · rw [if_pos (htest.mpr ha)]
      simp [ha]
    · rw [if_neg (mt htest.mp ha)]
      simp [ha]

/-! ## A row -/

section
variable {L V E : Type} {K : List Site → ℤ} {o : Oracle} {fuel i k : ℕ} {path : List Site}
  {qs : List (ℕ × Fin n)}

/-- The footprint of a program that touches nothing. -/
def nothing : Foot L E := ⟨∅, ∅, ∅⟩

theorem indep_nothing : Foot.Indep (nothing : Foot L E) nothing :=
  ⟨fun _ h => h.elim, fun _ h => h.elim⟩

open Classical in
/-- What the column `j` adds to the count. -/
noncomputable def columnWays (k i : ℕ) (qs : List (ℕ × Fin n)) (j : ℕ) : ℕ :=
  if h : j < n then
    if ∀ q ∈ qs, Peace (i, ⟨j, h⟩) q then completions Peace k (i + 1) ((i, ⟨j, h⟩) :: qs) else 0
  else 0

/-- Counts are added as values of type `uint`. -/
theorem fold_ofNat (g : ℕ → ℕ) (n : ℕ) :
    fold (fun j => Multiplicative.ofAdd (UInt32.ofNat (g j.toNat))) 1 0 n =
      .ofAdd (UInt32.ofNat (∑ j ∈ Finset.range n, g j)) := by
  induction n with
  | zero => exact fold_self _ _ _
  | succ n ih =>
    rw [Nat.cast_succ, fold_succ _ _ (Int.natCast_nonneg n), ih, Finset.sum_range_succ,
      UInt32.ofNat_add, Int.toNat_natCast]
    rfl

theorem sum_columnWays :
    ∑ j ∈ Finset.range n, columnWays k i qs j = completions Peace (k + 1) i qs := by
  rw [Finset.sum_range, completions_succ]
  refine Finset.sum_congr rfl fun j _ => ?_
  rw [columnWays, dif_pos j.isLt]

/-- A call in a row that is on the board. -/
theorem countSol_row (hn : n < 2 ^ 32) (hi : i < n) (q : List Queens) :
    countSol (L := L) (V := V) (E := E) K o (fuel + 1) path (.ofNat i) (.ofNat n) q =
      parfor_ (.machine .uint32) (K path) o
        (fun j sols =>
          if safe (.ofNat i) (.ofNat j.toNat) q then
            (countSol K o fuel (.body j :: path) (.ofNat (i + 1)) (.ofNat n)
              (⟨.ofNat i, .ofNat j.toNat⟩ :: q)).bind fun s => .ret (sols * s)
          else .ret sols)
        (n + 1) path 0 n 1 := by
  have hval : ∀ a < 2 ^ 32, (UInt32.ofNat a).toNat = a := fun a ha => by
    rw [UInt32.toNat_ofNat', Nat.mod_eq_of_lt ha]
  have hlt : ¬ UInt32.ofNat i ≥ UInt32.ofNat n := by
    rw [ge_iff_le, UInt32.le_iff_toNat_le, hval n hn, hval i (by omega)]
    omega
  rw [countSol, if_neg hlt, hval n hn, Front.parfor, if_pos (by decide), UInt32.ofNat_add]
  rfl

theorem uint32_inRange {a : ℤ} (h₀ : 0 ≤ a) (h₁ : a < 2 ^ 32) : IntTy.uint32.InRange a :=
  ⟨h₀, by simp [IntTy.max, IntTy.uint32]; omega⟩

/-- The index type holds the columns. -/
theorem faithfulOn_columns (hn : n < 2 ^ 32) : (Arith.machine .uint32).FaithfulOn 0 n := by
  have hrange : IntTy.uint32.InRange n := uint32_inRange (by omega) (by omega)
  refine Arith.machine_faithfulOn (by decide) (uint32_inRange le_rfl (by norm_num)) hrange ?_
  rw [sub_zero]
  exact hrange.promote

/-- Counting touches no cell. -/
theorem countSol_safe (hn : n < 2 ^ 32) (hK : ∀ path, (Arith.machine .uint32).conv (K path) =
    K path ∧ 1 ≤ K path) (hik : i + k = n) (hfuel : k < fuel) (q : List Queens) :
    Safe nothing (countSol (L := L) (V := V) (E := E) K o fuel path (.ofNat i) (.ofNat n) q)
      fun _ => True := by
  induction k generalizing fuel path i q with
  | zero =>
    obtain ⟨fuel, rfl⟩ := Nat.exists_eq_succ_of_ne_zero (by omega : fuel ≠ 0)
    rw [Nat.succ_eq_add_one, countSol, if_pos (hik ▸ UInt32.le_refl _)]
    trivial
  | succ k ih =>
    obtain ⟨fuel, rfl⟩ := Nat.exists_eq_succ_of_ne_zero (by omega : fuel ≠ 0)
    rw [Nat.succ_eq_add_one, countSol_row hn (by omega)]
    refine (parfor_safe (F := fun _ => nothing) _ (faithfulOn_columns hn) (hK path).1 (hK path).2
      (fun j _ _ a => ?_) (fun _ _ _ _ _ => indep_nothing) _ path le_rfl (by omega) le_rfl
      (by omega) 1).mono (Foot.iUnion_le fun _ _ => Foot.Le.refl _) fun _ => id
    split
    · exact (ih (by omega) (by omega) _).bind fun _ _ => trivial
    · trivial

variable [DecidableEq L]

/-- **The count of a call**, run sequentially. -/
theorem countSol_wp (hn : n ≤ 2 ^ 31) (hK : ∀ path, (Arith.machine .uint32).conv (K path) =
    K path ∧ 1 ≤ K path) (hik : i + k = n) (hfuel : k < fuel) (hqs : ∀ q ∈ qs, q.1 < n)
    (m : L → V) :
    Wp (countSol (E := E) K o fuel path (.ofNat i) (.ofNat n) (qs.map node))
      (fun s _ _ => s = .ofAdd (UInt32.ofNat (completions Peace k i qs))) m := by
  induction k generalizing fuel path i qs m with
  | zero =>
    obtain ⟨fuel, rfl⟩ := Nat.exists_eq_succ_of_ne_zero (by omega : fuel ≠ 0)
    rw [Nat.succ_eq_add_one, countSol, if_pos (hik ▸ UInt32.le_refl _), wp_ret, completions_zero]
    rfl
  | succ k ih =>
    obtain ⟨fuel, rfl⟩ := Nat.exists_eq_succ_of_ne_zero (by omega : fuel ≠ 0)
    have hi : i < n := by omega
    rw [Nat.succ_eq_add_one, countSol_row (by omega) hi]
    refine (parfor_wp (I := fun _ _ _ => True)
      (f := fun j => .ofAdd (UInt32.ofNat (columnWays k i qs j.toNat)))
      (faithfulOn_columns (by omega)) (hK path).1 (hK path).2 ?_ (n + 1) path le_rfl (by omega)
      le_rfl (by omega) 1 (t := []) trivial).mono ?_
    · intro j h₀ h₁ a m tr _
      obtain ⟨j, rfl⟩ := Int.eq_ofNat_of_zero_le h₀
      have hj : j < n := by omega
      beta_reduce
      rw [Int.toNat_natCast, columnWays, dif_pos hj]
      have hsafe := safe_iff hn hi ⟨j, hj⟩ hqs
      by_cases h : ∀ q ∈ qs, Peace (i, ⟨j, hj⟩) q
      · rw [if_pos (hsafe.mpr h), if_pos h, wp_bind]
        have hqs' : ∀ q ∈ (i, ⟨j, hj⟩) :: qs, q.1 < n := List.forall_mem_cons.mpr ⟨hi, hqs⟩
        refine (ih (by omega) (by omega) hqs' m).mono ?_
        rintro s _ _ rfl
        exact wp_ret.mpr ⟨rfl, trivial⟩
      · rw [if_neg (mt hsafe.mp h), if_neg h]
        exact wp_ret.mpr ⟨(mul_one a).symm, trivial⟩
    · rintro s _ _ ⟨rfl, -⟩
      rw [fold_ofNat, sum_columnWays]

/-- **The queens.** For a board of up to `2 ^ 31` rows, every schedule of the program ends with
the number of solutions, as a `uint`: whenever heartbeats promote its loops, whichever of their
jobs are stolen, and whatever unroll factors they are told. -/
theorem countSol_solutions (hn : n ≤ 2 ^ 31) (hK : ∀ path, 1 ≤ K path ∧ K path < 2 ^ 32)
    (m : L → V) :
    AllRuns (fun s _ _ => s.toAdd = UInt32.ofNat (Nat.card {c : Fin n → Fin n // Solution c}))
      m [] (countSol (E := E) K o (n + 1) path 0 (.ofNat n) []) := by
  have hconv : ∀ path, (Arith.machine .uint32).conv (K path) = K path ∧ 1 ≤ K path := fun path =>
    ⟨IntTy.wrap_of_inRange (uint32_inRange (by have := (hK path).1; omega) (hK path).2),
      (hK path).1⟩
  have hwp : Wp (countSol (E := E) K o (n + 1) path 0 (.ofNat n) [])
      (fun s _ _ => s = .ofAdd (UInt32.ofNat (completions Peace n 0 ([] : List (ℕ × Fin n))))) m :=
    countSol_wp hn hconv (zero_add n) (Nat.lt_succ_self n) (List.forall_mem_nil _) m
  have hsafe : Safe nothing (countSol (L := L) (V := V) (E := E) K o (n + 1) path 0 (.ofNat n) [])
      fun _ => True :=
    countSol_safe (by omega) hconv (zero_add n) (Nat.lt_succ_self n) []
  refine (hsafe.allRuns hwp).mono ?_
  rintro s _ _ ⟨_, rfl, -⟩
  rw [completions, Nat.card_congr (Equiv.subtypeEquivRight fun c => completes_iff_solution)]
  rfl

end

/-- Two ways on a board of four rows. The outer loop is promoted in its second iteration and has
its right job stolen, and its inner loops are not. -/
theorem countSol_solutions_four :
    AllRuns (fun s _ _ => s.toAdd = 2) (fun _ => ()) []
      (countSol (L := Empty) (E := Empty) (fun _ => 1)
        (fun path => ⟨if path = [] then some 6 else none, fun h => h = .r⟩) 5 [] 0 4 []) := by
  refine (countSol_solutions (n := 4) (by decide) (fun _ => by decide) _).mono ?_
  intro s _ _ hs
  have hcard : Fintype.card {c : Fin 4 → Fin 4 // Solution c} = 2 := by decide +kernel
  rw [hs, Nat.card_eq_fintype_card, hcard]
  rfl

end Spork.Programs
