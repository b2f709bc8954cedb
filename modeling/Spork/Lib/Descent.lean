import Mathlib.Algebra.BigOperators.Group.Finset.Basic
import Mathlib.Algebra.Order.Group.Multiset
import Mathlib.Data.Fintype.BigOperators
import Mathlib.Logic.Hydra
import Mathlib.Tactic.Abel

/-!
# Descent of multisets

What a system has left to do is a multiset of debts. A debt is paid with any finite number of
lesser ones, and any number may be dropped. Where no debt can be lessened for ever, no system
can go on paying: a run pays finitely often.

## Main definitions

* `Pays`, `Descends`, `Reaches` — one debt is paid, at least one, any number.
* `Descends.add_reaches`, `Reaches.of_le` — how they compose.
* `acc_descends` — no multiset of accessible debts descends for ever.
* `finitely_often` — a sequence that reaches each next multiset descends finitely often.
-/
namespace Descent

universe u

variable {α : Type u} {r : α → α → Prop} {M M' N N' X Y : Multiset α} {a : α}

/-- A debt `a` of `M` is paid with lesser ones. -/
def Pays (r : α → α → Prop) (N M : Multiset α) : Prop :=
  ∃ a X Y, M = {a} + X ∧ N = Y + X ∧ ∀ y ∈ Y, r y a

/-- At least one debt is paid. -/
def Descends (r : α → α → Prop) : Multiset α → Multiset α → Prop := Relation.TransGen (Pays r)

/-- Any number of debts are paid. -/
def Reaches (r : α → α → Prop) : Multiset α → Multiset α → Prop :=
  Relation.ReflTransGen (Pays r)

theorem Pays.add (h : Pays r N M) (K : Multiset α) : Pays r (N + K) (M + K) := by
  obtain ⟨a, X, Y, rfl, rfl, hY⟩ := h
  exact ⟨a, X + K, Y, add_assoc .., add_assoc .., hY⟩

theorem Reaches.refl (M : Multiset α) : Reaches r M M := Relation.ReflTransGen.refl

theorem Reaches.trans (h : Reaches r N M) (h' : Reaches r M X) : Reaches r N X :=
  Relation.ReflTransGen.trans h h'

theorem Descends.reaches (h : Descends r N M) : Reaches r N M := h.to_reflTransGen

theorem Descends.trans_reaches (h : Descends r N M) (h' : Reaches r M X) : Descends r N X :=
  Relation.TransGen.trans_left h h'

theorem Reaches.trans_descends (h : Reaches r N M) (h' : Descends r M X) : Descends r N X :=
  Relation.TransGen.trans_right h h'

theorem Descends.add (h : Descends r N M) (K : Multiset α) : Descends r (N + K) (M + K) :=
  Relation.TransGen.lift (· + K) (fun _ _ hp => Pays.add hp K) _ _ h

theorem Reaches.add_right (h : Reaches r N M) (K : Multiset α) : Reaches r (N + K) (M + K) :=
  Relation.ReflTransGen.lift (· + K) (fun _ _ hp => Pays.add hp K) _ _ h

/-- Debts that are paid beside each other. -/
theorem Reaches.add (h : Reaches r N M) (h' : Reaches r N' M') :
    Reaches r (N + N') (M + M') := by
  have hright := h'.add_right M
  rw [add_comm N' M, add_comm M' M] at hright
  exact (h.add_right N').trans hright

theorem Descends.add_reaches (h : Descends r N M) (h' : Reaches r N' M') :
    Descends r (N + N') (M + M') := by
  have hright := h'.add_right M
  rw [add_comm N' M, add_comm M' M] at hright
  exact (h.add N').trans_reaches hright

theorem Reaches.add_descends (h : Reaches r N M) (h' : Descends r N' M') :
    Descends r (N + N') (M + M') := by
  have hright := h'.add M
  rw [add_comm N' M, add_comm M' M] at hright
  exact (h.add_right N').trans_descends hright

/-- Debts may be dropped. -/
theorem Reaches.of_le (h : N ≤ M) : Reaches r N M := by
  obtain ⟨K, rfl⟩ := Multiset.le_iff_exists_add.mp h
  clear h
  induction K using Multiset.induction_on with
  | empty => rw [add_zero]; exact .refl N
  | cons a K ih =>
    refine ih.trans (.single ⟨a, N + K, 0, ?_, (zero_add _).symm, fun _ hy => ?_⟩)
    · rw [Multiset.add_cons, Multiset.singleton_add]
    · exact absurd hy (Multiset.notMem_zero _)

/-- One debt is paid with lesser ones. -/
theorem Descends.pay (hY : ∀ y ∈ Y, r y a) : Descends r Y {a} :=
  .single ⟨a, 0, Y, (add_zero _).symm, (add_zero _).symm, hY⟩

theorem Reaches.pay (hY : ∀ y ∈ Y, r y a) : Reaches r Y {a} := (Descends.pay hY).reaches

theorem Descends.drop (a : α) : Descends r 0 {a} :=
  .pay fun _ hy => absurd hy (Multiset.notMem_zero _)

theorem Descends.drop_right (M : Multiset α) (a : α) : Descends r M (M + {a}) :=
  .single ⟨a, M, 0, add_comm .., (zero_add _).symm, fun _ hy => absurd hy (Multiset.notMem_zero _)⟩

/-- What is paid comes back with lesser heads. -/
theorem Pays.cutExpand (h : Pays r N M) : Relation.CutExpand r N M := by
  obtain ⟨a, X, Y, rfl, rfl, hY⟩ := h
  refine ⟨Y, a, hY, ?_⟩
  rw [add_comm Y X, add_comm {a} X, add_assoc, add_assoc, add_comm Y {a}]

/-- No multiset of accessible debts descends for ever. -/
theorem acc_descends (h : ∀ a ∈ M, Acc r a) : Acc (Descends r) M := by
  -- below accessible debts there are accessible debts only, where `r` is irreflexive
  let s : α → α → Prop := fun a b => r a b ∧ Acc r b
  have hs : WellFounded s := ⟨fun b => by
    refine ⟨b, fun a hab => ?_⟩
    have hacc : Acc r a := hab.2.inv hab.1
    clear hab
    induction hacc with
    | intro a _ ih => exact ⟨a, fun c hca => ih c hca.1⟩⟩
  have hwf : WellFounded (Pays s) :=
    Subrelation.wf (fun h => Pays.cutExpand h) hs.cutExpand
  suffices hpays : Acc (Pays r) M from hpays.transGen
  induction M using hwf.induction with
  | _ M ih =>
    refine ⟨M, fun N ⟨a, X, Y, hM, hN, hY⟩ => ?_⟩
    have ha : Acc r a := h a (hM ▸ Multiset.mem_add.mpr (.inl (Multiset.mem_singleton_self a)))
    refine ih N ⟨a, X, Y, hM, hN, fun y hy => ⟨hY y hy, ha⟩⟩ fun b hb => ?_
    rw [hN] at hb
    rcases Multiset.mem_add.mp hb with hb | hb
    · exact ha.inv (hY b hb)
    · exact h b (hM ▸ Multiset.mem_add.mpr (.inr hb))

/-- A sequence of multisets, each reached from the one before, descends finitely often. -/
theorem finitely_often {f : ℕ → Multiset α} {P : ℕ → Prop} (hacc : Acc (Descends r) (f 0))
    (hreach : ∀ n, Reaches r (f (n + 1)) (f n))
    (hdesc : ∀ n, P n → Descends r (f (n + 1)) (f n)) : ∃ k, ∀ n, k ≤ n → ¬ P n := by
  have hrun : ∀ k m, Reaches r (f (k + m)) (f k) := by
    intro k m
    induction m with
    | zero => exact .refl _
    | succ m ih => exact (hreach (k + m)).trans ih
  generalize hM : f 0 = M at hacc
  suffices h : ∀ k, f k = M → ∃ k, ∀ n, k ≤ n → ¬ P n from h 0 hM
  clear hM
  induction hacc with
  | intro M _ ih =>
    rintro k rfl
    by_cases hex : ∃ n, k ≤ n ∧ P n
    · obtain ⟨n, hkn, hn⟩ := hex
      obtain ⟨m, rfl⟩ := Nat.exists_eq_add_of_le hkn
      exact ih _ ((hdesc _ hn).trans_reaches (hrun k m)) (k + m + 1) rfl
    · exact ⟨k, fun n hkn hn => hex ⟨n, hkn, hn⟩⟩

/-- In a finite sum one term is paid. -/
theorem Descends.sum {ι : Type} [Fintype ι] [DecidableEq ι] {f g : ι → Multiset α} {i : ι}
    (hi : Descends r (g i) (f i)) (hne : ∀ j, j ≠ i → g j = f j) :
    Descends r (∑ j, g j) (∑ j, f j) := by
  rw [← Finset.add_sum_erase _ _ (Finset.mem_univ i),
    ← Finset.add_sum_erase _ f (Finset.mem_univ i),
    Finset.sum_congr rfl fun j hj => hne j (Finset.ne_of_mem_erase hj)]
  exact hi.add _

theorem Reaches.sum {ι : Type} [Fintype ι] [DecidableEq ι] {f g : ι → Multiset α} {i : ι}
    (hi : Reaches r (g i) (f i)) (hne : ∀ j, j ≠ i → g j = f j) :
    Reaches r (∑ j, g j) (∑ j, f j) := by
  rw [← Finset.add_sum_erase _ _ (Finset.mem_univ i),
    ← Finset.add_sum_erase _ f (Finset.mem_univ i),
    Finset.sum_congr rfl fun j hj => hne j (Finset.ne_of_mem_erase hj)]
  exact hi.add_right _

/-- In a finite sum a term pays for the increase of another. -/
theorem Descends.move {ι : Type} [Fintype ι] [DecidableEq ι] {f g : ι → Multiset α} {i j : ι}
    (hij : i ≠ j) (hi : g i = f i + N) (hj : f j = g j + M) (h : Descends r N M)
    (hne : ∀ k, k ≠ i → k ≠ j → g k = f k) : Descends r (∑ k, g k) (∑ k, f k) := by
  have hmem : j ∈ Finset.univ.erase i := Finset.mem_erase.mpr ⟨hij.symm, Finset.mem_univ j⟩
  have hrest : ∑ k ∈ (Finset.univ.erase i).erase j, g k =
      ∑ k ∈ (Finset.univ.erase i).erase j, f k :=
    Finset.sum_congr rfl fun k hk => hne k (Finset.ne_of_mem_erase (Finset.mem_of_mem_erase hk))
      (Finset.ne_of_mem_erase hk)
  rw [← Finset.add_sum_erase _ _ (Finset.mem_univ i),
    ← Finset.add_sum_erase _ f (Finset.mem_univ i), ← Finset.add_sum_erase _ _ hmem,
    ← Finset.add_sum_erase _ f hmem, hrest, hi, hj]
  have hpay := h.add (f i + g j + ∑ k ∈ (Finset.univ.erase i).erase j, f k)
  convert hpay using 1 <;> abel

end Descent
