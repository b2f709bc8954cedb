import Mathlib.Data.Finset.Card
import Mathlib.Data.List.Nodup
import Mathlib.Logic.Relation
import Mathlib.Tactic.Common

/-!
# Depth-first visits

A graph is given by the list of the successors of each node. A visit enters a node unless it has
been entered before, and then visits its successors. With enough fuel it has entered every node
that can be reached, each once.

## Main definitions

* `Visited` — what visits add.
* `visit` — the nodes that have been entered, in this order.
* `left` — the measure.
* `mem_visit`, `nodup_visit` — the nodes that are entered from the beginning.
-/
namespace Dfs

variable {α : Type} (succ : α → List α)

def Edge (a b : α) : Prop := b ∈ succ a

/-- From `S` to `S'` the nodes `as` have been visited. -/
structure Visited (S S' as : List α) : Prop where
  subset : S ⊆ S'
  entered : as ⊆ S'
  closed : ∀ a ∈ S', a ∉ S → succ a ⊆ S'
  reached : ∀ a ∈ S', a ∉ S → ∃ b ∈ as, Relation.ReflTransGen (Edge succ) b a
  nodup : S.Nodup → S'.Nodup

section
variable {succ} {S S' S'' as as' : List α} {a : α}

theorem Visited.nil (S : List α) : Visited succ S S [] :=
  ⟨List.Subset.refl S, List.nil_subset S, fun _ h h' => absurd h h', fun _ h h' => absurd h h', id⟩

theorem Visited.append (h : Visited succ S S' as) (h' : Visited succ S' S'' as') :
    Visited succ S S'' (as ++ as') where
  subset := List.Subset.trans h.subset h'.subset
  entered := List.append_subset.mpr ⟨List.Subset.trans h.entered h'.subset, h'.entered⟩
  closed a ha hS := by
    by_cases hS' : a ∈ S'
    · exact List.Subset.trans (h.closed a hS' hS) h'.subset
    · exact h'.closed a ha hS'
  reached a ha hS := by
    by_cases hS' : a ∈ S'
    · obtain ⟨b, hb, hba⟩ := h.reached a hS' hS
      exact ⟨b, List.mem_append_left _ hb, hba⟩
    · obtain ⟨b, hb, hba⟩ := h'.reached a ha hS'
      exact ⟨b, List.mem_append_right _ hb, hba⟩
  nodup hS := h'.nodup (h.nodup hS)

/-- Nodes are visited one after the other, as long as more may be entered. -/
theorem Visited.foldl {v : List α → α → List α} {P : List α → Prop}
    (hmono : ∀ T T', T ⊆ T' → P T → P T') (hv : ∀ T b, P T → Visited succ T (v T b) [b])
    (hS : as ≠ [] → P S) : Visited succ S (as.foldl v S) as := by
  induction as generalizing S with
  | nil => exact .nil S
  | cons b as ih =>
    have hP := hS (List.cons_ne_nil b as)
    have hb := hv S b hP
    exact hb.append (ih fun _ => hmono _ _ hb.subset hP)

/-- A node that has been entered before is left alone. -/
theorem Visited.again (ha : a ∈ S) : Visited succ S S [a] where
  subset := List.Subset.refl S
  entered := List.cons_subset.mpr ⟨ha, List.nil_subset S⟩
  closed _ hb hb' := absurd hb hb'
  reached _ hb hb' := absurd hb hb'
  nodup := id

/-- A node has been entered, and then its successors have been visited. -/
theorem Visited.enter (ha : a ∉ S) (h : Visited succ (S ++ [a]) S' (succ a)) :
    Visited succ S S' [a] where
  subset := (List.append_subset.mp h.subset).1
  entered := (List.append_subset.mp h.subset).2
  closed b hb hS := by
    by_cases hba : b = a
    · subst hba
      exact h.entered
    · exact h.closed b hb (by simp [hS, hba])
  reached b hb hS := by
    by_cases hba : b = a
    · exact ⟨a, List.mem_singleton_self a, hba ▸ .refl⟩
    · obtain ⟨c, hc, hcb⟩ := h.reached b hb (by simp [hS, hba])
      exact ⟨a, List.mem_singleton_self a, .head hc hcb⟩
  nodup hS := by
    refine h.nodup (List.nodup_append.mpr ⟨hS, List.nodup_singleton a, fun b hb c hc hbc => ?_⟩)
    rw [List.mem_singleton.mp hc] at hbc
    exact ha (hbc ▸ hb)

end

section
variable [DecidableEq α]

/-- Enter the node `a`, where `S` have been entered. -/
def visit : ℕ → α → List α → List α
  | 0, _, S => S
  | fuel + 1, a, S =>
      if a ∈ S then S else (succ a).foldl (fun S b => visit fuel b S) (S ++ [a])

variable {succ} {S T : List α} {a b : α} {fuel : ℕ}

/-- What is left of `inner` to be entered. -/
def left (inner : Finset α) (S : List α) : Finset α := inner.filter (· ∉ S)

theorem left_anti {inner : Finset α} (h : S ⊆ T) : left inner T ⊆ left inner S := by
  intro a ha
  rw [left, Finset.mem_filter] at ha ⊢
  exact ⟨ha.1, fun haS => ha.2 (h haS)⟩

/-- Enough fuel: more than there are nodes with successors that are left. -/
theorem visit_visited (inner : Finset α) (hinner : ∀ a, succ a ≠ [] → a ∈ inner)
    (hfuel : (left inner S).card < fuel) : Visited succ S (visit succ fuel a S) [a] := by
  induction fuel generalizing a S with
  | zero => omega
  | succ fuel ih =>
    rw [visit]
    split
    · next ha => exact .again ha
    next ha =>
    refine .enter ha ?_
    refine Visited.foldl (P := fun T => (left inner T).card < fuel) (fun T T' hT hcard => ?_)
      (fun T b => ih) fun hne => ?_
    · exact lt_of_le_of_lt (Finset.card_le_card (left_anti hT)) hcard
    -- the node itself has successors, and is entered now
    refine lt_of_lt_of_le (Finset.card_lt_card ?_) (Nat.le_of_lt_succ hfuel)
    rw [Finset.ssubset_iff_of_subset (left_anti (List.subset_append_left S [a]))]
    exact ⟨a, by simp [left, hinner a hne, ha], by simp [left]⟩

/-- **What a visit from the beginning enters** is what can be reached. -/
theorem mem_visit (inner : Finset α) (hinner : ∀ a, succ a ≠ [] → a ∈ inner)
    (hfuel : inner.card < fuel) :
    b ∈ visit succ fuel a [] ↔ Relation.ReflTransGen (Edge succ) a b := by
  have h : Visited succ [] (visit succ fuel a []) [a] :=
    visit_visited inner hinner (lt_of_le_of_lt (Finset.card_filter_le _ _) hfuel)
  constructor
  · intro hb
    obtain ⟨c, hc, hcb⟩ := h.reached b hb List.not_mem_nil
    rwa [List.mem_singleton.mp hc] at hcb
  · intro hab
    induction hab with
    | refl => exact h.entered (List.mem_singleton_self a)
    | tail _ hbc ih => exact h.closed _ ih List.not_mem_nil hbc

theorem nodup_visit (inner : Finset α) (hinner : ∀ a, succ a ≠ [] → a ∈ inner)
    (hfuel : inner.card < fuel) : (visit succ fuel a []).Nodup :=
  (visit_visited inner hinner
    (lt_of_le_of_lt (Finset.card_filter_le _ _) hfuel)).nodup List.nodup_nil

end

end Dfs
