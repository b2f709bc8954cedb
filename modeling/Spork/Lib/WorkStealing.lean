import Mathlib.Data.List.Nodup
import Mathlib.Tactic.Common

/-!
# Work-stealing deques

The owner of a deque pushes and pops at the newest end, a thief takes the oldest element.
An owner that comes back for its elements in last-in-first-out order does not have to say
which one it wants: its deque is always the newest part of what it has left to come back
for, and the older part has been stolen.

A deque is a list with the newest element first.

## Main definitions

* `steal` — the oldest element and the others.
* `Matched` — a deque holds the newest part of what its owner owes.
* `Matched.head` — what the owner finds when it comes back for its newest element.
-/
namespace Spork.WorkStealing

variable {α : Type*}

/-- Take the oldest element. -/
def steal (l : List α) : Option (List α × α) := l.getLast?.map fun x => (l.dropLast, x)

theorem steal_eq_some {l d : List α} {x : α} : steal l = some (d, x) ↔ l = d ++ [x] := by
  constructor
  · intro h
    obtain ⟨y, hy, he⟩ := Option.map_eq_some_iff.mp h
    obtain ⟨rfl, rfl⟩ := Prod.mk.inj he
    exact (List.dropLast_append_getLast? y hy).symm
  · rintro rfl
    simp [steal]

/-- The deque is the newest part of what is owed, and the rest has been stolen. -/
structure Matched (queued stolen : α → Prop) (owed deque : List α) : Prop where
  gone : ∃ old, owed = deque ++ old ∧ ∀ x ∈ old, stolen x
  queued : ∀ x ∈ deque, queued x
  nodup : deque.Nodup

namespace Matched

variable {q s q' s' : α → Prop} {owed deque : List α} {x : α}

theorem nil : Matched q s [] [] where
  gone := ⟨[], rfl, by simp⟩
  queued := by simp
  nodup := List.nodup_nil

theorem mono (h : Matched q s owed deque) (hq : ∀ y ∈ deque, q y → q' y)
    (hs : ∀ y ∈ owed, s y → s' y) : Matched q' s' owed deque := by
  obtain ⟨old, rfl, hold⟩ := h.gone
  refine ⟨⟨old, rfl, fun y hy => ?_⟩, fun y hy => hq y hy (h.queued y hy), h.nodup⟩
  exact hs y (List.mem_append_right _ hy) (hold y hy)

/-- Everything in the deque is owed. -/
theorem mem_owed (h : Matched q s owed deque) {y : α} (hy : y ∈ deque) : y ∈ owed := by
  obtain ⟨old, rfl, -⟩ := h.gone
  exact List.mem_append_left _ hy

/-- What the owner finds when it comes back for its newest element: that element on top of
its deque, or, if it has been stolen, an empty deque. -/
theorem head (h : Matched q s (x :: owed) deque) :
    (q x ∧ ∃ d, deque = x :: d) ∨ (s x ∧ deque = []) := by
  obtain ⟨old, ho, hold⟩ := h.gone
  cases deque with
  | nil =>
    have hx : x ∈ old := by
      have ho : x :: owed = old := ho
      exact ho ▸ List.mem_cons_self
    exact .inr ⟨hold x hx, rfl⟩
  | cons y d =>
    obtain ⟨rfl, -⟩ := List.cons.inj ho
    exact .inl ⟨h.queued x List.mem_cons_self, d, rfl⟩

/-- With nothing owed the deque is empty. -/
theorem eq_nil (h : Matched q s [] deque) : deque = [] := by
  obtain ⟨old, ho, -⟩ := h.gone
  exact (List.append_eq_nil_iff.mp ho.symm).1

/-- If the newest element has been stolen then so has every other. -/
theorem eq_nil_of_stolen (h : Matched q s (x :: owed) deque) (hx : ¬ q x) : deque = [] := by
  rcases h.head with ⟨hq, -⟩ | ⟨-, hd⟩
  · exact absurd hq hx
  · exact hd

/-- The owner pushes new elements. -/
theorem push {new : List α} (h : Matched q s owed deque) (hnodup : new.Nodup)
    (hnew : ∀ y ∈ new, ¬ q y ∧ q' y) (hq : ∀ y, y ∉ new → q y → q' y) (hs : ∀ y, s y → s' y) :
    Matched q' s' (new ++ owed) (new ++ deque) := by
  have hdisj : ∀ y ∈ deque, y ∉ new := fun y hy hn => (hnew y hn).1 (h.queued y hy)
  obtain ⟨old, rfl, hold⟩ := h.gone
  refine ⟨⟨old, by rw [List.append_assoc], fun y hy => hs y (hold y hy)⟩, ?_, ?_⟩
  · intro y hy
    rcases List.mem_append.mp hy with hy | hy
    · exact (hnew y hy).2
    · exact hq y (hdisj y hy) (h.queued y hy)
  · refine List.nodup_append.mpr ⟨hnodup, h.nodup, fun y hy z hz he => ?_⟩
    exact hdisj z hz (he ▸ hy)

/-- The owner pops its newest element. -/
theorem pop (h : Matched q s (x :: owed) (x :: deque)) (hq : ∀ y, y ≠ x → q y → q' y)
    (hs : ∀ y, s y → s' y) : Matched q' s' owed deque := by
  obtain ⟨hmem, hnodup⟩ := List.nodup_cons.mp h.nodup
  obtain ⟨old, ho, hold⟩ := h.gone
  obtain ⟨-, rfl⟩ := List.cons.inj ho
  refine ⟨⟨old, rfl, fun y hy => hs y (hold y hy)⟩, fun y hy => ?_, hnodup⟩
  exact hq y (fun he => hmem (he ▸ hy)) (h.queued y (List.mem_cons_of_mem _ hy))

/-- The owner has waited for its newest element, which had been stolen. -/
theorem join (h : Matched q s (x :: owed) []) : Matched q s owed [] := by
  obtain ⟨old, ho, hold⟩ := h.gone
  have ho : x :: owed = old := ho
  exact ⟨⟨owed, rfl, fun y hy => hold y (ho ▸ List.mem_cons_of_mem _ hy)⟩, by simp,
    List.nodup_nil⟩

/-- A thief takes the oldest element. -/
theorem stolen (h : Matched q s owed (deque ++ [x])) (hx : s' x)
    (hq : ∀ y, y ≠ x → q y → q' y) (hs : ∀ y, s y → s' y) : Matched q' s' owed deque := by
  obtain ⟨hd, -, hdisj⟩ := List.nodup_append.mp h.nodup
  obtain ⟨old, rfl, hold⟩ := h.gone
  refine ⟨⟨x :: old, by simp, fun y hy => ?_⟩, fun y hy => ?_, hd⟩
  · rcases List.mem_cons.mp hy with rfl | hy
    · exact hx
    · exact hs y (hold y hy)
  · exact hq y (hdisj y hy x List.mem_cons_self) (h.queued y (List.mem_append_left _ hy))

end Matched
end Spork.WorkStealing
