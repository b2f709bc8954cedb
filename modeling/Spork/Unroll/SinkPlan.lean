import Mathlib.Data.Fintype.Card
import Mathlib.Data.Finset.Lattice.Fold
import Mathlib.Logic.Function.Basic
import Mathlib.Order.Lattice.Nat
import Mathlib.Tactic.Common

/-!
# What feeds the code after the exit of a step loop

The code after the exit of a step loop may not read the snapshot limit, and what is computed
from the limit before the exit but used after it has to be computed again there. `SinkPlan`
finds these instructions by a recursion over the users of the limit, with a memo.

The memo is right: an instruction is marked exactly when it is computed from the limit by pure
instructions before the exit, and it, or something computed from it in the same way, is used
after the exit.

## Main definitions

* `Value`, `Use`, `Graph` — the SSA graph around a step loop.
* `exitDominatesUse`, `SinkPlan`, `visitUse`, `needs`, `plan` — the source.
* `Graph.Visited`, `Graph.Feeds` — computed from the limit, and used after the exit.
* `plan_needs`, `plan_failure` — what `SinkPlan` marks, and when it fails.
-/
namespace Spork.Unroll.Sink

/-- A value, as far as users of the limit tell values apart. -/
inductive Value (I A : Type)
  | limit
  | inst (i : I)
  /-- A constant, an argument, or an induction that is none of the instructions. -/
  | other (a : A)
  deriving DecidableEq, Repr

/-- A user of a value. -/
inductive User (I : Type)
  | inst (i : I)
  /-- Not an instruction. -/
  | other (n : ℕ)
  deriving DecidableEq, Repr

/-- A use: the operand of a user. -/
structure Use (I : Type) where
  user : User I
  slot : ℕ
  deriving DecidableEq, Repr

/-- What the plan asks of an instruction. -/
inductive Kind
  | phi
  | terminator
  /-- Reads or writes memory, or has side effects. -/
  | effect
  | pure
  deriving DecidableEq, Repr

/-- The SSA graph around a step loop. Uses of a value may be enumerated in any order. -/
structure Graph (I A B : Type) where
  kind : I → Kind
  operands : I → List (Value I A)
  uses : Value I A → List (Use I)
  block : I → B
  /-- The incoming block of an operand of a PHI. -/
  incomingBlock : I → ℕ → B
  /-- The blocks that the exit block dominates. -/
  exitDominates : B → Bool
  /-- The compare of the latch. -/
  compare : I
  /-- Pure instructions form no cycles. -/
  rank : I → ℕ
  mem_uses : ∀ v i k, ⟨.inst i, k⟩ ∈ uses v ↔ (operands i)[k]? = some v
  rank_lt : ∀ i j, .inst i ∈ operands j → kind j = .pure → rank i < rank j
  compare_pure : kind compare = .pure
  compare_before : exitDominates (block compare) = false

/-- `SinkPlan`. -/
structure SinkPlan (I : Type) where
  Needs : I → Option Bool
  Failure : Option String

namespace SinkPlan

variable {I : Type} (p : SinkPlan I)

/-- `Needs.lookup`. -/
def lookup (i : I) : Bool := (p.Needs i).getD false

variable [DecidableEq I]

/-- Write an entry of the memo. -/
def set (i : I) (b : Bool) : SinkPlan I := { p with Needs := Function.update p.Needs i (some b) }

@[simp] theorem set_self (i : I) (b : Bool) : (p.set i b).Needs i = some b :=
  Function.update_self ..

theorem set_ne {i j : I} (h : j ≠ i) (b : Bool) : (p.set i b).Needs j = p.Needs j :=
  Function.update_of_ne h ..

variable {p} in
theorem set_isSome {j : I} (h : (p.Needs j).isSome) (i : I) (b : Bool) :
    ((p.set i b).Needs j).isSome := by
  by_cases hji : j = i
  · rw [hji, set_self]
    rfl
  · rwa [set_ne p hji]

end SinkPlan

namespace Graph

variable {I A B : Type} [DecidableEq I] (g : Graph I A B)

/-- `exitDominatesUse`. -/
def exitDominatesUse (u : Use I) : Bool :=
  match u.user with
  | .other _ => false
  | .inst i =>
      if g.kind i = .phi then g.exitDominates (g.incomingBlock i u.slot)
      else g.exitDominates (g.block i)

/-- `SinkPlan::visitUse`, over `SinkPlan::needs`. -/
def visitUse (needs : I → SinkPlan I → Bool × SinkPlan I) (u : Use I) (p : SinkPlan I) :
    Bool × SinkPlan I :=
  if u.user = .inst g.compare then (false, p)
  else if g.exitDominatesUse u then (true, p)
  else
    match u.user with
    | .other _ => (false, { p with Failure := some "snapshot limit has a non-instruction user" })
    | .inst i =>
        match g.kind i with
        -- a pre-exit merge or decision; the snapshot is fine there
        | .phi | .terminator => (false, p)
        | .effect => (false, { p with
            Failure := some "snapshot limit reaches memory or a call before the exit" })
        | .pure => needs i p

/-- The loop over the uses of a value. -/
def visitUses (needs : I → SinkPlan I → Bool × SinkPlan I) :
    List (Use I) → SinkPlan I → Bool × SinkPlan I
  | [], p => (false, p)
  | u :: us, p =>
      let r := g.visitUse needs u p
      let r' := visitUses needs us r.2
      (r.1 || r'.1, r'.2)

/-- `SinkPlan::needs`. -/
def needs : ℕ → I → SinkPlan I → Bool × SinkPlan I
  | 0, _, p => (false, p)
  | fuel + 1, i, p =>
      match p.Needs i with
      | some b => (b, p)
      | none =>
          -- provisional; pure DAGs have no cycles anyway
          let r := g.visitUses (needs fuel) (g.uses (.inst i)) (p.set i false)
          (r.1, r.2.set i r.1)

variable [Fintype I]

/-- No recursion is deeper. -/
def depth : ℕ := Finset.univ.sup g.rank + 1

/-- `SinkPlan::plan`, for the limit. -/
def plan : SinkPlan I := (g.visitUses (g.needs g.depth) (g.uses .limit) ⟨fun _ => none, none⟩).2

omit [Fintype I]

/-! ## What the plan is about -/

omit [DecidableEq I] in
/-- The use is by a pure instruction before the exit, other than the compare. -/
structure Sinks (u : Use I) (j : I) : Prop where
  user : u.user = .inst j
  ne_compare : j ≠ g.compare
  before : g.exitDominatesUse u = false
  pure : g.kind j = .pure

/-- Computed from the limit by pure instructions before the exit. -/
inductive Visited : I → Prop
  | limit {u : Use I} {j : I} (hu : u ∈ g.uses .limit) (hs : g.Sinks u j) : Visited j
  | inst {u : Use I} {i j : I} (hi : Visited i) (hu : u ∈ g.uses (.inst i)) (hs : g.Sinks u j) :
      Visited j

/-- Used after the exit, directly or through pure instructions before it. -/
inductive Feeds : I → Prop
  | past {u : Use I} {i : I} (hu : u ∈ g.uses (.inst i)) (hpast : g.exitDominatesUse u = true) :
      Feeds i
  | inst {u : Use I} {i j : I} (hu : u ∈ g.uses (.inst i)) (hs : g.Sinks u j) (hj : Feeds j) :
      Feeds i

/-- A use of the limit or of something computed from it. -/
inductive Meets : Use I → Prop
  | limit {u : Use I} (hu : u ∈ g.uses .limit) : Meets u
  | inst {u : Use I} {i : I} (hi : g.Visited i) (hu : u ∈ g.uses (.inst i)) : Meets u

/-- The use is before the exit, and is not by an instruction or by one that has effects. -/
structure Leaks (u : Use I) : Prop where
  before : g.exitDominatesUse u = false
  user : ∀ i, u.user = .inst i → g.kind i = .effect

/-- The use is after the exit, or by an instruction that feeds such a use. -/
def FeedsUse (u : Use I) : Prop := g.exitDominatesUse u = true ∨ ∃ j, g.Sinks u j ∧ g.Feeds j

variable {g} {i j : I} {u : Use I} {p p' : SinkPlan I}

omit [DecidableEq I] in
theorem feeds_iff : g.Feeds i ↔ ∃ u ∈ g.uses (.inst i), g.FeedsUse u := by
  constructor
  · rintro (⟨hu, hpast⟩ | ⟨hu, hs, hj⟩)
    · exact ⟨_, hu, .inl hpast⟩
    · exact ⟨_, hu, .inr ⟨_, hs, hj⟩⟩
  · rintro ⟨u, hu, hpast | ⟨j, hs, hj⟩⟩
    · exact .past hu hpast
    · exact .inst hu hs hj

omit [DecidableEq I] in
/-- The compare is before the exit. -/
theorem ne_compare (h : g.exitDominatesUse u = true) : u.user ≠ .inst g.compare := by
  intro hu
  simp only [exitDominatesUse, hu, g.compare_pure, reduceCtorEq, if_false, g.compare_before,
    Bool.false_eq_true] at h

omit [DecidableEq I] in
/-- What sinks reads the value that is used. -/
theorem Sinks.mem_operands {v : Value I A} (hs : g.Sinks u j) (hu : u ∈ g.uses v) :
    v ∈ g.operands j := by
  obtain ⟨user, slot⟩ := u
  obtain rfl : user = .inst j := hs.user
  exact List.mem_of_getElem? ((g.mem_uses _ _ _).mp hu)

omit [DecidableEq I] in
theorem Sinks.not_leaks (hs : g.Sinks u j) : ¬ g.Leaks u := by
  intro h
  have heffect := h.user j hs.user
  rw [hs.pure] at heffect
  cases heffect

/-- The uses of a value: after the exit, by an instruction to be visited, harmless, or leaks. -/
theorem visitUse_cases (needs : I → SinkPlan I → Bool × SinkPlan I) (u : Use I) (p : SinkPlan I) :
    (g.exitDominatesUse u = true ∧ (∀ j, ¬ g.Sinks u j) ∧ g.visitUse needs u p = (true, p)) ∨
    (∃ j, g.Sinks u j ∧ g.visitUse needs u p = needs j p) ∨
    (g.exitDominatesUse u = false ∧ (∀ j, ¬ g.Sinks u j) ∧ ¬ g.Leaks u ∧
      g.visitUse needs u p = (false, p)) ∨
    (g.Leaks u ∧ ∃ failure,
      g.visitUse needs u p = (false, { p with Failure := some failure })) := by
  by_cases hc : u.user = .inst g.compare
  · refine .inr (.inr (.inl ⟨?_, ?_, ?_, by rw [visitUse, if_pos hc]⟩))
    · by_contra h
      exact ne_compare (by simpa using h) hc
    · intro j hs
      exact hs.ne_compare (User.inst.inj (hs.user.symm.trans hc))
    · intro h
      have heffect := h.user _ hc
      rw [g.compare_pure] at heffect
      cases heffect
  · by_cases hpast : g.exitDominatesUse u = true
    · refine .inl ⟨hpast, fun j hs => ?_, by rw [visitUse, if_neg hc, if_pos hpast]⟩
      rw [hs.before] at hpast
      cases hpast
    · have hbefore : g.exitDominatesUse u = false := by simpa using hpast
      rw [visitUse, if_neg hc, if_neg hpast]
      cases hu : u.user with
      | other n =>
        refine .inr (.inr (.inr ⟨⟨hbefore, fun i hi => ?_⟩, _, rfl⟩))
        exact absurd (hu.symm.trans hi) (by simp)
      | inst i =>
        have hsame : ∀ {j}, u.user = .inst j → j = i := fun h => User.inst.inj (h.symm.trans hu)
        cases hk : g.kind i with
        | pure =>
          refine .inr (.inl ⟨i, ⟨hu, ?_, hbefore, hk⟩, by simp only [hk]⟩)
          rintro rfl
          exact hc hu
        | effect =>
          refine .inr (.inr (.inr ⟨⟨hbefore, fun j hj => ?_⟩, _, by simp only [hk]; rfl⟩))
          rw [hsame hj, hk]
        | _ =>
          refine .inr (.inr (.inl ⟨hbefore, fun j hs => ?_, fun h => ?_, by simp only [hk]⟩))
          · have hpure := hs.pure
            rw [hsame hs.user, hk] at hpure
            cases hpure
          · have heffect := h.user i hu
            rw [hk] at heffect
            cases heffect

/-! ## The memo -/

/-- The memo from some rank on: below are the instructions whose marks are provisional. -/
structure MemoOk (g : Graph I A B) (r : ℕ) (p : SinkPlan I) : Prop where
  right : ∀ i b, p.Needs i = some b → r ≤ g.rank i → (b = true ↔ g.Feeds i)
  closed : ∀ i, (p.Needs i).isSome → r ≤ g.rank i → ∀ u ∈ g.uses (.inst i), ∀ j, g.Sinks u j →
    (p.Needs j).isSome
  visited : ∀ i, (p.Needs i).isSome → g.Visited i
  clean : p.Failure = none → ∀ i, (p.Needs i).isSome → r ≤ g.rank i →
    ∀ u ∈ g.uses (.inst i), ¬ g.Leaks u
  failed : p.Failure ≠ none → ∃ u, g.Meets u ∧ g.Leaks u

/-- Entries are added, from some rank on. -/
structure Grows (g : Graph I A B) (r : ℕ) (p p' : SinkPlan I) : Prop where
  below : ∀ i, g.rank i < r → p'.Needs i = p.Needs i
  more : ∀ i, (p.Needs i).isSome → (p'.Needs i).isSome
  failure : p'.Failure = none → p.Failure = none

omit [DecidableEq I] in
theorem MemoOk.mono {r r' : ℕ} (h : MemoOk g r p) (hr : r ≤ r') : MemoOk g r' p :=
  ⟨fun i b hi hle => h.right i b hi (hr.trans hle), fun i hi hle => h.closed i hi (hr.trans hle),
    h.visited, fun hf i hi hle => h.clean hf i hi (hr.trans hle), h.failed⟩

omit [DecidableEq I] in
/-- What is right further up is right, if nothing changes below. -/
theorem MemoOk.of_grows {r r' : ℕ} (h : MemoOk g r p) (hg : Grows g r' p p')
    (h' : MemoOk g r' p') : MemoOk g r p' where
  right i b hi hle := by
    by_cases hr : g.rank i < r'
    · exact h.right i b (hg.below i hr ▸ hi) hle
    · exact h'.right i b hi (not_lt.mp hr)
  closed i hi hle u hu j hs := by
    by_cases hr : g.rank i < r'
    · exact hg.more j (h.closed i (hg.below i hr ▸ hi) hle u hu j hs)
    · exact h'.closed i hi (not_lt.mp hr) u hu j hs
  visited := h'.visited
  clean hf i hi hle u hu := by
    by_cases hr : g.rank i < r'
    · exact h.clean (hg.failure hf) i (hg.below i hr ▸ hi) hle u hu
    · exact h'.clean hf i hi (not_lt.mp hr) u hu
  failed := h'.failed

omit [DecidableEq I] in
theorem Grows.refl (r : ℕ) (p : SinkPlan I) : Grows g r p p :=
  ⟨fun _ _ => rfl, fun _ h => h, fun h => h⟩

omit [DecidableEq I] in
theorem Grows.trans {r r' : ℕ} {p'' : SinkPlan I} (h : Grows g r p p') (h' : Grows g r' p' p'')
    (hr : r ≤ r') : Grows g r p p'' :=
  ⟨fun i hi => (h'.below i (hi.trans_le hr)).trans (h.below i hi),
    fun i hi => h'.more i (h.more i hi), fun hf => h.failure (h'.failure hf)⟩

/-- The specification of `needs` for one instruction. -/
def NeedsSpec (g : Graph I A B) (needs : I → SinkPlan I → Bool × SinkPlan I) (j : I) : Prop :=
  ∀ p, g.Visited j → MemoOk g (g.rank j) p → MemoOk g (g.rank j) (needs j p).2 ∧
    Grows g (g.rank j) p (needs j p).2 ∧ ((needs j p).2.Needs j).isSome ∧
      ((needs j p).1 = true ↔ g.Feeds j)

/-- The loop over uses, when `needs` is right for what it visits. -/
theorem visitUses_spec {needs : I → SinkPlan I → Bool × SinkPlan I} {r : ℕ} {us : List (Use I)}
    (hmeets : ∀ u ∈ us, g.Meets u)
    (hneeds : ∀ u ∈ us, ∀ j, g.Sinks u j → r ≤ g.rank j ∧ g.Visited j ∧ NeedsSpec g needs j)
    (hok : MemoOk g r p) :
    MemoOk g r (g.visitUses needs us p).2 ∧ Grows g r p (g.visitUses needs us p).2 ∧
      (∀ u ∈ us, ∀ j, g.Sinks u j → ((g.visitUses needs us p).2.Needs j).isSome) ∧
      ((g.visitUses needs us p).2.Failure = none → ∀ u ∈ us, ¬ g.Leaks u) ∧
      ((g.visitUses needs us p).1 = true ↔ ∃ u ∈ us, g.FeedsUse u) := by
  induction us generalizing p with
  | nil => exact ⟨hok, .refl r p, by simp, by simp, by simp [visitUses]⟩
  | cons u us ih =>
    have hrest : ∀ u' ∈ us, ∀ j, g.Sinks u' j →
        r ≤ g.rank j ∧ g.Visited j ∧ NeedsSpec g needs j :=
      fun u' hu' => hneeds u' (List.mem_cons_of_mem _ hu')
    -- what the first use does
    have hfirst : MemoOk g r (g.visitUse needs u p).2 ∧ Grows g r p (g.visitUse needs u p).2 ∧
        (∀ j, g.Sinks u j → ((g.visitUse needs u p).2.Needs j).isSome) ∧
        ((g.visitUse needs u p).2.Failure = none → ¬ g.Leaks u) ∧
        ((g.visitUse needs u p).1 = true ↔ g.FeedsUse u) := by
      rcases g.visitUse_cases needs u p with ⟨hpast, hnot, heq⟩ | ⟨j, hs, heq⟩ |
        ⟨hbefore, hnot, hleaks, heq⟩ | ⟨hleaks, failure, heq⟩
      · rw [heq]
        refine ⟨hok, .refl r p, fun j hs => absurd hs (hnot j), fun _ h => ?_,
          iff_of_true rfl (.inl hpast)⟩
        rw [h.before] at hpast
        cases hpast
      · obtain ⟨hr, hvisited, hspec⟩ := hneeds u List.mem_cons_self j hs
        obtain ⟨hok', hgrows, hsome, hfeeds⟩ := hspec p hvisited (hok.mono hr)
        have hsame : ∀ j', g.Sinks u j' → j' = j :=
          fun j' hs' => User.inst.inj (hs'.user.symm.trans hs.user)
        rw [heq]
        refine ⟨hok.of_grows hgrows hok', (Grows.refl r p).trans hgrows hr, ?_,
          fun _ => hs.not_leaks, hfeeds.trans ?_⟩
        · intro j' hs'
          rw [hsame j' hs']
          exact hsome
        · constructor
          · exact fun hj => .inr ⟨j, hs, hj⟩
          · rintro (hpast | ⟨j', hs', hj'⟩)
            · rw [hs.before] at hpast
              cases hpast
            · exact hsame j' hs' ▸ hj'
      · rw [heq]
        refine ⟨hok, .refl r p, fun j hs => absurd hs (hnot j), fun _ => hleaks,
          iff_of_false (by simp) ?_⟩
        rintro (hpast | ⟨j, hs, -⟩)
        · rw [hbefore] at hpast
          cases hpast
        · exact hnot j hs
      · rw [heq]
        refine ⟨⟨hok.right, hok.closed, hok.visited, by simp, fun _ => ?_⟩,
          ⟨fun _ _ => rfl, fun _ h => h, by simp⟩, fun j hs => absurd hleaks hs.not_leaks,
          by simp, iff_of_false (by simp) ?_⟩
        · exact ⟨u, hmeets u List.mem_cons_self, hleaks⟩
        · rintro (hpast | ⟨j, hs, -⟩)
          · rw [hleaks.before] at hpast
            cases hpast
          · exact hs.not_leaks hleaks
    obtain ⟨hok₁, hgrows₁, hsome₁, hclean₁, hfeeds₁⟩ := hfirst
    obtain ⟨hok₂, hgrows₂, hsome₂, hclean₂, hfeeds₂⟩ :=
      ih (fun u' hu' => hmeets u' (List.mem_cons_of_mem _ hu')) hrest hok₁
    refine ⟨hok₂, hgrows₁.trans hgrows₂ le_rfl, ?_, ?_, ?_⟩
    · intro u' hu' j hs
      rcases List.mem_cons.mp hu' with rfl | hu'
      · exact hgrows₂.more j (hsome₁ j hs)
      · exact hsome₂ u' hu' j hs
    · intro hf u' hu'
      rcases List.mem_cons.mp hu' with rfl | hu'
      · exact hclean₁ (hgrows₂.failure hf)
      · exact hclean₂ hf u' hu'
    · rw [visitUses, Bool.or_eq_true, hfeeds₁, hfeeds₂]
      simp

/-- A provisional entry. -/
theorem MemoOk.provisional (h : MemoOk g (g.rank j) p) (hj : g.Visited j) :
    MemoOk g (g.rank j + 1) (p.set j false) := by
  have hne : ∀ {i}, g.rank j + 1 ≤ g.rank i → (p.set j false).Needs i = p.Needs i := by
    intro i hle
    apply p.set_ne
    rintro rfl
    omega
  refine ⟨fun i b hi hle => ?_, fun i hi hle u hu j' hs => ?_, fun i hi => ?_,
    fun hf i hi hle => ?_, h.failed⟩
  · exact h.right i b (hne hle ▸ hi) (by omega)
  · exact SinkPlan.set_isSome (h.closed i (hne hle ▸ hi) (by omega) u hu j' hs) j false
  · by_cases hij : i = j
    · exact hij ▸ hj
    · exact h.visited i (p.set_ne hij false ▸ hi)
  · exact h.clean hf i (hne hle ▸ hi) (by omega)

/-- The final entry. -/
theorem MemoOk.settle {b : Bool} (h : MemoOk g (g.rank j) p)
    (hg : Grows g (g.rank j + 1) (p.set j false) p') (h' : MemoOk g (g.rank j + 1) p')
    (hj : g.Visited j) (hb : b = true ↔ g.Feeds j)
    (hsome : ∀ u ∈ g.uses (.inst j), ∀ j', g.Sinks u j' → (p'.Needs j').isSome)
    (hclean : p'.Failure = none → ∀ u ∈ g.uses (.inst j), ¬ g.Leaks u) :
    MemoOk g (g.rank j) (p'.set j b) ∧ Grows g (g.rank j) p (p'.set j b) := by
  have hmore : ∀ i, (p.Needs i).isSome → ((p'.set j b).Needs i).isSome :=
    fun i hi => SinkPlan.set_isSome (hg.more i (SinkPlan.set_isSome hi j false)) j b
  -- the others of the rank have not changed
  have hold : ∀ i, i ≠ j → g.rank i ≤ g.rank j → (p'.set j b).Needs i = p.Needs i := by
    intro i hij hle
    rw [p'.set_ne hij, hg.below i (by omega), p.set_ne hij]
  refine ⟨⟨fun i b' hi hle => ?_, fun i hi hle u hu j' hs => ?_, fun i hi => ?_,
    fun hf i hi hle u hu => ?_, h'.failed⟩, fun i hi => ?_, hmore, hg.failure⟩
  · by_cases hij : i = j
    · subst hij
      rw [p'.set_self, Option.some.injEq] at hi
      exact hi ▸ hb
    · by_cases hle' : g.rank i ≤ g.rank j
      · exact h.right i b' (hold i hij hle' ▸ hi) hle
      · exact h'.right i b' (p'.set_ne hij b ▸ hi) (by omega)
  · by_cases hij : i = j
    · subst hij
      exact SinkPlan.set_isSome (hsome u hu j' hs) i b
    · by_cases hle' : g.rank i ≤ g.rank j
      · have hi' : (p.Needs i).isSome := hold i hij hle' ▸ hi
        exact hmore j' (h.closed i hi' hle u hu j' hs)
      · have hi' : (p'.Needs i).isSome := p'.set_ne hij b ▸ hi
        exact SinkPlan.set_isSome (h'.closed i hi' (by omega) u hu j' hs) j b
  · by_cases hij : i = j
    · exact hij ▸ hj
    · exact h'.visited i (p'.set_ne hij b ▸ hi)
  · by_cases hij : i = j
    · subst hij
      exact hclean hf u hu
    · by_cases hle' : g.rank i ≤ g.rank j
      · exact h.clean (hg.failure hf) i (hold i hij hle' ▸ hi) hle u hu
      · exact h'.clean hf i (p'.set_ne hij b ▸ hi) (by omega) u hu
  · have hij : i ≠ j := by
      rintro rfl
      omega
    exact hold i hij hi.le

/-- `needs` is right, if its recursion has room. -/
theorem needs_spec {fuel : ℕ} (hfuel : ∀ i, g.rank i < g.rank j + fuel) :
    NeedsSpec g (g.needs fuel) j := by
  induction fuel generalizing j with
  | zero => exact absurd (hfuel j) (lt_irrefl _)
  | succ fuel ih =>
    intro p hvisited hok
    rw [needs]
    cases hj : p.Needs j with
    | some b =>
      refine ⟨hok, .refl _ p, ?_, hok.right j b hj le_rfl⟩
      simp only [hj, Option.isSome_some]
    | none =>
      simp only
      have hsub : ∀ u ∈ g.uses (.inst j), ∀ j', g.Sinks u j' →
          g.rank j + 1 ≤ g.rank j' ∧ g.Visited j' ∧ NeedsSpec g (g.needs fuel) j' := by
        intro u hu j' hs
        have hlt := g.rank_lt j j' (hs.mem_operands hu) hs.pure
        refine ⟨hlt, .inst hvisited hu hs, ih fun i => ?_⟩
        have := hfuel i
        omega
      obtain ⟨hok', hgrows, hsome, hclean, hfeeds⟩ :=
        visitUses_spec (fun u hu => .inst hvisited hu) hsub (hok.provisional hvisited)
      have hresult := hfeeds.trans feeds_iff.symm
      obtain ⟨hfinal, hgrows'⟩ := hok.settle hgrows hok' hvisited hresult hsome hclean
      refine ⟨hfinal, hgrows', ?_, hresult⟩
      rw [SinkPlan.set_self]
      rfl

variable [Fintype I]

/-- What the plan has found out about the uses of the limit. -/
theorem plan_spec : MemoOk g 0 g.plan ∧
    (∀ u ∈ g.uses .limit, ∀ j, g.Sinks u j → (g.plan.Needs j).isSome) ∧
    (g.plan.Failure = none → ∀ u ∈ g.uses .limit, ¬ g.Leaks u) := by
  have hdepth : ∀ j i, g.rank i < g.rank j + g.depth := by
    intro j i
    have hle : g.rank i ≤ Finset.univ.sup g.rank := Finset.le_sup (Finset.mem_univ i)
    rw [depth]
    omega
  have hempty : MemoOk g 0 ⟨fun _ => none, none⟩ := by
    refine ⟨fun i b hi => ?_, fun i hi => ?_, fun i hi => ?_, fun _ i hi => ?_, fun hf => ?_⟩
    · cases hi
    · cases hi
    · cases hi
    · cases hi
    · exact absurd rfl hf
  have hsub : ∀ u ∈ g.uses .limit, ∀ j, g.Sinks u j →
      0 ≤ g.rank j ∧ g.Visited j ∧ NeedsSpec g (g.needs g.depth) j :=
    fun u hu j hs => ⟨Nat.zero_le _, .limit hu hs, needs_spec (hdepth j)⟩
  obtain ⟨hok, -, hsome, hclean, -⟩ := visitUses_spec (fun u hu => .limit hu) hsub hempty
  exact ⟨hok, hsome, hclean⟩

/-- The plan visits what is computed from the limit before the exit. -/
theorem plan_visited (hi : g.Visited i) : (g.plan.Needs i).isSome := by
  obtain ⟨hok, hsome, -⟩ := plan_spec (g := g)
  induction hi with
  | limit hu hs => exact hsome _ hu _ hs
  | inst _ hu hs ih => exact hok.closed _ ih (Nat.zero_le _) _ hu _ hs

/-- **`SinkPlan` marks the instructions that are computed from the limit by pure instructions
before the exit, and of these it marks for the exit block the ones that feed a use after it.** -/
theorem plan_needs (i : I) :
    g.plan.lookup i = true ↔ g.Visited i ∧ g.Feeds i := by
  obtain ⟨hok, -, -⟩ := plan_spec (g := g)
  rw [SinkPlan.lookup]
  cases hi : g.plan.Needs i with
  | none =>
    refine iff_of_false (by simp) fun h => ?_
    have := plan_visited h.1
    simp [hi] at this
  | some b =>
    have hv := hok.visited i (by simp [hi])
    rw [Option.getD_some, hok.right i b hi (Nat.zero_le _)]
    exact ⟨fun h => ⟨hv, h⟩, And.right⟩

/-- **`SinkPlan` fails when the limit, or something computed from it, gets to memory or to a call
before the exit, and only then.** -/
theorem plan_failure : g.plan.Failure = none ↔ ∀ u, g.Meets u → ¬ g.Leaks u := by
  obtain ⟨hok, -, hclean⟩ := plan_spec (g := g)
  constructor
  · intro hf u hu
    cases hu with
    | limit hu => exact hclean hf u hu
    | inst hi hu => exact hok.clean hf _ (plan_visited hi) (Nat.zero_le _) u hu
  · intro h
    by_contra hf
    obtain ⟨u, hu, hleaks⟩ := hok.failed hf
    exact h u hu hleaks

end Graph

end Spork.Unroll.Sink
