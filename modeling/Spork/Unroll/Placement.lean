import Spork.Unroll.Sunk

/-!
# Where clones stand

A clone reads clones, and those have to stand before it. `replaceOrSinkPastExit` makes each clone
once and rewires it, but it inserts the clones in the order in which a stack search meets their
originals. That is an order of definition before use for some graphs and use lists, and not for
others: an instruction that reads the limit and another marked instruction is met from the limit,
which may be too early.

## Main definitions

* `Placed` — the clones are made once, rewired, and stand behind what they read.
* `useLists` — the use lists of a function, in the order in which its instructions were created.
* `placed_iff`.
-/
namespace Spork.Unroll.Sink

open StackSearch

section
variable {I A B : Type} [DecidableEq I] [DecidableEq A] [Fintype I]

/-- Marked instructions have been cloned in order of definition before use. -/
structure Placed (g : Graph I A B) (st : Sinking I A) : Prop where
  nodup : st.clones.Nodup
  marked : ∀ i, i ∈ st.clones ↔ g.plan.lookup i = true
  limit : ∀ i ∈ st.clones, ∀ k : ℕ, (g.operands i)[k]? = some Value.limit →
    (st.cloneOperands i)[k]? = some New.exitIndex
  cloned : ∀ i ∈ st.clones, ∀ j ∈ st.clones, ∀ k : ℕ, (g.operands i)[k]? = some (Value.inst j) →
    (st.cloneOperands i)[k]? = some (New.clone j)
  before : ∀ i ∈ st.clones, ∀ j, New.clone j ∈ st.cloneOperands i →
    j ∈ st.clones ∧ st.clones.idxOf j < st.clones.idxOf i

omit [DecidableEq A] in
/-- A clone is read where its original was. -/
theorem clone_mem_map_subst {g : Graph I A B} {j : I} {vs : List (Value I A)} :
    New.clone j ∈ vs.map g.subst ↔ Value.inst j ∈ vs ∧ g.plan.lookup j = true := by
  simp only [List.mem_map, Graph.subst_eq_clone]
  constructor
  · rintro ⟨v, hv, rfl, h⟩
    exact ⟨hv, h⟩
  · rintro ⟨hv, h⟩
    exact ⟨_, hv, rfl, h⟩

end

/-- **Clones are made once and rewired. They stand in order of definition before use exactly
when no marked instruction has a smaller place in the use lists than a marked instruction that
it reads.** -/
theorem placed_iff {I A B : Type} [DecidableEq I] [DecidableEq A] [Fintype I]
    (g : Graph I A B) :
    (∃ st, g.replaceOrSinkPastExit = some st ∧ Placed g st) ↔
      ∀ i j, g.plan.lookup i = true → g.plan.lookup j = true → Value.inst j ∈ g.operands i →
        g.sinkDag.place (.inst j) < g.sinkDag.place (.inst i) := by
  obtain ⟨st, hst, hnodup, hmarked, hclones, -, horder⟩ := g.replaceOrSinkPastExit_spec
  constructor
  · rintro ⟨st', hst', hplaced⟩ i j hi hj hmem
    obtain rfl : st = st' := Option.some.inj (hst.symm.trans hst')
    have hread : New.clone j ∈ st.cloneOperands i := by
      rw [hclones i ((hmarked i).mpr hi), clone_mem_map_subst]
      exact ⟨hmem, hj⟩
    have hbefore := (hplaced.before i ((hmarked i).mpr hi) j hread).2
    exact (horder i ((hmarked i).mpr hi) j ((hmarked j).mpr hj)).mp hbefore
  · intro h
    refine ⟨st, hst, hnodup, hmarked, ?_, ?_, ?_⟩
    · intro i hi k hk
      rw [hclones i hi, List.getElem?_map, hk]
      rfl
    · intro i hi j hj k hk
      rw [hclones i hi, List.getElem?_map, hk]
      simp [Graph.subst, (hmarked j).mp hj]
    · intro i hi j hread
      rw [hclones i hi, clone_mem_map_subst] at hread
      obtain ⟨hmem, hj⟩ := hread
      refine ⟨(hmarked j).mpr hj, (horder i hi j ((hmarked j).mpr hj)).mpr ?_⟩
      exact h i j ((hmarked i).mp hi) hj hmem

/-- The use lists of a function whose instructions are `is`, newest first. -/
def useLists {I A : Type} [DecidableEq I] [DecidableEq A] (is : List I)
    (operands : I → List (Value I A)) (v : Value I A) : List (Use I) :=
  is.flatMap fun i =>
    ((List.range (operands i).length).filter fun k => (operands i)[k]? = some v).map fun k =>
      ⟨.inst i, k⟩

theorem mem_useLists {I A : Type} [DecidableEq I] [DecidableEq A] {is : List I}
    {operands : I → List (Value I A)} {v : Value I A} {i : I} (hi : i ∈ is) (k : ℕ) :
    ⟨.inst i, k⟩ ∈ useLists is operands v ↔ (operands i)[k]? = some v := by
  simp only [useLists, List.mem_flatMap, List.mem_map, List.mem_filter, List.mem_range,
    decide_eq_true_eq, Use.mk.injEq, User.inst.injEq]
  constructor
  · rintro ⟨j, -, m, ⟨-, hm⟩, rfl, rfl⟩
    exact hm
  · intro hk
    exact ⟨i, hi, k, ⟨(List.getElem?_eq_some_iff.mp hk).1, hk⟩, rfl, rfl⟩

/-- Before a loop `a = add limit, 1` and `b = mul limit, a`, in its latch the compare, and after
the exit a store of `b`. -/
inductive MulInst
  | a
  | b
  | compare
  | store
  deriving DecidableEq, Repr

instance : Fintype MulInst where
  elems := {.a, .b, .compare, .store}
  complete i := by cases i <;> decide

/-- The operands. -/
def mulOperands : MulInst → List (Value MulInst Unit)
  | .a => [.limit, .other ()]
  | .b => [.limit, .inst .a]
  | .compare => [.other (), .limit]
  | .store => [.inst .b]

/-- The instructions, created in this order; their blocks are past the exit or not. -/
def mulChain : Graph MulInst Unit Bool where
  kind
    | .store => .effect
    | _ => .pure
  operands := mulOperands
  uses := useLists [.store, .compare, .b, .a] mulOperands
  block i := i = .store
  incomingBlock _ _ := false
  exitDominates past := past
  compare := .compare
  rank
    | .b => 1
    | _ => 0
  mem_uses v i k := mem_useLists (by cases i <;> simp) k
  rank_lt := by decide
  compare_pure := rfl
  compare_before := rfl

/-- `b` is the newest user of the limit, so its clone is made first, before that of `a`. -/
theorem mulChain_not_placed :
    mulChain.replaceOrSinkPastExit.map (fun st => (st.clones, st.cloneOperands .b)) =
        some ([.b, .a], [.exitIndex, .clone .a]) ∧
      ¬ ∃ st, mulChain.replaceOrSinkPastExit = some st ∧ Placed mulChain st := by
  have hrun : mulChain.replaceOrSinkPastExit.map (fun st => (st.clones, st.cloneOperands .b)) =
      some ([.b, .a], [.exitIndex, .clone .a]) := by rfl
  refine ⟨hrun, ?_⟩
  rintro ⟨st, hst, hplaced⟩
  rw [hst, Option.map_some, Option.some.injEq, Prod.mk.injEq] at hrun
  obtain ⟨hclones, hops⟩ := hrun
  have hbefore := (hplaced.before .b (by simp [hclones]) .a (by simp [hops])).2
  rw [hclones] at hbefore
  exact absurd hbefore (by decide)

end Spork.Unroll.Sink
