import Spork.Lib.StackSearch
import Spork.Unroll.SinkPlan

/-!
# Sinking past the exit

`replaceOrSinkPastExit` replaces the limit by the exit index in all uses after the exit, and
clones the instructions that `SinkPlan` has marked into the exit block, with their operands
rewired. Its worklist is a stack; a clone is inserted when its original is met, behind the
clones that are there.

## Main definitions

* `New`, `NewUse`, `Sinking` — the rewritten graph, with the worklist.
* `Sinking.set`, `Sinking.clone`, `Sinking.rewire`, `Graph.sinkUse`, `replaceOrSinkPastExit` — the
  source.
* `Graph.sinkDag` — the limit and the marked instructions.
* `Graph.subst` — what replaces a value after the exit.
* `Sunk`, `replaceOrSinkPastExit_spec` — the rewritten graph.
-/
namespace Spork.Unroll.Sink

open StackSearch

/-- A value of the rewritten graph. -/
inductive New (I A : Type)
  | old (v : Value I A)
  /-- `spork.idx.exit`. -/
  | exitIndex
  | clone (i : I)
  deriving DecidableEq, Repr

/-- A use in the rewritten graph. -/
inductive NewUse (I : Type)
  | old (u : Use I)
  | clone (i : I) (slot : ℕ)
  deriving DecidableEq, Repr

/-- The rewritten graph, as far as it has come: the stack `Work` with its next value first, the
use lists of old values, the operands of instructions and of clones, and the instructions that
have a clone, in the order in which the clones stand. -/
structure Sinking (I A : Type) where
  work : List (Value I A × New I A)
  uses : Value I A → List (NewUse I)
  operands : I → List (New I A)
  cloneOperands : I → List (New I A)
  clones : List I

namespace Sinking

variable {I A : Type} [DecidableEq I] [DecidableEq A] (st : Sinking I A)

/-- `U.set(R)`, for a use of `O`. -/
def set (O : Value I A) (R : New I A) (u : NewUse I) : Sinking I A :=
  let uses := Function.update st.uses O ((st.uses O).erase u)
  match u with
  | .old ⟨.inst i, k⟩ =>
      { st with uses, operands := Function.update st.operands i ((st.operands i).set k R) }
  | .old ⟨.other _, _⟩ => { st with uses }
  | .clone i k =>
      { st with
        uses, cloneOperands := Function.update st.cloneOperands i ((st.cloneOperands i).set k R) }

/-- A new instruction stands first in the use lists of its operands. -/
def addUses (i : I) : ℕ → List (New I A) → (Value I A → List (NewUse I)) →
    Value I A → List (NewUse I)
  | _, [], uses => uses
  | k, .old v :: ops, uses => addUses i (k + 1) ops (Function.update uses v (.clone i k :: uses v))
  | k, _ :: ops, uses => addUses i (k + 1) ops uses

/-- `UI->clone()`, inserted behind the clones before, and its entry in `Work`. -/
def clone (i : I) : Sinking I A where
  work := (.inst i, .clone i) :: st.work
  uses := addUses i 0 (st.operands i) st.uses
  operands := st.operands
  cloneOperands := Function.update st.cloneOperands i (st.operands i)
  clones := st.clones ++ [i]

/-- The loop over the operands of a clone. -/
def rewire (i : I) (O : Value I A) (R : New I A) : Sinking I A :=
  { st with
    uses := Function.update st.uses O ((st.uses O).filter fun
      | .clone j _ => j ≠ i
      | .old _ => true)
    cloneOperands := Function.update st.cloneOperands i
      ((st.cloneOperands i).map fun v => if v = .old O then R else v) }

omit [DecidableEq A] in
/-- One operand of one instruction is written. -/
theorem getElem?_update_set (ops : I → List (New I A)) (i₀ : I) (k₀ : ℕ) (R : New I A) (i : I)
    (k : ℕ) : (Function.update ops i₀ ((ops i₀).set k₀ R) i)[k]? =
      if (i, k) = (i₀, k₀) then (ops i)[k]?.map fun _ => R else (ops i)[k]? := by
  by_cases hi : i = i₀
  · subst hi
    rw [Function.update_self]
    by_cases hk : k = k₀
    · subst hk
      rw [if_pos rfl, List.getElem?_set, if_pos rfl]
      by_cases hlt : k < (ops i).length
      · simp [hlt]
      · simp [hlt]
    · rw [if_neg (by simpa using hk), List.getElem?_set_ne (Ne.symm hk)]
  · rw [Function.update_of_ne hi, if_neg (by simp [hi])]

/-- A new clone is in the use lists of its operands. -/
theorem addUses_spec (i : I) (n : ℕ)
    (ops : List (New I A)) (uses : Value I A → List (NewUse I)) (v : Value I A) :
    ∃ newer : List (I × ℕ),
      addUses i n ops uses v = newer.map (fun p => .clone p.1 p.2) ++ uses v ∧
      ∀ j k, (j, k) ∈ newer ↔ j = i ∧ n ≤ k ∧ ops[k - n]? = some (.old v) := by
  induction ops generalizing n uses with
  | nil => exact ⟨[], rfl, by simp⟩
  | cons op ops ih =>
    have hshift : ∀ k, n + 1 ≤ k → (op :: ops)[k - n]? = ops[k - (n + 1)]? := by
      intro k hk
      obtain ⟨m, rfl⟩ := Nat.exists_eq_add_of_le hk
      have h₁ : n + 1 + m - n = m + 1 := by omega
      have h₂ : n + 1 + m - (n + 1) = m := by omega
      rw [h₁, h₂, List.getElem?_cons_succ]
    -- the first operand is in another use list
    have hother : ∀ {uses' : Value I A → List (NewUse I)}, op ≠ .old v → uses' v = uses v →
        addUses i n (op :: ops) uses v = addUses i (n + 1) ops uses' v →
        ∃ newer : List (I × ℕ),
          addUses i n (op :: ops) uses v =
            newer.map (fun p => .clone p.1 p.2) ++ uses v ∧
          ∀ j k, (j, k) ∈ newer ↔ j = i ∧ n ≤ k ∧ (op :: ops)[k - n]? = some (.old v) := by
      intro uses' hne huses heq
      obtain ⟨newer, hnewer, hmem⟩ := ih (n + 1) uses'
      refine ⟨newer, by rw [heq, hnewer, huses], fun j k => (hmem j k).trans ?_⟩
      constructor
      · rintro ⟨rfl, hk, hop⟩
        exact ⟨rfl, by omega, (hshift k hk).trans hop⟩
      · rintro ⟨rfl, hk, hop⟩
        have hlt : n + 1 ≤ k := by
          by_contra h
          obtain rfl : k = n := by omega
          rw [Nat.sub_self, List.getElem?_cons_zero, Option.some.injEq] at hop
          exact hne hop
        exact ⟨rfl, hlt, (hshift k hlt).symm.trans hop⟩
    cases op with
    | exitIndex => exact hother (by simp) rfl rfl
    | clone j => exact hother (by simp) rfl rfl
    | old u =>
      by_cases hu : u = v
      · subst hu
        obtain ⟨newer, hnewer, hmem⟩ :=
          ih (n + 1) (Function.update uses u (.clone i n :: uses u))
        refine ⟨newer ++ [(i, n)], ?_, fun j k => ?_⟩
        · rw [addUses, hnewer, Function.update_self]
          simp
        · rw [List.mem_append, hmem j k, List.mem_singleton, Prod.mk.injEq]
          constructor
          · rintro (⟨rfl, hk, hop⟩ | ⟨rfl, rfl⟩)
            · exact ⟨rfl, by omega, (hshift k hk).trans hop⟩
            · exact ⟨rfl, le_rfl, by simp⟩
          · rintro ⟨rfl, hk, hop⟩
            by_cases heq : k = n
            · exact .inr ⟨rfl, heq⟩
            · have hlt : n + 1 ≤ k := by omega
              exact .inl ⟨rfl, hlt, (hshift k hlt).symm.trans hop⟩
      · have hne : New.old u ≠ (.old v : New I A) := by simpa using hu
        have hsame : Function.update uses u (.clone i n :: uses u) v = uses v :=
          Function.update_of_ne (Ne.symm hu) ..
        exact hother hne hsame rfl

end Sinking

namespace Graph

variable {I A B : Type} [DecidableEq I] [DecidableEq A] [Fintype I] (g : Graph I A B)

/-- The loop body of `replaceOrSinkPastExit`. A clone stands in the exit block. -/
def sinkUse (O : Value I A) (R : New I A) (st : Sinking I A) : NewUse I → Sinking I A
  | .clone i k => st.set O R (.clone i k)
  | .old u =>
      if u.user = .inst g.compare then st
      else if g.exitDominatesUse u then st.set O R (.old u)
      else
        match u.user with
        | .other _ => st
        | .inst i =>
            if g.plan.lookup i then
              Sinking.rewire (if i ∈ st.clones then st else st.clone i) i O R
            else st

/-- The loop over the worklist. -/
def sink : ℕ → Sinking I A → Option (Sinking I A)
  | 0, _ => none
  | fuel + 1, st =>
      match st.work with
      | [] => some st
      | (O, R) :: rest => sink fuel ((st.uses O).foldl (g.sinkUse O R) { st with work := rest })

/-- The graph before. -/
def unsunk : Sinking I A where
  work := [(.limit, .exitIndex)]
  uses v := (g.uses v).map .old
  operands i := (g.operands i).map .old
  cloneOperands _ := []
  clones := []

/-- `replaceOrSinkPastExit`, for the limit and the exit index. -/
def replaceOrSinkPastExit : Option (Sinking I A) := g.sink (Fintype.card I + 2) g.unsunk

/-! ## The search behind the worklist -/

/-- The limit or an instruction that is cloned. -/
def isSunk : Value I A → Bool
  | .limit => true
  | .inst i => g.plan.lookup i
  | .other _ => false

/-- The clone of what replaces a value after the exit. -/
def subst : Value I A → New I A
  | .limit => .exitIndex
  | .inst i => if g.plan.lookup i then .clone i else .old (.inst i)
  | .other a => .old (.other a)

/-- The instruction that a use makes a candidate for cloning. -/
def sunkUser (u : Use I) : Option (Value I A) :=
  match u.user with
  | .inst i => if g.plan.lookup i then some (.inst i) else none
  | .other _ => none

variable {g} {i j : I} {u : Use I} {v : Value I A}

omit [DecidableEq A] in
theorem lookup_sinks (h : g.plan.lookup i = true) :
    g.kind i = .pure ∧ i ≠ g.compare ∧ ∀ k, g.exitDominatesUse ⟨.inst i, k⟩ = false := by
  have hvisited := (plan_needs i).mp h |>.1
  obtain ⟨u, hs⟩ : ∃ u, g.Sinks u i := by
    cases hvisited with
    | limit _ hs => exact ⟨_, hs⟩
    | inst _ _ hs => exact ⟨_, hs⟩
  refine ⟨hs.pure, hs.ne_compare, fun k => ?_⟩
  have hbefore := hs.before
  simp only [exitDominatesUse, hs.user, hs.pure, reduceCtorEq, if_false] at hbefore ⊢
  exact hbefore

omit [DecidableEq A] in
theorem sunkUser_eq_some : g.sunkUser u = some v ↔
    ∃ i, u.user = .inst i ∧ g.plan.lookup i = true ∧ v = .inst i := by
  rw [sunkUser]
  cases u.user with
  | other n => simp
  | inst i =>
    by_cases h : g.plan.lookup i = true
    · simp only [if_pos h, Option.some.injEq, User.inst.injEq]
      constructor
      · rintro rfl
        exact ⟨i, rfl, h, rfl⟩
      · rintro ⟨i', rfl, -, rfl⟩
        rfl
    · simp only [if_neg h, reduceCtorEq, User.inst.injEq, false_iff, not_exists]
      rintro i' ⟨rfl, h', -⟩
      exact h h'

omit [DecidableEq A] in
theorem mem_sunkUsers {p : Value I A} : v ∈ (g.uses p).filterMap g.sunkUser ↔
    ∃ i, v = .inst i ∧ g.plan.lookup i = true ∧ p ∈ g.operands i := by
  rw [List.mem_filterMap]
  constructor
  · rintro ⟨⟨user, slot⟩, hu, hv⟩
    obtain ⟨i, rfl, hi, rfl⟩ := sunkUser_eq_some.mp hv
    exact ⟨i, rfl, hi, List.mem_of_getElem? ((g.mem_uses _ _ _).mp hu)⟩
  · rintro ⟨i, rfl, hi, hp⟩
    obtain ⟨k, hk⟩ := List.mem_iff_getElem?.mp hp
    exact ⟨⟨.inst i, k⟩, (g.mem_uses _ _ _).mpr hk, sunkUser_eq_some.mpr ⟨i, rfl, hi, rfl⟩⟩

omit [DecidableEq A] in
/-- Something that is cloned has something to sink. -/
theorem exists_sunk_operand (h : g.plan.lookup i = true) :
    ∃ v ∈ g.operands i, g.isSunk v = true := by
  obtain ⟨hvisited, hfeeds⟩ := (plan_needs i).mp h
  cases hvisited with
  | limit hu hs => exact ⟨_, hs.mem_operands hu, rfl⟩
  | inst hi hu hs => exact ⟨_, hs.mem_operands hu, (plan_needs _).mpr ⟨hi, .inst hu hs hfeeds⟩⟩

/-- The rank of a value: the limit is first. -/
def valueRank (g : Graph I A B) : Value I A → ℕ
  | .inst i => g.rank i + 1
  | _ => 0

omit [DecidableEq I] [DecidableEq A] [Fintype I] in
theorem valueRank_lt (hv : v ∈ g.operands i) (hi : g.kind i = .pure) :
    g.valueRank v < g.valueRank (.inst i) := by
  cases v with
  | inst j => exact Nat.succ_lt_succ (g.rank_lt j i hv hi)
  | limit => exact Nat.succ_pos _
  | other a => exact Nat.succ_pos _

/-- What of the operands of a cloned instruction has been replaced. -/
def sunkOperands (g : Graph I A B) : Value I A → List (Value I A)
  | .inst i => if g.plan.lookup i then (g.operands i).filter g.isSunk else []
  | _ => []

omit [DecidableEq A] in
theorem mem_sunkOperands {p : Value I A} : p ∈ g.sunkOperands v ↔
    ∃ i, v = .inst i ∧ g.plan.lookup i = true ∧ p ∈ g.operands i ∧ g.isSunk p = true := by
  cases v with
  | limit => simp [sunkOperands]
  | other a => simp [sunkOperands]
  | inst i =>
    by_cases h : g.plan.lookup i = true
    · simp [sunkOperands, h, List.mem_filter]
    · simp [sunkOperands, h]

omit [DecidableEq A] in
theorem mem_sunkSuccs {p : Value I A} :
    v ∈ (if g.isSunk p then (g.uses p).filterMap g.sunkUser else []) ↔ p ∈ g.sunkOperands v := by
  rw [mem_sunkOperands]
  by_cases h : g.isSunk p = true
  · rw [if_pos h, mem_sunkUsers]
    simp [h]
  · rw [if_neg h]
    simp [h]

omit [DecidableEq A] in
theorem sunkOperands_ne_nil (h : g.isSunk v = true) (hne : v ≠ .limit) :
    g.sunkOperands v ≠ [] := by
  cases v with
  | limit => exact absurd rfl hne
  | other a => cases h
  | inst i =>
    obtain ⟨p, hp, hsunk⟩ := exists_sunk_operand h
    exact List.ne_nil_of_mem (mem_sunkOperands.mpr ⟨i, rfl, h, hp, hsunk⟩)

/-- The graph that is searched: the limit and what is cloned, by use lists. -/
def sinkDag (g : Graph I A B) : Dag (Value I A) where
  root := .limit
  succs p := if g.isSunk p then (g.uses p).filterMap g.sunkUser else []
  preds := g.sunkOperands
  rank := g.valueRank
  mem_preds := mem_sunkSuccs.symm
  rank_lt h := by
    obtain ⟨i, rfl, hi, hp, -⟩ := mem_sunkOperands.mp (mem_sunkSuccs.mp h)
    exact valueRank_lt hp (lookup_sinks hi).1
  preds_root := rfl
  preds_ne h hne := by
    obtain ⟨i, -, -, -, hsunk⟩ := mem_sunkOperands.mp (mem_sunkSuccs.mp h)
    exact sunkOperands_ne_nil hsunk hne

/-! ## One value -/

/-- What replaces a value that has been popped. -/
def substIn (g : Graph I A B) (done : List (Value I A)) (v : Value I A) : New I A :=
  if v ∈ done then g.subst v else .old v

/-- The invariant of the worklist, when `done` has been popped. -/
structure SinkOk (g : Graph I A B) (done : List (Value I A)) (st : Sinking I A) : Prop where
  reached : g.sinkDag.Reached done ⟨st.work.map Prod.fst, st.clones.map .inst⟩
  work : ∀ w ∈ st.work, w.2 = g.subst w.1
  sunk : ∀ i ∈ st.clones, g.plan.lookup i = true
  operands : ∀ i k, (st.operands i)[k]? = (g.operands i)[k]?.map fun v =>
    if g.exitDominatesUse ⟨.inst i, k⟩ then g.substIn done v else .old v
  clones : ∀ i ∈ st.clones, st.cloneOperands i = (g.operands i).map (g.substIn done)
  uses : ∀ v ∉ done, ∃ newer : List (I × ℕ),
    st.uses v = newer.map (fun p => .clone p.1 p.2) ++ (g.uses v).map .old ∧
    ∀ i k, (i, k) ∈ newer ↔ i ∈ st.clones ∧ (st.cloneOperands i)[k]? = some (.old v)

variable {done : List (Value I A)} {st : Sinking I A} {O : Value I A} {R : New I A}

omit [DecidableEq A] in
theorem subst_eq_old {w : Value I A} : g.subst w = .old v ↔ w = v ∧ g.isSunk v = false := by
  cases w with
  | limit =>
    simp only [subst, reduceCtorEq, false_iff, not_and]
    rintro rfl
    simp [isSunk]
  | other a =>
    simp only [subst, New.old.injEq]
    constructor
    · rintro rfl
      exact ⟨rfl, rfl⟩
    · exact And.left
  | inst i =>
    by_cases h : g.plan.lookup i = true
    · simp only [subst, if_pos h, reduceCtorEq, false_iff, not_and]
      rintro rfl
      simp [isSunk, h]
    · simp only [subst, if_neg h, New.old.injEq]
      constructor
      · rintro rfl
        exact ⟨rfl, by simpa [isSunk] using h⟩
      · exact And.left

omit [DecidableEq A] in
theorem subst_eq_clone : g.subst v = .clone i ↔ v = .inst i ∧ g.plan.lookup i = true := by
  cases v with
  | limit => simp [subst]
  | other a => simp [subst]
  | inst j =>
    by_cases h : g.plan.lookup j = true
    · simp only [subst, if_pos h, New.clone.injEq, Value.inst.injEq]
      constructor
      · rintro rfl
        exact ⟨rfl, h⟩
      · exact And.left
    · simp only [subst, if_neg h, reduceCtorEq, Value.inst.injEq, false_iff, not_and]
      rintro rfl
      exact h

omit [DecidableEq A] in
theorem subst_eq_exitIndex : g.subst v = .exitIndex ↔ v = .limit := by
  cases v with
  | limit => simp [subst]
  | other a => simp [subst]
  | inst j => by_cases h : g.plan.lookup j = true <;> simp [subst, h]

theorem substIn_eq_old {w : Value I A} :
    g.substIn done w = .old v ↔ w = v ∧ (v ∈ done → g.isSunk v = false) := by
  rw [substIn]
  by_cases h : w ∈ done
  · rw [if_pos h, subst_eq_old]
    constructor
    · exact fun ⟨he, hs⟩ => ⟨he, fun _ => hs⟩
    · exact fun ⟨he, hs⟩ => ⟨he, hs (he ▸ h)⟩
  · rw [if_neg h, New.old.injEq]
    constructor
    · exact fun he => ⟨he, fun hv => absurd (he ▸ hv) h⟩
    · exact And.left

theorem substIn_cons (w : Value I A) :
    g.substIn (O :: done) w = if w = O then g.subst O else g.substIn done w := by
  by_cases h : w = O
  · simp [substIn, h]
  · simp [substIn, h]

/-- The uses by clones come first: they are set. -/
theorem foldl_set_clones (ps : List (I × ℕ)) (st : Sinking I A) :
    let st' := (ps.map fun p => NewUse.clone p.1 p.2).foldl (g.sinkUse O R) st
    st'.work = st.work ∧ st'.clones = st.clones ∧ st'.operands = st.operands ∧
      (∀ v, v ≠ O → st'.uses v = st.uses v) ∧
      ∀ i k, (st'.cloneOperands i)[k]? =
        if (i, k) ∈ ps then (st.cloneOperands i)[k]?.map fun _ => R
        else (st.cloneOperands i)[k]? := by
  induction ps generalizing st with
  | nil => simp
  | cons p ps ih =>
    obtain ⟨i₀, k₀⟩ := p
    obtain ⟨hwork, hclones, hoperands, huses, hops⟩ := ih (st.set O R (.clone i₀ k₀))
    refine ⟨hwork, hclones, hoperands, fun v hv => ?_, fun i k => ?_⟩
    · refine (huses v hv).trans ?_
      simp only [Sinking.set]
      exact Function.update_of_ne hv ..
    · refine (hops i k).trans ?_
      have hset : ((st.set O R (.clone i₀ k₀)).cloneOperands i)[k]? =
          if (i, k) = (i₀, k₀) then (st.cloneOperands i)[k]?.map fun _ => R
          else (st.cloneOperands i)[k]? :=
        Sinking.getElem?_update_set st.cloneOperands i₀ k₀ R i k
      rw [hset]
      by_cases h₀ : (i, k) = (i₀, k₀)
      · have hmem : (i, k) ∈ (i₀, k₀) :: ps := h₀ ▸ List.mem_cons_self
        simp only [if_pos h₀, if_pos hmem]
        split
        · rw [Option.map_map]
          rfl
        · rfl
      · rw [if_neg h₀]
        have hmem : (i, k) ∈ (i₀, k₀) :: ps ↔ (i, k) ∈ ps := by
          rw [List.mem_cons]
          exact or_iff_right h₀
        simp only [hmem]

/-- The popped value, when some of its uses have been gone through. -/
structure PopOk (g : Graph I A B) (O : Value I A) (done : List (Value I A))
    (x : Search (Value I A)) (us : List (Use I)) (st : Sinking I A) : Prop where
  search : (⟨st.work.map Prod.fst, st.clones.map .inst⟩ : Search (Value I A)) =
    (us.filterMap g.sunkUser).foldl meet x
  work : ∀ w ∈ st.work, w.2 = g.subst w.1
  sunk : ∀ i ∈ st.clones, g.plan.lookup i = true
  fresh : ∀ i, g.plan.lookup i = true → i ∉ st.clones → ∀ v ∈ g.operands i, v ∉ done
  operands : ∀ i k, (st.operands i)[k]? = (g.operands i)[k]?.map fun v =>
    if g.exitDominatesUse ⟨.inst i, k⟩ ∧ (v = O → ⟨.inst i, k⟩ ∈ us) then
      g.substIn (O :: done) v
    else .old v
  clones : ∀ i ∈ st.clones, st.cloneOperands i = (g.operands i).map (g.substIn (O :: done))
  uses : ∀ v ∉ O :: done, ∃ newer : List (I × ℕ),
    st.uses v = newer.map (fun p => .clone p.1 p.2) ++ (g.uses v).map .old ∧
    ∀ i k, (i, k) ∈ newer ↔ i ∈ st.clones ∧ (st.cloneOperands i)[k]? = some (.old v)

/-- What has been popped is the limit or has a clone. -/
theorem SinkOk.isSunk (h : SinkOk g done st) (hv : v ∈ done) : g.isSunk v = true := by
  rcases h.reached.ok.popped v hv with rfl | hmet
  · rfl
  · obtain ⟨i, hi, rfl⟩ := List.mem_map.mp hmet
    exact h.sunk i hi

/-- The users of what has been popped have been met. -/
theorem SinkOk.fresh (h : SinkOk g done st) (hi : g.plan.lookup i = true) (hnew : i ∉ st.clones)
    (hv : v ∈ g.operands i) : v ∉ done := by
  intro hdone
  have hsucc : .inst i ∈ g.sinkDag.succs v :=
    mem_sunkSuccs.mpr (mem_sunkOperands.mpr ⟨i, rfl, hi, hv, h.isSunk hdone⟩)
  obtain ⟨j, hj, heq⟩ := List.mem_map.mp ((h.reached.ok.met _).mpr ⟨v, hdone, hsucc⟩)
  exact hnew (Value.inst.inj heq ▸ hj)

/-- The state after the uses by clones. -/
theorem SinkOk.popOk (h : SinkOk g done st) {rest : List (Value I A × New I A)}
    (hwork : st.work = (O, R) :: rest) {newer : List (I × ℕ)}
    (hnewer : ∀ i k, (i, k) ∈ newer ↔ i ∈ st.clones ∧ (st.cloneOperands i)[k]? = some (.old O))
    (hO : O ∉ done) (hsunk : g.isSunk O = true) (hR : R = g.subst O) :
    PopOk g O done ⟨rest.map Prod.fst, st.clones.map .inst⟩ []
      ((newer.map fun p => NewUse.clone p.1 p.2).foldl (g.sinkUse O R)
        { st with work := rest }) := by
  obtain ⟨hw, hclones, hoperands, huses, hops⟩ :=
    foldl_set_clones (g := g) (O := O) (R := R) newer { st with work := rest }
  set st' := (newer.map fun p => NewUse.clone p.1 p.2).foldl (g.sinkUse O R)
    { st with work := rest } with hst'
  simp only at hw hclones hoperands huses hops
  have hsubst : ∀ w, g.substIn done w = .old O ↔ w = O :=
    fun w => substIn_eq_old.trans (and_iff_left fun hdone => absurd hdone hO)
  have hRne : ∀ w, R ≠ .old w := by
    rintro w rfl
    have := (subst_eq_old.mp hR.symm).2
    rw [(subst_eq_old.mp hR.symm).1] at hsunk
    simp [hsunk] at this
  refine ⟨by rw [hw, hclones]; rfl, ?_, ?_, ?_, ?_, ?_, ?_⟩
  · intro w hw'
    rw [hw] at hw'
    exact h.work w (hwork ▸ List.mem_cons_of_mem _ hw')
  · intro i hi
    rw [hclones] at hi
    exact h.sunk i hi
  · intro i hi hnew v hv
    rw [hclones] at hnew
    exact h.fresh hi hnew hv
  · intro i k
    rw [hoperands, h.operands]
    congr 1
    funext v
    by_cases hv : v = O
    · subst hv
      simp [substIn, hO]
    · simp [substIn_cons, hv]
  · intro i hi
    rw [hclones] at hi
    apply List.ext_getElem?
    intro k
    have hold : (st.cloneOperands i)[k]? = (g.operands i)[k]?.map (g.substIn done) := by
      rw [h.clones i hi, List.getElem?_map]
    have hmem := hnewer i k
    rw [hold] at hmem
    rw [hops, List.getElem?_map, hold]
    cases hk : (g.operands i)[k]? with
    | none => simp
    | some v =>
      simp only [hk, Option.map_some, Option.some.injEq, hsubst, hi, true_and] at hmem
      simp only [Option.map_some, hmem, substIn_cons, hR]
      split <;> rfl
  · intro v hv
    obtain ⟨hvO, hvdone⟩ := not_or.mp (List.mem_cons.not.mp hv)
    obtain ⟨newer', huse, hmem'⟩ := h.uses v hvdone
    refine ⟨newer', (huses v hvO).trans huse, fun i k => (hmem' i k).trans ?_⟩
    rw [hclones]
    apply and_congr_right
    intro hi
    rw [hops]
    by_cases hmem : (i, k) ∈ newer
    · have hold := ((hnewer i k).mp hmem).2
      rw [if_pos hmem, hold]
      simp [Ne.symm hvO, hRne v]
    · rw [if_neg hmem]

section
variable {x : Search (Value I A)} {us : List (Use I)}

/-- A use before the exit does not change the operands after it. -/
theorem PopOk.operands_before (h : PopOk g O done x us st) (hu : g.exitDominatesUse u = false)
    (i : I) (k : ℕ) : (st.operands i)[k]? = (g.operands i)[k]?.map fun v =>
      if g.exitDominatesUse ⟨.inst i, k⟩ ∧ (v = O → ⟨.inst i, k⟩ ∈ us ++ [u]) then
        g.substIn (O :: done) v
      else .old v := by
  rw [h.operands]
  congr 1
  funext v
  have hiff : (g.exitDominatesUse ⟨.inst i, k⟩ ∧ (v = O → ⟨.inst i, k⟩ ∈ us)) ↔
      (g.exitDominatesUse ⟨.inst i, k⟩ ∧ (v = O → ⟨.inst i, k⟩ ∈ us ++ [u])) := by
    apply and_congr_right
    intro hpast
    have hne : (⟨.inst i, k⟩ : Use I) ≠ u := by
      rintro rfl
      rw [hu] at hpast
      cases hpast
    rw [List.mem_append, List.mem_singleton, or_iff_left hne]
  simp only [hiff]

/-- A use that makes no difference. -/
theorem PopOk.skip (h : PopOk g O done x us st) (hu : g.exitDominatesUse u = false)
    (hnone : g.sunkUser u = none) : PopOk g O done x (us ++ [u]) st := by
  refine ⟨?_, h.work, h.sunk, h.fresh, h.operands_before hu, h.clones, h.uses⟩
  rw [List.filterMap_append, List.filterMap_cons_none hnone, List.filterMap_nil, List.append_nil]
  exact h.search

/-- A use after the exit is set. -/
theorem PopOk.set (h : PopOk g O done x us st) (hu : u ∈ g.uses O)
    (hpast : g.exitDominatesUse u = true) (hR : R = g.subst O) :
    PopOk g O done x (us ++ [u]) (st.set O R (.old u)) := by
  obtain ⟨user, k₀⟩ := u
  cases user with
  | other n => cases hpast
  | inst i₀ =>
    have hnone : g.sunkUser ⟨.inst i₀, k₀⟩ = none := by
      cases hs : g.sunkUser ⟨.inst i₀, k₀⟩ with
      | none => rfl
      | some v =>
        obtain ⟨i, hi, hlookup, -⟩ := sunkUser_eq_some.mp hs
        obtain rfl : i₀ = i := User.inst.inj hi
        rw [(lookup_sinks hlookup).2.2 k₀] at hpast
        cases hpast
    have hop : (g.operands i₀)[k₀]? = some O := (g.mem_uses _ _ _).mp hu
    refine ⟨?_, h.work, h.sunk, h.fresh, fun i k => ?_, h.clones, fun v hv => ?_⟩
    · rw [List.filterMap_append, List.filterMap_cons_none hnone, List.filterMap_nil,
        List.append_nil]
      exact h.search
    · simp only [Sinking.set]
      rw [Sinking.getElem?_update_set, h.operands]
      by_cases heq : (i, k) = (i₀, k₀)
      · obtain ⟨rfl, rfl⟩ := Prod.mk.inj heq
        rw [if_pos rfl, hop]
        simp [hpast, substIn_cons, hR]
      · have hne : (⟨.inst i, k⟩ : Use I) ≠ ⟨.inst i₀, k₀⟩ := by
          simpa using heq
        rw [if_neg heq]
        simp only [List.mem_append, List.mem_singleton, hne, or_false]
    · obtain ⟨newer, huse, hmem⟩ := h.uses v hv
      have hvO : v ≠ O := fun he => hv (he ▸ List.mem_cons_self)
      refine ⟨newer, ?_, hmem⟩
      simp only [Sinking.set]
      rw [Function.update_of_ne hvO]
      exact huse

/-- A marked instruction that has a clone: nothing of it is left to rewire. -/
theorem PopOk.rewire (h : PopOk g O done x us st) (hu : g.exitDominatesUse u = false)
    (huser : u.user = .inst i) (hi : i ∈ st.clones) (hsunk : g.isSunk O = true) :
    PopOk g O done x (us ++ [u]) (st.rewire i O R) := by
  have hsame : (st.cloneOperands i).map (fun v => if v = .old O then R else v) =
      st.cloneOperands i := by
    rw [h.clones i hi]
    refine (List.map_congr_left fun w hw => ?_).trans (List.map_id _)
    obtain ⟨v, -, rfl⟩ := List.mem_map.mp hw
    have hne : g.substIn (O :: done) v ≠ .old O := by
      intro he
      have := (substIn_eq_old.mp he).2 List.mem_cons_self
      simp [hsunk] at this
    exact if_neg hne
  have hops : (st.rewire i O R).cloneOperands = st.cloneOperands := by
    simp only [Sinking.rewire]
    rw [hsame, Function.update_eq_self]
  refine ⟨?_, h.work, h.sunk, h.fresh, h.operands_before hu, ?_, fun v hv => ?_⟩
  · have hsome : g.sunkUser u = some (.inst i) :=
      sunkUser_eq_some.mpr ⟨i, huser, h.sunk i hi, rfl⟩
    rw [List.filterMap_append, List.filterMap_cons_some hsome, List.filterMap_nil,
      List.foldl_append, ← h.search, List.foldl_cons, List.foldl_nil, meet, if_pos]
    · rfl
    · exact List.mem_map_of_mem hi
  · intro j hj
    rw [hops]
    exact h.clones j hj
  · obtain ⟨newer, huse, hmem⟩ := h.uses v hv
    have hvO : v ≠ O := fun he => hv (he ▸ List.mem_cons_self)
    refine ⟨newer, ?_, fun j k => by rw [hops]; exact hmem j k⟩
    simp only [Sinking.rewire]
    rw [Function.update_of_ne hvO]
    exact huse

/-- A marked instruction is cloned. -/
theorem PopOk.clone (h : PopOk g O done x us st) (hu : g.exitDominatesUse u = false)
    (huser : u.user = .inst i) (hlookup : g.plan.lookup i = true) (hi : i ∉ st.clones)
    (hR : R = g.subst O) : PopOk g O done x (us ++ [u]) ((st.clone i).rewire i O R) := by
  -- all operands are old, and none has been popped before
  have hbefore := (lookup_sinks hlookup).2.2
  have hold : st.operands i = (g.operands i).map .old := by
    apply List.ext_getElem?
    intro k
    rw [h.operands, List.getElem?_map]
    simp [hbefore k]
  have hops : ((st.clone i).rewire i O R).cloneOperands =
      Function.update st.cloneOperands i ((g.operands i).map (g.substIn (O :: done))) := by
    simp only [Sinking.rewire, Sinking.clone]
    rw [Function.update_self, Function.update_idem, hold, List.map_map]
    congr 1
    apply List.map_congr_left
    intro v hv
    have hvdone := h.fresh i hlookup hi v hv
    simp only [Function.comp_apply, New.old.injEq, substIn_cons, hR]
    rw [substIn, if_neg hvdone]
  have hclones : ((st.clone i).rewire i O R).clones = st.clones ++ [i] := rfl
  refine ⟨?_, ?_, ?_, ?_, ?_, ?_, ?_⟩
  · have hsome : g.sunkUser u = some (.inst i) := sunkUser_eq_some.mpr ⟨i, huser, hlookup, rfl⟩
    have hnew : Value.inst i ∉ (st.clones.map Value.inst : List (Value I A)) := by
      intro hmem
      obtain ⟨j, hj, heq⟩ := List.mem_map.mp hmem
      exact hi (Value.inst.inj heq ▸ hj)
    rw [List.filterMap_append, List.filterMap_cons_some hsome, List.filterMap_nil,
      List.foldl_append, ← h.search, List.foldl_cons, List.foldl_nil, meet, if_neg hnew]
    simp [Sinking.rewire, Sinking.clone]
  · intro w hw
    rcases List.mem_cons.mp hw with rfl | hw
    · simp [subst, hlookup]
    · exact h.work w hw
  · intro j hj
    rcases List.mem_append.mp (hclones ▸ hj) with hj | hj
    · exact h.sunk j hj
    · exact List.mem_singleton.mp hj ▸ hlookup
  · intro j hj hnew
    rw [hclones] at hnew
    exact h.fresh j hj fun hmem => hnew (List.mem_append_left _ hmem)
  · exact h.operands_before hu
  · intro j hj
    rw [hops]
    by_cases hji : j = i
    · subst hji
      exact Function.update_self ..
    · rw [Function.update_of_ne hji]
      rcases List.mem_append.mp (hclones ▸ hj) with hj | hj
      · exact h.clones j hj
      · exact absurd (List.mem_singleton.mp hj) hji
  · intro v hv
    have hvO : v ≠ O := fun he => hv (he ▸ List.mem_cons_self)
    obtain ⟨newer, huse, hmem⟩ := h.uses v hv
    obtain ⟨newer', huse', hmem'⟩ := Sinking.addUses_spec i 0 (st.operands i) st.uses v
    refine ⟨newer' ++ newer, ?_, fun j k => ?_⟩
    · have hsame : ((st.clone i).rewire i O R).uses v =
          Sinking.addUses i 0 (st.operands i) st.uses v := Function.update_of_ne hvO ..
      rw [hsame, huse', huse, List.map_append, List.append_assoc]
    · rw [List.mem_append, hmem' j k, hmem j k, hops, hclones, List.mem_append,
        List.mem_singleton]
      by_cases hji : j = i
      · subst hji
        rw [Function.update_self, hold, List.getElem?_map, List.getElem?_map]
        cases hk : (g.operands j)[k]? with
        | none => simp [hi]
        | some w =>
          have hiff : g.substIn (O :: done) w = .old v ↔ w = v :=
            substIn_eq_old.trans (and_iff_left fun hmem => absurd hmem hv)
          simp [hi, hiff]
      · rw [Function.update_of_ne hji]
        simp [hji]

/-- One use of the popped value. -/
theorem PopOk.sinkUse (h : PopOk g O done x us st) (hu : u ∈ g.uses O)
    (hsunk : g.isSunk O = true) (hR : R = g.subst O) :
    PopOk g O done x (us ++ [u]) (g.sinkUse O R st (.old u)) := by
  simp only [Graph.sinkUse]
  by_cases hcompare : u.user = .inst g.compare
  · rw [if_pos hcompare]
    refine h.skip ?_ ?_
    · by_contra hpast
      exact ne_compare (by simpa using hpast) hcompare
    · cases hs : g.sunkUser u with
      | none => rfl
      | some v =>
        obtain ⟨i, hi, hlookup, -⟩ := sunkUser_eq_some.mp hs
        exact absurd (User.inst.inj (hi.symm.trans hcompare)) (lookup_sinks hlookup).2.1
  · rw [if_neg hcompare]
    by_cases hpast : g.exitDominatesUse u = true
    · rw [if_pos hpast]
      exact h.set hu hpast hR
    · rw [if_neg hpast]
      have hbefore : g.exitDominatesUse u = false := by simpa using hpast
      cases huser : u.user with
      | other n => exact h.skip hbefore (by simp [sunkUser, huser])
      | inst i =>
        simp only
        by_cases hlookup : g.plan.lookup i = true
        · rw [if_pos hlookup]
          by_cases hi : i ∈ st.clones
          · rw [if_pos hi]
            exact h.rewire hbefore huser hi hsunk
          · rw [if_neg hi]
            exact h.clone hbefore huser hlookup hi hR
        · rw [if_neg hlookup]
          exact h.skip hbefore (by simp [sunkUser, huser, hlookup])

/-- All old uses of the popped value. -/
theorem PopOk.foldl (h : PopOk g O done x [] st) (hsunk : g.isSunk O = true)
    (hR : R = g.subst O) {us : List (Use I)} (hus : us ⊆ g.uses O) :
    PopOk g O done x us ((us.map .old).foldl (g.sinkUse O R) st) := by
  induction us using List.reverseRecOn with
  | nil => exact h
  | append_singleton us u ih =>
    rw [List.map_append, List.foldl_append]
    have hsub := List.append_subset.mp hus
    exact (ih hsub.1).sinkUse (hsub.2 List.mem_cons_self) hsunk hR

end

/-! ## The worklist -/

/-- The loop body of the worklist keeps the invariant. -/
theorem SinkOk.pop (h : SinkOk g done st) {rest : List (Value I A × New I A)}
    (hwork : st.work = (O, R) :: rest) :
    SinkOk g (O :: done) ((st.uses O).foldl (g.sinkUse O R) { st with work := rest }) := by
  have hstack : (⟨st.work.map Prod.fst, st.clones.map .inst⟩ : Search (Value I A)).stack =
      O :: rest.map Prod.fst := by
    rw [hwork]
    rfl
  obtain ⟨hmet, hO⟩ := (h.reached.ok.stack O).mp (hstack ▸ List.mem_cons_self)
  have hsunk : g.isSunk O = true := by
    rcases hmet with rfl | hmet
    · rfl
    · obtain ⟨i, hi, rfl⟩ := List.mem_map.mp hmet
      exact h.sunk i hi
  have hR : R = g.subst O := h.work (O, R) (hwork ▸ List.mem_cons_self)
  obtain ⟨newer, huses, hnewer⟩ := h.uses O hO
  rw [huses, List.foldl_append]
  have hpop := (h.popOk hwork hnewer hO hsunk hR).foldl hsunk hR (List.Subset.refl (g.uses O))
  set st' := ((g.uses O).map NewUse.old).foldl (g.sinkUse O R)
    ((newer.map fun p => NewUse.clone p.1 p.2).foldl (g.sinkUse O R) { st with work := rest })
  refine ⟨?_, hpop.work, hpop.sunk, fun i k => ?_, hpop.clones, hpop.uses⟩
  · have hsuccs : g.sinkDag.succs O = (g.uses O).filterMap g.sunkUser := if_pos hsunk
    rw [hpop.search, ← hsuccs]
    exact h.reached.pop hstack
  · rw [hpop.operands]
    cases hk : (g.operands i)[k]? with
    | none => rfl
    | some v =>
      have hmem : v = O → (⟨.inst i, k⟩ : Use I) ∈ g.uses O := by
        rintro rfl
        exact (g.mem_uses _ _ _).mpr hk
      simp only [Option.map_some, and_iff_left hmem]

theorem sinkOk_unsunk : SinkOk g [] g.unsunk where
  reached := .init
  work w hw := by
    rw [List.mem_singleton.mp hw]
    rfl
  sunk i hi := absurd hi (by simp [unsunk])
  operands i k := by
    simp [unsunk, substIn]
  clones i hi := absurd hi (by simp [unsunk])
  uses v _ := ⟨[], by simp [unsunk], by simp [unsunk]⟩

theorem SinkOk.nodup (h : SinkOk g done st) : st.clones.Nodup :=
  List.Nodup.of_map _ h.reached.nodup

/-- Each pop is of another value. -/
theorem SinkOk.length_done (h : SinkOk g done st) : done.length ≤ Fintype.card I + 1 := by
  have hsub : done ⊆ .limit :: st.clones.map .inst := by
    intro v hv
    rcases h.reached.ok.popped v hv with rfl | hmet
    · exact List.mem_cons_self
    · exact List.mem_cons_of_mem _ hmet
  have hle := (List.Nodup.subperm h.reached.done_nodup hsub).length_le
  have hcard := h.nodup.length_le_card
  simp only [List.length_cons, List.length_map] at hle
  omega

/-- The worklist comes to its end. -/
theorem SinkOk.sink {fuel : ℕ} (h : SinkOk g done st)
    (hfuel : Fintype.card I + 1 < done.length + fuel) :
    ∃ done' st', g.sink fuel st = some st' ∧ SinkOk g done' st' ∧ st'.work = [] := by
  induction fuel generalizing done st with
  | zero =>
    have := h.length_done
    omega
  | succ fuel ih =>
    rw [Graph.sink]
    cases hw : st.work with
    | nil => exact ⟨done, st, rfl, h, hw⟩
    | cons p rest =>
      obtain ⟨O, R⟩ := p
      apply ih (h.pop hw)
      rw [List.length_cons]
      omega

/-- At the end what has been popped is the limit and what has a clone. -/
theorem SinkOk.done_iff (h : SinkOk g done st) (hwork : st.work = []) :
    v ∈ done ↔ v = .limit ∨ v ∈ (st.clones.map .inst : List (Value I A)) := by
  refine h.reached.done_iff ?_
  rw [hwork]
  rfl

/-- At the end the search has met what the plan has marked. -/
theorem SinkOk.mem_clones (h : SinkOk g done st) (hwork : st.work = []) :
    i ∈ st.clones ↔ g.plan.lookup i = true := by
  refine ⟨h.sunk i, fun hi => ?_⟩
  obtain ⟨hvisited, hfeeds⟩ := (plan_needs i).mp hi
  have hmet : ∀ {v : Value I A} {u : Use I} {j : I}, v ∈ done → u ∈ g.uses v → g.Sinks u j →
      g.plan.lookup j = true → j ∈ st.clones := by
    intro v u j hv hu hs hj
    by_contra hnew
    exact h.fresh hj hnew (hs.mem_operands hu) hv
  induction hvisited with
  | limit hu hs => exact hmet ((h.done_iff hwork).mpr (.inl rfl)) hu hs hi
  | inst hv hu hs ih =>
    have hfeeds' := Feeds.inst hu hs hfeeds
    have hclone := ih ((plan_needs _).mpr ⟨hv, hfeeds'⟩) hfeeds'
    exact hmet ((h.done_iff hwork).mpr (.inr (List.mem_map_of_mem hclone))) hu hs hi

/-- At the end everything has been replaced. -/
theorem SinkOk.substIn (h : SinkOk g done st) (hwork : st.work = []) :
    g.substIn done = g.subst := by
  funext v
  rw [Graph.substIn]
  by_cases hv : v ∈ done
  · rw [if_pos hv]
  · rw [if_neg hv, eq_comm, subst_eq_old]
    refine ⟨rfl, ?_⟩
    have hnot := (h.done_iff hwork).not.mp hv
    cases v with
    | limit => exact absurd (.inl rfl) hnot
    | other a => rfl
    | inst i =>
      have hi : i ∉ st.clones := fun hi => hnot (.inr (List.mem_map_of_mem hi))
      have hnot' := (h.mem_clones hwork).not.mp hi
      rw [Bool.not_eq_true] at hnot'
      exact hnot'

omit [Fintype I] in
theorem idxOf_map_inst (l : List I) (i : I) :
    (l.map .inst : List (Value I A)).idxOf (.inst i) = l.idxOf i := by
  induction l with
  | nil => rfl
  | cons j l ih =>
    rw [List.map_cons, List.idxOf_cons, List.idxOf_cons, ih]
    have hbeq : ((Value.inst j : Value I A) == .inst i) = (j == i) := by
      rw [Bool.eq_iff_iff]
      simp
    rw [hbeq]

/-- The rewritten graph. Each marked instruction has one clone, and no other has any. Uses after
the exit and operands of clones read what replaces the value, other operands are as they were.
The clones stand in the order of the places of their originals. -/
structure Sunk (g : Graph I A B) (st : Sinking I A) : Prop where
  nodup : st.clones.Nodup
  mem_clones : ∀ i, i ∈ st.clones ↔ g.plan.lookup i = true
  cloneOperands : ∀ i ∈ st.clones, st.cloneOperands i = (g.operands i).map g.subst
  operands : ∀ i k, (st.operands i)[k]? = (g.operands i)[k]?.map fun v =>
    if g.exitDominatesUse ⟨.inst i, k⟩ then g.subst v else .old v
  order : ∀ i ∈ st.clones, ∀ j ∈ st.clones, st.clones.idxOf j < st.clones.idxOf i ↔
    g.sinkDag.place (.inst j) < g.sinkDag.place (.inst i)

/-- **`replaceOrSinkPastExit` comes to its end, with the rewritten graph.** -/
theorem replaceOrSinkPastExit_spec (g : Graph I A B) :
    ∃ st, g.replaceOrSinkPastExit = some st ∧ Sunk g st := by
  have hstart : SinkOk g [] g.unsunk := sinkOk_unsunk
  have hroom : Fintype.card I + 1 < ([] : List (Value I A)).length + (Fintype.card I + 2) := by
    simp
  obtain ⟨done, st, hst, hok, hwork⟩ := hstart.sink hroom
  have hsubst := hok.substIn hwork
  refine ⟨st, hst, hok.nodup, fun i => hok.mem_clones hwork, ?_, ?_, ?_⟩
  · intro i hi
    rw [hok.clones i hi, hsubst]
  · intro i k
    rw [hok.operands, hsubst]
  · intro i hi j hj
    have hmem : ∀ {i}, i ∈ st.clones → Value.inst i ∈ (st.clones.map .inst : List (Value I A)) :=
      fun h => List.mem_map_of_mem h
    have hiff := hok.reached.idxOf_lt_iff (hmem hj) (hmem hi)
    simp only [idxOf_map_inst] at hiff
    exact hiff

/-- The operands of an instruction that stands before the exit or after it. -/
theorem Sunk.operands_eq (h : Sunk g st) {past : Bool}
    (hi : ∀ k, g.exitDominatesUse ⟨.inst i, k⟩ = past) :
    st.operands i = (g.operands i).map (if past then g.subst else .old) := by
  apply List.ext_getElem?
  intro k
  rw [h.operands, List.getElem?_map, hi k]
  cases past <;> rfl

end Graph

end Spork.Unroll.Sink
