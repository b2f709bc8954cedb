import Mathlib.Data.Fintype.Card
import Spork.Lib.Dfs
import Spork.Unroll.Accepted

/-!
# The progress store of the other pass

`findProgressStore` recognises a marked loop by its one volatile store in the latch and by the one
volatile load that its exit test depends on. It looks at less than `matchLoopProtocol` and may
depend on more: the loads are those behind all operands of the test, and both slots have to be
found. On a loop that `matchLoopProtocol` accepts it finds the same store, load and test, unless
the induction depends on a volatile load of its own, or the bound is in no slot. The test is
taken down, later, if `matchExitCondition` recognises it.

## Main definitions

* `ProgressStore`, `collectDependentLoads`, `findProgressStore`, `matchExitCondition` — the source.
* `DependsOn` — the operands of a value, and their operands, up to a load.
* `mem_exitLoads` — the loads that are collected.
* `findProgressStore_matched`, `matchExitCondition_matched` — on the loops that the other matcher
  accepts.
-/
namespace Spork.Unroll.Gem

open LLVM LoopIR
open MatchProtocol (stripIntegerCasts isVolatileStore isLoad isCast readers walkBound CastPath)

variable {B I C : Type}

structure ProgressStore (B I C : Type) where
  Store : I
  Slot : I
  BoundSlot : I
  BoundLoad : I
  Induction : I
  NextInduction : Value I C
  ExitCompare : I
  /-- The block that it ends. -/
  LatchBranch : B

section
variable (F : Function B I C)

def isVolatileLoad (i : I) : Bool :=
  match F.instruction i with
  | .LoadInst _ a _ => a.isVolatile
  | _ => false

/-- The one volatile store of the latch, with its operands. -/
def findStore (Latch : B) : Option (I × Value I C × Value I C) :=
  match (F.insts Latch).filter (isVolatileStore F) with
  | [Candidate] =>
      match F.instruction Candidate with
      | .StoreInst _ val ptr => some (Candidate, val, ptr)
      | _ => none
  | _ => none

/-- The comparison of the latch branch, and its first operand. -/
def findCompare (Latch : B) : Option (I × Value I C) :=
  match F.terminator Latch with
  | .CondBrInst (.inst ExitCompare) _ _ =>
      match F.instruction ExitCompare with
      | .ICmpInst (some _) x _ => some (ExitCompare, x)
      | _ => none
  | _ => none

variable [DecidableEq I] [DecidableEq C]

/-- `resolveAlloca`, with the values it has visited. Here it goes through loads. -/
def resolveAllocaFrom : ℕ → List (Value I C) → Value I C → Option I
  | 0, _, _ => none
  | fuel + 1, Visited, V =>
      if Visited.contains V then none
      else
        match F.stripPointerCasts V with
        | .inst i =>
            match F.instruction i with
            | .AllocaInst => some i
            | .GetElementPtrInst true ptr _ => resolveAllocaFrom fuel (V :: Visited) ptr
            | .LoadInst _ _ ptr => resolveAllocaFrom fuel (V :: Visited) ptr
            | _ => none
        | .const _ => none

def resolveAlloca (V : Value I C) : Option I := resolveAllocaFrom F (F.size + 1) [] V

/-- `collectDependentLoads`: `Visited` and `Loads`. -/
def collectDependentLoads :
    ℕ → Value I C → List (Value I C) × List I → List (Value I C) × List I
  | 0, _, s => s
  | fuel + 1, V, (Visited, Loads) =>
      if Visited.contains V then (Visited, Loads)
      else
        match V with
        | .const _ => (Visited ++ [V], Loads)
        | .inst i =>
            if isLoad F i then (Visited ++ [V], Loads ++ [i])
            else
              (F.instruction i).operands.foldl (fun s Operand => collectDependentLoads fuel Operand s)
                (Visited ++ [V], Loads)

/-- The volatile loads that the condition depends on. Only instructions have operands. -/
def exitLoads [Fintype I] (cond : Value I C) : List I :=
  (collectDependentLoads F (Fintype.card I + 1) cond ([], [])).2.filter (isVolatileLoad F)

variable [Fintype I]

/-- The one load, and its pointer. -/
def findBoundLoad (cond : Value I C) : Option (I × Value I C) :=
  match exitLoads F cond with
  | [BoundLoad] =>
      match F.instruction BoundLoad with
      | .LoadInst ty _ ptr => if ty.isIntegerTy then some (BoundLoad, ptr) else none
      | _ => none
  | _ => none

end

section
variable [DecidableEq B] [DecidableEq I] [DecidableEq C] [Fintype I] {F : Function B I C}
  (L : Loop F)

def findProgressStore : Option (ProgressStore B I C) := do
  let Latch ← L.getLoopLatch
  let Induction ← L.getInductionVariable
  let NextInduction ← (F.instruction Induction).getIncomingValueForBlock Latch
  let next := stripIntegerCasts F F.size NextInduction
  let (Store, val, ptr) ← findStore F Latch
  guard (stripIntegerCasts F F.size val = next)
  let (ExitCompare, x) ← findCompare F Latch
  guard (stripIntegerCasts F F.size x = next)
  let (BoundLoad, boundPtr) ← findBoundLoad F (.inst ExitCompare)
  let Slot ← resolveAlloca F ptr
  guard (¬ (readers F Slot).any fun LI => L.contains LI || !L.dominatesMarker LI)
  let BoundSlot ← resolveAlloca F boundPtr
  guard (BoundSlot ≠ Slot)
  return ⟨Store, Slot, BoundSlot, BoundLoad, Induction, NextInduction, ExitCompare, Latch⟩

end

structure ExitConditionParts (I : Type) where
  Compare : I
  BoundLoad : I
  BoundPath : List I

/-- `matchExitCondition`, for the branch at the end of a block. Its walk to the bound is that of
the other pass. -/
def matchExitCondition [DecidableEq B] [DecidableEq I] [DecidableEq C] (F : Function B I C)
    (Branch : B) (BoundSlot : I) (Predicate : Pred) : Option (ExitConditionParts I) :=
  match F.terminator Branch with
  | .CondBrInst (.inst Compare) _ _ =>
      match F.instruction Compare with
      | .ICmpInst predicate _ y =>
          if predicate ≠ some Predicate ∨ !F.hasOneUse Compare then none
          else
            match walkBound F (F.size + 1) y [] with
            | .ok (BoundPath, .inst Load) =>
                match F.instruction Load with
                | .LoadInst _ a ptr =>
                    if !a.isVolatile || !F.hasOneUse Load || resolveAlloca F ptr ≠ some BoundSlot
                    then none
                    else some ⟨Compare, Load, BoundPath ++ [Load]⟩
                | _ => none
            | _ => none
      | _ => none
  | _ => none

/-! ## The loads behind a value -/

section
variable (F : Function B I C)

/-- What the search goes on to. -/
def operandsOf : Value I C → List (Value I C)
  | .inst i => if isLoad F i then [] else (F.instruction i).operands
  | .const _ => []

/-- The value, its operands, and theirs, up to a load. -/
def DependsOn (V : Value I C) (i : I) : Prop :=
  Relation.ReflTransGen (Dfs.Edge (operandsOf F)) V (.inst i)

def asLoad : Value I C → Option I
  | .inst i => if isLoad F i then some i else none
  | .const _ => none

variable {F} {V W Root : Value I C} {i j : I}

theorem isLoad_of_volatile (h : isVolatileLoad F i = true) : isLoad F i = true := by
  unfold isVolatileLoad at h
  split at h
  · next hi => simp [isLoad, hi]
  · cases h

theorem asLoad_eq_some : asLoad F V = some i ↔ V = .inst i ∧ isLoad F i = true := by
  cases V with
  | const c => simp [asLoad]
  | inst j =>
    simp only [asLoad, Option.ite_none_right_eq_some, Option.some.injEq, Value.inst.injEq]
    constructor
    · rintro ⟨hj, rfl⟩
      exact ⟨rfl, hj⟩
    · rintro ⟨rfl, hj⟩
      exact ⟨hj, rfl⟩

/-- A load behind an instruction that is none is behind one of its operands. -/
theorem dependsOn_inst (hi : isLoad F i = true) (hj : isLoad F j = false) :
    DependsOn F (.inst j) i ↔ ∃ W ∈ (F.instruction j).operands, DependsOn F W i := by
  rw [DependsOn, Relation.ReflTransGen.cases_head_iff]
  have hne : Value.inst (C := C) j ≠ .inst i := by
    rintro ⟨⟩
    rw [hi] at hj
    cases hj
  simp only [hne, false_or, Dfs.Edge, operandsOf, hj, Bool.false_eq_true, if_false]
  rfl

/-- A load depends on no other. -/
theorem dependsOn_load (hj : isLoad F j = true) : DependsOn F (.inst j) i ↔ i = j := by
  rw [DependsOn, Relation.ReflTransGen.cases_head_iff]
  simp [Dfs.Edge, operandsOf, hj, eq_comm]

/-- Casts load nothing. -/
theorem dependsOn_castPath {l : List I} {c : MatchProtocol.CastChain} (hi : isLoad F i = true)
    (h : CastPath F Root V l c) : DependsOn F V i ↔ DependsOn F Root i := by
  induction h with
  | root => rfl
  | cast hj _ _ _ ih =>
    rw [dependsOn_inst hi (by simp [isLoad, hj]), hj]
    simpa [Instruction.operands] using ih

variable [DecidableEq I] [DecidableEq C]

/-- The search enters the values as a depth-first visit does, and keeps the loads. -/
theorem collectDependentLoads_eq (fuel : ℕ) (V : Value I C) (S : List (Value I C)) :
    collectDependentLoads F fuel V (S, S.filterMap (asLoad F)) =
      (Dfs.visit (operandsOf F) fuel V S,
        (Dfs.visit (operandsOf F) fuel V S).filterMap (asLoad F)) := by
  induction fuel generalizing V S with
  | zero => rfl
  | succ fuel ih =>
    rw [collectDependentLoads.eq_def, Dfs.visit]
    by_cases hV : V ∈ S
    · rw [if_pos hV]
      exact if_pos (List.contains_iff_mem.mpr hV)
    refine (if_neg fun h => hV (List.contains_iff_mem.mp h)).trans ?_
    rw [if_neg hV]
    have hfold : ∀ (Vs S : List (Value I C)),
        Vs.foldl (fun s W => collectDependentLoads F fuel W s) (S, S.filterMap (asLoad F)) =
          (Vs.foldl (fun S W => Dfs.visit (operandsOf F) fuel W S) S,
            (Vs.foldl (fun S W => Dfs.visit (operandsOf F) fuel W S) S).filterMap (asLoad F)) := by
      intro Vs
      induction Vs with
      | nil => exact fun _ => rfl
      | cons W Vs ihVs =>
        intro S
        rw [List.foldl_cons, ih, ihVs, List.foldl_cons]
    cases V with
    | const c => simp [operandsOf, asLoad]
    | inst i =>
      by_cases hi : isLoad F i = true
      · simp [hi, operandsOf, asLoad]
      · have happend : S.filterMap (asLoad F) = (S ++ [Value.inst i]).filterMap (asLoad F) := by
          simp [asLoad, hi]
        simp only [operandsOf, hi, Bool.false_eq_true, if_false]
        rw [happend, hfold]

variable [Fintype I]

/-- With a successor there is an instruction. -/
theorem inner_operandsOf (V : Value I C) (h : operandsOf F V ≠ []) :
    V ∈ Finset.univ.image (Value.inst : I → Value I C) := by
  cases V with
  | const c => exact absurd rfl h
  | inst i => exact Finset.mem_image_of_mem _ (Finset.mem_univ i)

theorem card_inner : (Finset.univ.image (Value.inst : I → Value I C)).card < Fintype.card I + 1 :=
  Nat.lt_succ_of_le Finset.card_image_le

/-- **The loads that are collected** are the volatile ones that the condition depends on. -/
theorem mem_exitLoads : i ∈ exitLoads F V ↔ DependsOn F V i ∧ isVolatileLoad F i = true := by
  have h := collectDependentLoads_eq (F := F) (Fintype.card I + 1) V []
  rw [List.filterMap_nil] at h
  rw [exitLoads, h, List.mem_filter, List.mem_filterMap]
  simp only [asLoad_eq_some, Dfs.mem_visit _ inner_operandsOf card_inner]
  constructor
  · rintro ⟨⟨W, hW, rfl, -⟩, hvol⟩
    exact ⟨hW, hvol⟩
  · rintro ⟨hV, hvol⟩
    exact ⟨⟨_, hV, rfl, isLoad_of_volatile hvol⟩, hvol⟩

theorem nodup_exitLoads (V : Value I C) : (exitLoads F V).Nodup := by
  have h := collectDependentLoads_eq (F := F) (Fintype.card I + 1) V []
  rw [List.filterMap_nil] at h
  rw [exitLoads, h]
  refine (List.Nodup.filterMap (fun W W' i hW hW' => ?_)
    (Dfs.nodup_visit _ inner_operandsOf card_inner)).filter _
  rw [(asLoad_eq_some.mp hW).1, (asLoad_eq_some.mp hW').1]

end

/-! ## On a loop that has been accepted -/

section
variable {F : Function B I C} {V : Value I C} {i r : I}

theorem stripIntegerCasts_root (hr : isCast F r = false) (fuel : ℕ) :
    stripIntegerCasts F fuel (.inst r) = .inst r := by
  cases fuel with
  | zero => rfl
  | succ fuel =>
    unfold stripIntegerCasts
    split
    · next hi => simp [isCast, hi] at hr
    · rfl

variable [DecidableEq I] [DecidableEq C]

/-- A chain that can be captured is stripped to its root. -/
theorem stripIntegerCasts_of_captureFrom {fuel : ℕ} {Steps c : MatchProtocol.CastChain}
    (hr : isCast F r = false)
    (h : MatchProtocol.captureFrom F (fuel + 1) V (.inst r) Steps = some c) :
    stripIntegerCasts F fuel V = .inst r := by
  induction fuel generalizing V Steps with
  | zero =>
    unfold MatchProtocol.captureFrom at h
    split at h
    · next hV => rw [hV, stripIntegerCasts_root hr]
    · split at h
      · split at h
        · split at h <;> cases h
        · cases h
      · cases h
  | succ fuel ih =>
    unfold MatchProtocol.captureFrom at h
    split at h
    · next hV => rw [hV, stripIntegerCasts_root hr]
    · split at h
      · split at h
        · next hi =>
          split at h
          · next hty =>
            rw [stripIntegerCasts, hi]
            simp only [hty, if_true]
            exact ih h
          · cases h
        · cases h
      · cases h

/-- What the walk has put down before does not matter to it. -/
theorem walkBound_append (fuel : ℕ) (V : Value I C) (insts l : List I) :
    walkBound F fuel V (insts ++ l) =
      (walkBound F fuel V l).map fun r => (insts ++ r.1, r.2) := by
  induction fuel generalizing V l with
  | zero => rfl
  | succ fuel ih =>
    unfold walkBound
    cases V with
    | const c => rfl
    | inst i =>
      cases hi : F.instruction i with
      | CastInst op src dest v =>
        simp only [hi]
        split
        · rfl
        · rw [List.append_assoc, ih]
      | _ => simp only [hi]; rfl

/-- What is found without going through loads is found with it. -/
theorem resolveAllocaFrom_of_eq_some {fuel : ℕ} {Visited : List (Value I C)}
    (h : MatchProtocol.resolveAllocaFrom F fuel Visited V = some i) :
    resolveAllocaFrom F fuel Visited V = some i := by
  induction fuel generalizing V Visited with
  | zero => cases h
  | succ fuel ih =>
    unfold MatchProtocol.resolveAllocaFrom at h
    split at h
    · cases h
    next hV =>
    rw [← List.contains_iff_mem] at hV
    split at h
    · next hstrip =>
      split at h
      · next hi => simpa only [resolveAllocaFrom, if_neg hV, hstrip, hi] using h
      · next hi => simpa only [resolveAllocaFrom, if_neg hV, hstrip, hi] using ih h
      · cases h
    · cases h

end

section
variable [DecidableEq B] [DecidableEq I] [DecidableEq C] {F : Function B I C} {L : Loop F}
  {P : MatchProtocol.LoopProtocol B I C} {i : I}

/-- What the other matcher has seen of the values that are stripped here. -/
structure Stripped (L : Loop F) (P : MatchProtocol.LoopProtocol B I C) : Prop where
  getInductionVariable : L.getInductionVariable = some P.Induction
  next_root : isCast F P.NextInduction = false
  store : ∃ val, F.instruction P.ProgressStore = .StoreInst P.ProgressAccess val P.ProgressPtr ∧
    stripIntegerCasts F F.size val = .inst P.NextInduction
  compare : ∃ x y l, F.instruction P.ExitCompare = .ICmpInst (some P.Predicate) x y ∧
    stripIntegerCasts F F.size x = .inst P.NextInduction ∧
    walkBound F (F.size + 1) y [] = .ok (l, .inst P.BoundLoad) ∧
    P.ExitConditionInsts = P.ExitCompare :: l ++ [P.BoundLoad]
  slot : ∃ Slot, MatchProtocol.resolveAlloca F P.ProgressPtr = some Slot ∧
    (readers F Slot).any (fun LI => L.contains LI || !L.dominatesMarker LI) = false

theorem matchProgress_stripped {Latch : B} {NextInduction : I} {p : MatchProtocol.Progress I C}
    (h : MatchProtocol.matchProgress L Latch NextInduction = .ok p) :
    ∃ val, F.instruction p.ProgressStore = .StoreInst p.ProgressAccess val p.ProgressPtr ∧
      stripIntegerCasts F F.size val = .inst NextInduction := by
  unfold MatchProtocol.matchProgress at h
  split at h
  · cases h
  · split at h
    · next val ptr hi =>
      split at h
      · cases h
      · next hok =>
        split at h
        · cases h
        · cases h
          exact ⟨val, hi, not_not.mp (not_or.mp hok).1⟩
    · cases h
  · cases h

theorem matchExitCondition_stripped {Latch : B} {NextInduction : I} {cond : Value I C}
    {e : MatchProtocol.ExitCondition I C} (hroot : isCast F NextInduction = false)
    (h : MatchProtocol.matchExitCondition L Latch NextInduction cond = .ok e) :
    ∃ x y l, F.instruction e.ExitCompare = .ICmpInst (some e.Predicate) x y ∧
      stripIntegerCasts F F.size x = .inst NextInduction ∧
      walkBound F (F.size + 1) y [] = .ok (l, .inst e.BoundLoad) ∧
      e.ExitConditionInsts = e.ExitCompare :: l ++ [e.BoundLoad] := by
  unfold MatchProtocol.matchExitCondition at h
  split at h
  · next ExitCompare =>
    split at h
    · next x y hi =>
      split at h
      · cases h
      · split at h
        · cases h
        · split at h
          · cases h
          · next c hc =>
            simp only [MatchProtocol.bind_ok, Prod.exists] at h
            obtain ⟨insts, V, hwalk, r, ty, ptr, a, hload, h⟩ := h
            cases h
            obtain ⟨rfl, -⟩ := MatchProtocol.matchBoundLoad_ok hload
            rw [← List.append_nil [ExitCompare], walkBound_append] at hwalk
            cases hl : walkBound F (F.size + 1) y [] with
            | error e =>
              rw [hl] at hwalk
              cases hwalk
            | ok res =>
              obtain ⟨l, V⟩ := res
              rw [hl] at hwalk
              cases hwalk
              exact ⟨x, y, l, hi, stripIntegerCasts_of_captureFrom hroot hc, hl, rfl⟩
    · cases h
  · cases h

theorem matchSlots_ok {ProgressPtr BoundPtr : Value I C}
    (h : MatchProtocol.matchSlots L ProgressPtr BoundPtr = .ok ()) :
    ∃ Slot, MatchProtocol.resolveAlloca F ProgressPtr = some Slot ∧
      (readers F Slot).any (fun LI => L.contains LI || !L.dominatesMarker LI) = false := by
  unfold MatchProtocol.matchSlots at h
  split at h
  · cases h
  · next Slot hslot =>
    split at h
    · cases h
    · split at h
      · cases h
      · next hreaders => exact ⟨Slot, hslot, Bool.not_eq_true _ ▸ hreaders⟩

theorem stripped_of_ok (h : MatchProtocol.matchLoopProtocol L = .ok P) : Stripped L P := by
  obtain ⟨⟨s, cond⟩, -, h⟩ := MatchProtocol.bind_ok.mp h
  obtain ⟨⟨Induction, NextInduction⟩, hinduction, h⟩ := MatchProtocol.bind_ok.mp h
  obtain ⟨Phis, -, h⟩ := MatchProtocol.bind_ok.mp h
  obtain ⟨p, hprogress, h⟩ := MatchProtocol.bind_ok.mp h
  obtain ⟨e, hexit, h⟩ := MatchProtocol.bind_ok.mp h
  obtain ⟨_, hslots, h⟩ := MatchProtocol.bind_ok.mp h
  obtain ⟨_, -, h⟩ := MatchProtocol.bind_ok.mp h
  obtain ⟨_, -, h⟩ := MatchProtocol.bind_ok.mp h
  cases h
  obtain ⟨hind, -, -, -, -, hroot⟩ := MatchProtocol.matchInduction_ok hinduction
  exact ⟨hind, hroot, matchProgress_stripped hprogress, matchExitCondition_stripped hroot hexit,
    matchSlots_ok hslots⟩

/-- **The exit condition** of a loop that `matchLoopProtocol` accepts is recognised once more when
it is taken down, with the same instructions. -/
theorem matchExitCondition_matched (h : MatchProtocol.matchLoopProtocol L = .ok P) {BoundSlot : I}
    (hslot : resolveAlloca F P.BoundPtr = some BoundSlot) :
    ∃ Parts, matchExitCondition F P.Latch BoundSlot P.Predicate = some Parts ∧
      Parts.Compare = P.ExitCompare ∧ Parts.BoundLoad = P.BoundLoad ∧
      Parts.Compare :: Parts.BoundPath = P.ExitConditionInsts := by
  have hm := MatchProtocol.matched_of_ok h
  obtain ⟨x, y, l, hcompare, -, hwalk, hinsts⟩ := (stripped_of_ok h).compare
  have hone : F.hasOneUse P.ExitCompare = true := hm.one_use _ (by simp [hinsts])
  have hload : F.hasOneUse P.BoundLoad = true := hm.one_use _ (by simp [hinsts])
  refine ⟨⟨P.ExitCompare, P.BoundLoad, l ++ [P.BoundLoad]⟩, ?_, rfl, rfl, hinsts.symm⟩
  simp [matchExitCondition, hm.branch, hcompare, hone, hwalk, hm.load, hload, hm.volatile, hslot]

theorem isVolatileLoad_boundLoad (h : MatchProtocol.Matched L P) :
    isVolatileLoad F P.BoundLoad = true := by
  simp [isVolatileLoad, h.load, h.volatile]

variable [Fintype I]

/-- Behind the exit test are the bound, and the loads that the next induction depends on. -/
theorem mem_exitLoads_compare (h : MatchProtocol.Matched L P) :
    i ∈ exitLoads F (.inst P.ExitCompare) ↔
      (DependsOn F (.inst P.NextInduction) i ∨ i = P.BoundLoad) ∧ isVolatileLoad F i = true := by
  obtain ⟨x, y, l, l', hcompare, hnext, hbound, -⟩ := h.compare
  rw [mem_exitLoads]
  refine and_congr_left fun hi => ?_
  have hload := isLoad_of_volatile hi
  rw [dependsOn_inst hload (by simp [isLoad, hcompare]), hcompare]
  simp only [Instruction.operands, List.mem_cons, List.not_mem_nil, or_false, exists_eq_or_imp,
    exists_eq_left]
  rw [dependsOn_castPath hload hnext, dependsOn_castPath hload hbound,
    dependsOn_load (isLoad_of_volatile (isVolatileLoad_boundLoad h))]

theorem boundLoad_mem (h : MatchProtocol.Matched L P) :
    P.BoundLoad ∈ exitLoads F (.inst P.ExitCompare) :=
  (mem_exitLoads_compare h).mpr ⟨.inr rfl, isVolatileLoad_boundLoad h⟩

theorem exitLoads_eq_singleton (h : MatchProtocol.Matched L P) :
    exitLoads F (.inst P.ExitCompare) = [P.BoundLoad] ↔
      ∀ i, DependsOn F (.inst P.NextInduction) i → isVolatileLoad F i = true →
        i = P.BoundLoad := by
  constructor
  · intro hone i hi hvol
    have hmem := (mem_exitLoads_compare h).mpr ⟨.inl hi, hvol⟩
    rwa [hone, List.mem_singleton] at hmem
  · intro hall
    have hperm : (exitLoads F (.inst P.ExitCompare)).Perm [P.BoundLoad] := by
      refine (List.perm_ext_iff_of_nodup (nodup_exitLoads _) (List.nodup_singleton _)).mpr
        fun i => ?_
      rw [List.mem_singleton]
      constructor
      · intro hi
        obtain ⟨hi | hi, hvol⟩ := (mem_exitLoads_compare h).mp hi
        · exact hall i hi hvol
        · exact hi
      · rintro rfl
        exact boundLoad_mem h
    exact List.perm_singleton.mp hperm

theorem findBoundLoad_eq_some (h : MatchProtocol.Matched L P) (r : I × Value I C) :
    findBoundLoad F (.inst P.ExitCompare) = some r ↔
      (∀ i, DependsOn F (.inst P.NextInduction) i → isVolatileLoad F i = true →
        i = P.BoundLoad) ∧ r = (P.BoundLoad, P.BoundPtr) := by
  rw [← exitLoads_eq_singleton h]
  constructor
  · intro hr
    unfold findBoundLoad at hr
    split at hr
    · next BoundLoad hone =>
      have hmem : P.BoundLoad ∈ exitLoads F (.inst P.ExitCompare) := boundLoad_mem h
      rw [hone, List.mem_singleton] at hmem
      subst hmem
      simp only [h.load, h.integer, if_true] at hr
      exact ⟨hone, (Option.some.inj hr).symm⟩
    · cases hr
  · rintro ⟨hone, rfl⟩
    simp only [findBoundLoad, hone, h.load, h.integer, if_true]

/-- **On a loop that `matchLoopProtocol` accepts** the same is found, unless the next induction
depends on a volatile load other than the bound, or the bound is in no slot of its own. -/
theorem findProgressStore_matched (h : MatchProtocol.matchLoopProtocol L = .ok P)
    (p : ProgressStore B I C) :
    findProgressStore L = some p ↔
      (∀ i, DependsOn F (.inst P.NextInduction) i → isVolatileLoad F i = true →
        i = P.BoundLoad) ∧
      ∃ Slot BoundSlot, MatchProtocol.resolveAlloca F P.ProgressPtr = some Slot ∧
        resolveAlloca F P.BoundPtr = some BoundSlot ∧ BoundSlot ≠ Slot ∧
        p = ⟨P.ProgressStore, Slot, BoundSlot, P.BoundLoad, P.Induction, .inst P.NextInduction,
          P.ExitCompare, P.Latch⟩ := by
  have hm := MatchProtocol.matched_of_ok h
  obtain ⟨hind, hroot, ⟨val, hstore, hval⟩, ⟨x, y, -, hcompare, hx, -⟩, Slot, hslot, hreaders⟩ :=
    stripped_of_ok h
  have hfindStore : findStore F P.Latch = some (P.ProgressStore, val, P.ProgressPtr) := by
    simp only [findStore, hm.stores, hstore]
  have hfindCompare : findCompare F P.Latch = some (P.ExitCompare, x) := by
    simp only [findCompare, hm.branch, hcompare]
  have hgem : resolveAlloca F P.ProgressPtr = some Slot := resolveAllocaFrom_of_eq_some hslot
  simp only [findProgressStore, hm.latch, hind, hm.next_incoming, hfindStore, hfindCompare, hval, hx,
    stripIntegerCasts_root hroot, hgem, hreaders, hslot, Option.bind_eq_bind, Option.bind_some,
    Option.bind_eq_some_iff, findBoundLoad_eq_some hm, guard_true, Option.guard_eq_some']
  constructor
  · rintro ⟨-, -, -, -, _, ⟨hall, rfl⟩, -, -, BoundSlot, hboundSlot, -, hne, hp⟩
    exact ⟨hall, Slot, BoundSlot, rfl, hboundSlot, hne, (Option.some.inj hp).symm⟩
  · rintro ⟨hall, _, BoundSlot, ⟨⟩, hboundSlot, hne, rfl⟩
    exact ⟨(), rfl, (), rfl, _, ⟨hall, rfl⟩, (), Bool.false_ne_true, BoundSlot, hboundSlot, (), hne,
      rfl⟩

end

/-! ## A loop that both accept -/

instance : Fintype MatchProtocol.SumInst where
  elems := {.progressSlot, .boundSlot, .index, .sum, .next, .nextSum, .store, .bound, .test, .result}
  complete := by rintro ⟨⟩ <;> decide

theorem findProgressStore_matched_sumLoop : findProgressStore MatchProtocol.sumLoop =
    some ⟨.store, .progressSlot, .boundSlot, .bound, .index, .inst .next, .test, .loop⟩ := by
  refine (findProgressStore_matched MatchProtocol.match_sumLoop _).mpr
    ⟨fun i _ hvol => ?_, .progressSlot, .boundSlot, rfl, rfl, by decide, rfl⟩
  cases i <;> first | rfl | cases hvol

theorem matchExitCondition_matched_sumLoop : ∃ Parts,
    matchExitCondition MatchProtocol.sumFunction .loop .boundSlot .ult = some Parts ∧
      Parts.Compare = .test ∧ Parts.BoundLoad = .bound ∧
      Parts.Compare :: Parts.BoundPath = [.test, .bound] :=
  matchExitCondition_matched MatchProtocol.match_sumLoop rfl

end Spork.Unroll.Gem
