import Spork.Unroll.Placement

/-!
# Values at the exit of a rewritten step loop

The rewritten loop may be left before the snapshot limit is reached, and even before the first
step. What is read at the exit or after it has to be computed from the real exit index.

`replaceOrSinkPastExit` sees to this for uses after the exit. A PHI of the exit block reads its
value on the edge from the latch, which counts as before the exit: it keeps the limit, or what is
computed from it, and the code after the exit reads the PHI.

## Main definitions

* `StepLoop`, `matchStepLoop`, `rewriteStepLoop` — the source.
* `StepLoop.Fed` — computed from the limit.
* `Values`, `Reference` — the values of a run, and what they are to be.
* `NoEscape` — no snapshot value escapes.
* `noEscape_iff`.
-/
namespace Spork.Unroll.Sink

section
variable {I A B : Type} [DecidableEq B]

/-- `getBasicBlockIndex`. -/
def Graph.getBasicBlockIndex (g : Graph I A B) (PN : I) (b : B) : Option ℕ :=
  (List.range (g.operands PN).length).find? fun k => g.incomingBlock PN k = b

/-- `getIncomingValueForBlock`. -/
def Graph.getIncomingValueForBlock (g : Graph I A B) (PN : I) (b : B) : Option (Value I A) :=
  (g.getBasicBlockIndex PN b).bind fun k => (g.operands PN)[k]?

end

/-- A loop of the probe in the graph around it, with what `matchStepLoop` knows of it before it
looks at the limit. -/
structure StepLoop (I A B : Type) [DecidableEq B] extends Graph I A B where
  preheader : B
  header : B
  latch : B
  exit : B
  phis : B → List I
  branch : I
  iv : I
  ivNext : Value I A
  ivEntry : Value I A
  definedInLoop : Value I A → Bool
  /-- `isa<Constant>(S.Limit)`. -/
  limitConstant : Bool
  mem_phis : ∀ b i, i ∈ phis b ↔ kind i = .phi ∧ block i = b
  /-- The latch is the only predecessor of the exit block. -/
  exit_operands : ∀ i ∈ phis exit, ∃ V, operands i = [V] ∧ incomingBlock i 0 = latch
  exitDominates_exit : exitDominates exit = true
  exitDominates_latch : exitDominates latch = false
  /-- A definition dominates its uses. -/
  uses_past : ∀ i, exitDominates (block i) = true → ∀ u ∈ uses (.inst i),
    toGraph.exitDominatesUse u = true
  iv_mem : iv ∈ phis header
  iv_next : toGraph.getIncomingValueForBlock iv latch = some ivNext
  iv_entry : toGraph.getIncomingValueForBlock iv preheader = some ivEntry
  ivNext_inLoop : definedInLoop ivNext = true
  /-- The compare has one use, by the branch of the latch. -/
  compare_uses : uses (.inst compare) = [⟨.inst branch, 0⟩]
  branch_kind : kind branch = .terminator
  branch_block : block branch = latch

/-- The rewritten loop, with what a PHI of the exit block reads on the edge from the preheader. -/
structure Rewritten (I A : Type) extends Sinking I A where
  FromPH : I → Option (New I A)

/-- The edge by which the rewritten loop is left: after a step, or before the first. -/
inductive Edge
  | latch
  | preheader
  deriving DecidableEq, Repr

namespace StepLoop

section
variable {I A B : Type} [DecidableEq I] [DecidableEq A] [DecidableEq B] (S : StepLoop I A B)

/-- The PHIs of the exit block in `matchStepLoop`. -/
def matchExitPhis : List I → Except String Unit
  | [] => .ok ()
  | PN :: PNs =>
      match S.getIncomingValueForBlock PN S.latch with
      | none => .error "probe exit PHI lacks a latch input"
      | some V =>
          if !S.definedInLoop V || V = S.ivNext then matchExitPhis PNs
          else if (S.phis S.header).any fun HP =>
              S.getIncomingValueForBlock HP S.latch = some V then matchExitPhis PNs
          else .error "probe exit PHI uses a non-PHI loop value"

/-- `matchStepLoop`, from the limit on. -/
def matchStepLoop [Fintype I] : Except String Unit :=
  if S.definedInLoop .limit || S.limitConstant then
    .error "probe loop exit limit is not a loop-invariant value"
  else
    match S.plan.Failure with
    | some failure => .error failure
    | none => S.matchExitPhis (S.phis S.exit)

/-- `definedInLoop`, after the rewriting. What is new stands in the exit block. -/
def newDefinedInLoop : New I A → Bool
  | .old v => S.definedInLoop v
  | .exitIndex | .clone _ => false

/-- `getIncomingValueForBlock`, after the rewriting. -/
def newIncoming (st : Sinking I A) (PN : I) (b : B) : Option (New I A) :=
  (S.getBasicBlockIndex PN b).bind fun k => (st.operands PN)[k]?

/-- What a PHI of the exit block reads on the edge from the preheader, if it reads `V` on the edge
from the latch. -/
def FromPH (st : Sinking I A) (V : New I A) : New I A :=
  if V = .old S.ivNext then .old S.ivEntry
  else if S.newDefinedInLoop V then
    (S.phis S.header).foldl (fun F HP =>
      if S.newIncoming st HP S.latch = some V then (S.newIncoming st HP S.preheader).getD F
      else F) V
  else V

/-- `rewriteStepLoop`: the limit and the PHIs of the exit block. -/
def rewriteStepLoop [Fintype I] : Option (Rewritten I A) :=
  S.replaceOrSinkPastExit.map fun st =>
    { st with FromPH := fun PN => (S.newIncoming st PN S.latch).map (S.FromPH st) }

/-- What a PHI of the exit block reads. -/
def reads (st : Rewritten I A) (edge : Edge) (PN : I) : Option (New I A) :=
  match edge with
  | .latch => S.newIncoming st.toSinking PN S.latch
  | .preheader => st.FromPH PN

/-- What `spork.idx.exit` reads. -/
def exitIndexReads (st : Rewritten I A) (edge : Edge) : New I A :=
  match edge with
  | .latch => .old S.ivNext
  | .preheader => S.FromPH st.toSinking (.old S.ivNext)

/-! ## No escape -/

/-- Computed from the limit, by pure instructions and PHIs of the exit block. -/
inductive Fed : Value I A → Prop
  | limit : Fed .limit
  | pure {i : I} {v : Value I A} (hi : S.kind i = .pure) (hv : v ∈ S.operands i) (h : Fed v) :
      Fed (.inst i)
  | exitPhi {i : I} {v : Value I A} (hi : i ∈ S.phis S.exit) (hv : v ∈ S.operands i) (h : Fed v) :
      Fed (.inst i)

/-- The values of a run that leaves the rewritten loop by an edge. Pure instructions compute some
functions of their operands, other values are arbitrary. -/
structure Values (st : Rewritten I A) {D : Type} (op : I → List D → D) (edge : Edge)
    (val : New I A → D) : Prop where
  pure : ∀ i, S.kind i = .pure → val (.old (.inst i)) = op i ((st.operands i).map val)
  clone : ∀ i ∈ st.clones, val (.clone i) = op i ((st.cloneOperands i).map val)
  exitPhi : ∀ i ∈ S.phis S.exit, some (val (.old (.inst i))) = (S.reads st edge i).map val
  exitIndex : val .exitIndex = val (S.exitIndexReads st edge)

/-- What values are to be at the exit and after it: what is computed from the limit is the same
function of the exit index. -/
structure Reference {D : Type} (op : I → List D → D) (val : New I A → D) (ref : Value I A → D) :
    Prop where
  limit : ref .limit = val .exitIndex
  pure : ∀ i, S.Fed (.inst i) → S.kind i = .pure → ref (.inst i) = op i ((S.operands i).map ref)
  exitPhi : ∀ i ∈ S.phis S.exit, S.Fed (.inst i) →
    some (ref (.inst i)) = (S.getIncomingValueForBlock i S.latch).map ref
  other : ∀ v, ¬ S.Fed v → ref v = val (.old v)

/-- No snapshot value escapes: what is read after the exit is what it is to be, and before the
exit nothing is changed and nothing that is computed from the limit gets to memory or to a call. -/
structure NoEscape (st : Rewritten I A) : Prop where
  past : ∀ {D : Type} (op : I → List D → D) (edge : Edge) (val : New I A → D) (ref : Value I A → D),
    S.Values st op edge val → S.Reference op val ref → ∀ i k v, (S.operands i)[k]? = some v →
    S.exitDominatesUse ⟨.inst i, k⟩ = true → ((st.operands i)[k]?).map val = some (ref v)
  clones : ∀ {D : Type} (op : I → List D → D) (edge : Edge) (val : New I A → D)
    (ref : Value I A → D), S.Values st op edge val → S.Reference op val ref → ∀ i ∈ st.clones,
    (st.cloneOperands i).map val = (S.operands i).map ref
  before : ∀ i k, S.exitDominatesUse ⟨.inst i, k⟩ = false →
    (st.operands i)[k]? = ((S.operands i)[k]?).map .old
  memory : ∀ i k v, S.kind i = .effect → (S.operands i)[k]? = some v → S.Fed v →
    S.exitDominatesUse ⟨.inst i, k⟩ = true

end

section
variable {I A B : Type} [DecidableEq B] {S : StepLoop I A B} {i j : I} {v : Value I A}
  {st : Rewritten I A}

/-! ## Before and after the exit -/

theorem exitPhi_past (hi : i ∈ S.phis S.exit) : S.exitDominates (S.block i) = true := by
  rw [((S.mem_phis _ _).mp hi).2, S.exitDominates_exit]

theorem notMem_exitPhis (h : S.exitDominates (S.block i) = false) : i ∉ S.phis S.exit := by
  intro hi
  rw [exitPhi_past hi] at h
  cases h

theorem notMem_phis (h : S.kind i = .pure) (b : B) : i ∉ S.phis b := by
  intro hi
  rw [((S.mem_phis _ _).mp hi).1] at h
  cases h

/-- A PHI of the exit block reads one value, on the edge from the latch. -/
theorem exitPhi_operands (hi : i ∈ S.phis S.exit) :
    ∃ V, S.operands i = [V] ∧ S.getBasicBlockIndex i S.latch = some 0 ∧
      S.getIncomingValueForBlock i S.latch = some V ∧
      S.exitDominatesUse ⟨.inst i, 0⟩ = false := by
  obtain ⟨V, hV, hblock⟩ := S.exit_operands i hi
  have hindex : S.getBasicBlockIndex i S.latch = some 0 := by
    simp [Graph.getBasicBlockIndex, hV, hblock]
  refine ⟨V, hV, hindex, ?_, ?_⟩
  · simp [Graph.getIncomingValueForBlock, hindex, hV]
  · simp [Graph.exitDominatesUse, ((S.mem_phis _ _).mp hi).1, hblock, S.exitDominates_latch]

/-- A pure instruction reads its operands where it stands. -/
theorem exitDominatesUse_pure (hi : S.kind i = .pure) (k : ℕ) :
    S.exitDominatesUse ⟨.inst i, k⟩ = S.exitDominates (S.block i) := by
  simp [Graph.exitDominatesUse, hi]

/-- What is used before the exit stands before it. -/
theorem block_before {u : Use I} (hu : u ∈ S.uses (.inst j))
    (hbefore : S.exitDominatesUse u = false) : S.exitDominates (S.block j) = false := by
  by_contra h
  rw [S.uses_past j (by simpa using h) u hu] at hbefore
  cases hbefore

theorem exists_use (hv : v ∈ S.operands i) : ∃ k, ⟨.inst i, k⟩ ∈ S.uses v := by
  obtain ⟨k, hk⟩ := List.mem_iff_getElem?.mp hv
  exact ⟨k, (S.mem_uses v i k).mpr hk⟩

/-- Only the branch reads the compare. -/
theorem ne_compare_of_uses {k : ℕ} (hu : ⟨.inst i, k⟩ ∈ S.uses (.inst j))
    (hi : S.kind i ≠ .terminator) : j ≠ S.compare := by
  rintro rfl
  rw [S.compare_uses, List.mem_singleton, Use.mk.injEq, User.inst.injEq] at hu
  exact hi (hu.1 ▸ S.branch_kind)

/-- The compare feeds nothing after the exit. -/
theorem ne_compare_of_feeds (h : S.Feeds i) : i ≠ S.compare := by
  rintro rfl
  obtain ⟨u, hu, hfeeds⟩ := Graph.feeds_iff.mp h
  rcases hfeeds with hpast | ⟨j, hs, -⟩
  · rw [S.compare_uses, List.mem_singleton] at hu
    subst hu
    simp [Graph.exitDominatesUse, S.branch_kind, S.branch_block, S.exitDominates_latch] at hpast
  · obtain ⟨user, k⟩ := u
    obtain rfl : user = .inst j := hs.user
    exact ne_compare_of_uses hu (by simp [hs.pure]) rfl

/-- A pure instruction before the exit, other than the compare. -/
theorem sinks_of_pure (hi : S.kind i = .pure) (hbefore : S.exitDominates (S.block i) = false)
    (hne : i ≠ S.compare) (k : ℕ) : S.Sinks ⟨.inst i, k⟩ i where
  user := rfl
  ne_compare := hne
  before := (exitDominatesUse_pure hi k).trans hbefore
  pure := hi

/-- The next induction stands before the exit. -/
theorem ivNext_before (h : S.ivNext = .inst i) : S.exitDominates (S.block i) = false := by
  obtain ⟨k, hk, hop⟩ := Option.bind_eq_some_iff.mp S.iv_next
  have hlatch : S.incomingBlock S.iv k = S.latch := by simpa using List.find?_some hk
  refine block_before (u := ⟨.inst S.iv, k⟩) (h ▸ (S.mem_uses _ _ _).mpr hop) ?_
  simp [Graph.exitDominatesUse, ((S.mem_phis _ _).mp S.iv_mem).1, hlatch, S.exitDominates_latch]

/-! ## What is computed from the limit -/

theorem fed_of_visited (h : S.Visited i) : S.Fed (.inst i) := by
  induction h with
  | limit hu hs => exact .pure hs.pure (hs.mem_operands hu) .limit
  | inst _ hu hs ih => exact .pure hs.pure (hs.mem_operands hu) ih

/-- What is computed from the limit before the exit is visited. -/
theorem Fed.visited (h : S.Fed v) (hv : v = .inst i)
    (hbefore : S.exitDominates (S.block i) = false) (hne : i ≠ S.compare) : S.Visited i := by
  induction h generalizing i with
  | limit => cases hv
  | exitPhi hi =>
    cases hv
    exact absurd hi (notMem_exitPhis hbefore)
  | @pure i' w hi hw hfed ih =>
    cases hv
    obtain ⟨k, hu⟩ := exists_use hw
    have hs := sinks_of_pure hi hbefore hne k
    cases w with
    | limit => exact .limit hu hs
    | inst j =>
      have hj : j ≠ S.compare := ne_compare_of_uses hu (by simp [hi])
      exact .inst (ih rfl (block_before hu hs.before) hj) hu hs
    | other a => cases hfed

/-- The plan meets what is computed from the limit where an instruction before the exit reads
it. -/
theorem Fed.meets {k : ℕ} (h : S.Fed v) (hu : ⟨.inst i, k⟩ ∈ S.uses v)
    (hi : S.kind i ≠ .terminator) (hbefore : S.exitDominatesUse ⟨.inst i, k⟩ = false) :
    S.Meets ⟨.inst i, k⟩ := by
  cases v with
  | limit => exact .limit hu
  | inst j => exact .inst (h.visited rfl (block_before hu hbefore) (ne_compare_of_uses hu hi)) hu
  | other a => cases h

/-- A PHI of the exit block is computed from the limit if what it reads is. -/
theorem fed_exitPhi {V : Value I A} (hi : i ∈ S.phis S.exit) (hV : S.operands i = [V]) :
    S.Fed (.inst i) ↔ S.Fed V := by
  constructor
  · intro hfed
    cases hfed with
    | pure hpure => exact absurd hi (notMem_phis hpure _)
    | exitPhi _ hv h =>
      rw [hV, List.mem_singleton] at hv
      exact hv ▸ h
  · exact fun h => .exitPhi hi (hV ▸ List.mem_singleton_self V) h

/-! ## How the limit gets to a value -/

/-- The limit reaches a value of the rewritten graph through a number of pure instructions. -/
inductive Reaches (S : StepLoop I A B) (st : Rewritten I A) : New I A → ℕ → Prop
  | limit : Reaches S st (.old .limit) 0
  | pure {i : I} {w : New I A} {n : ℕ} (hi : S.kind i = .pure) (hw : w ∈ st.operands i)
      (h : Reaches S st w n) : Reaches S st (.old (.inst i)) (n + 1)
  | clone {i : I} {w : New I A} {n : ℕ} (hi : i ∈ st.clones) (hw : w ∈ st.cloneOperands i)
      (h : Reaches S st w n) : Reaches S st (.clone i) (n + 1)
  | exitPhi {i : I} {w : New I A} {n : ℕ} (hi : i ∈ S.phis S.exit) (hw : w ∈ st.operands i)
      (h : Reaches S st w n) : Reaches S st (.old (.inst i)) n
  | exitIndex {n : ℕ} (h : Reaches S st (.old S.ivNext) n) : Reaches S st .exitIndex n

/-- The same of the graph before, with the exit index for the limit. -/
inductive ReachesRef (S : StepLoop I A B) (st : Rewritten I A) : Value I A → ℕ → Prop
  | limit {n : ℕ} (h : Reaches S st (.old S.ivNext) n) : ReachesRef S st .limit n
  | pure {i : I} {w : Value I A} {n : ℕ} (hi : S.kind i = .pure) (hw : w ∈ S.operands i)
      (h : ReachesRef S st w n) : ReachesRef S st (.inst i) (n + 1)
  | exitPhi {i : I} {w : Value I A} {n : ℕ} (hi : i ∈ S.phis S.exit) (hw : w ∈ S.operands i)
      (h : ReachesRef S st w n) : ReachesRef S st (.inst i) n

theorem ReachesRef.fed {n : ℕ} (h : ReachesRef S st v n) : S.Fed v := by
  induction h with
  | limit => exact .limit
  | pure hi hw _ ih => exact .pure hi hw ih
  | exitPhi hi hw _ ih => exact .exitPhi hi hw ih

theorem Reaches.ivNext_pos {n : ℕ} (h : Reaches S st (.old S.ivNext) n)
    (hne : S.ivNext ≠ .limit) : 0 < n := by
  generalize hx : New.old S.ivNext = x at h
  cases h with
  | limit => exact absurd (New.old.inj hx) hne
  | pure => exact Nat.succ_pos _
  | clone => exact Nat.succ_pos _
  | exitPhi hi => exact absurd hi (notMem_exitPhis (ivNext_before (New.old.inj hx)))
  | exitIndex => cases hx

end

variable {I A B : Type} [DecidableEq I] [DecidableEq A] [DecidableEq B] [Fintype I]
  {S : StepLoop I A B} {i : I} {v : Value I A} {st : Rewritten I A}

/-! ## What is read after the exit -/

section
variable {D : Type} {op : I → List D → D} {edge : Edge} {val : New I A → D}
  {ref : Value I A → D}

omit [DecidableEq A] in
theorem isSunk_eq_false (h : ¬ S.Fed v) : S.isSunk v = false := by
  rw [Bool.eq_false_iff]
  intro hsunk
  cases v with
  | limit => exact h .limit
  | inst i => exact h (fed_of_visited ((Graph.plan_needs i).mp hsunk).1)
  | other a => cases hsunk

/-- What replaces a value that feeds a use after the exit is what it is to be, unless a PHI of
the exit block has carried the limit there. -/
theorem val_subst (hsunk : Graph.Sunk S.toGraph st.toSinking) (hval : S.Values st op edge val)
    (href : S.Reference op val ref)
    (hphi : ∀ i ∈ S.phis S.exit, S.uses (.inst i) ≠ [] → ¬ S.Fed (.inst i))
    (h : ∃ u ∈ S.uses v, S.FeedsUse u) : val (S.subst v) = ref v := by
  induction hr : S.valueRank v using Nat.strong_induction_on generalizing v with
  | _ n ih =>
    by_cases hfed : S.Fed v
    · cases v with
      | other a => cases hfed
      | limit => exact href.limit.symm
      | inst i =>
        have hfeeds : S.Feeds i := Graph.feeds_iff.mpr h
        have hpure : S.kind i = .pure := by
          cases hfed with
          | pure hi => exact hi
          | exitPhi hi hv hfed =>
            obtain ⟨u, hu, -⟩ := h
            exact absurd (.exitPhi hi hv hfed) (hphi i hi (List.ne_nil_of_mem hu))
        -- operands are read where the instruction or its clone stands
        have hops : (∀ k, S.FeedsUse ⟨.inst i, k⟩) →
            (S.operands i).map (val ∘ S.subst) = (S.operands i).map ref := by
          intro hread
          refine List.map_congr_left fun w hw => ?_
          obtain ⟨k, hu⟩ := exists_use hw
          exact ih _ (hr ▸ Graph.valueRank_lt hw hpure) ⟨_, hu, hread k⟩ rfl
        rw [href.pure i hfed hpure]
        by_cases hpast : S.exitDominates (S.block i) = true
        · have huse : ∀ k, S.exitDominatesUse ⟨.inst i, k⟩ = true :=
            fun k => (exitDominatesUse_pure hpure k).trans hpast
          have hlookup : S.plan.lookup i ≠ true := by
            intro hlookup
            have := (Graph.lookup_sinks hlookup).2.2 0
            rw [huse] at this
            cases this
          have hsubst : S.subst (.inst i) = .old (.inst i) := if_neg hlookup
          rw [hsubst, hval.pure i hpure, hsunk.operands_eq huse, if_pos rfl, List.map_map,
            hops fun k => .inl (huse k)]
        · have hbefore : S.exitDominates (S.block i) = false := by simpa using hpast
          have hne := ne_compare_of_feeds hfeeds
          have hlookup : S.plan.lookup i = true :=
            (Graph.plan_needs i).mpr ⟨hfed.visited rfl hbefore hne, hfeeds⟩
          have hclone := (hsunk.mem_clones i).mpr hlookup
          have hsubst : S.subst (.inst i) = .clone i := if_pos hlookup
          rw [hsubst, hval.clone i hclone, hsunk.cloneOperands i hclone, List.map_map,
            hops fun k => .inr ⟨i, sinks_of_pure hpure hbefore hne k, hfeeds⟩]
    · rw [Graph.subst_eq_old.mpr ⟨rfl, isSunk_eq_false hfed⟩, href.other v hfed]

/-- Nothing escapes through the code, only through PHIs of the exit block. -/
theorem noEscape (hsunk : Graph.Sunk S.toGraph st.toSinking) (hplan : S.plan.Failure = none)
    (hphi : ∀ i ∈ S.phis S.exit, S.uses (.inst i) ≠ [] → ¬ S.Fed (.inst i)) :
    S.NoEscape st where
  past op edge val ref hval href i k v hv hpast := by
    have hu : ⟨.inst i, k⟩ ∈ S.uses v := (S.mem_uses v i k).mpr hv
    rw [hsunk.operands, hv, Option.map_some, Option.map_some, if_pos hpast,
      val_subst hsunk hval href hphi ⟨_, hu, .inl hpast⟩]
  clones op edge val ref hval href i hi := by
    have hlookup := (hsunk.mem_clones i).mp hi
    obtain ⟨hpure, hne, hbefore⟩ := Graph.lookup_sinks hlookup
    have hfeeds := ((Graph.plan_needs i).mp hlookup).2
    rw [hsunk.cloneOperands i hi, List.map_map]
    refine List.map_congr_left fun w hw => ?_
    obtain ⟨k, hu⟩ := exists_use hw
    have hs : S.Sinks ⟨.inst i, k⟩ i := ⟨rfl, hne, hbefore k, hpure⟩
    exact val_subst hsunk hval href hphi ⟨_, hu, .inr ⟨i, hs, hfeeds⟩⟩
  before i k hbefore := by
    rw [hsunk.operands]
    simp [hbefore]
  memory i k v hi hv hfed := by
    by_contra hbefore
    rw [Bool.not_eq_true] at hbefore
    have hu : ⟨.inst i, k⟩ ∈ S.uses v := (S.mem_uses v i k).mpr hv
    refine Graph.plan_failure.mp hplan _ (hfed.meets hu (by simp [hi]) hbefore) ⟨hbefore, ?_⟩
    rintro j ⟨⟩
    exact hi

end

/-! ## What escapes through the PHIs of the exit block -/

/-- One more instruction. -/
def through (ds : List (Set ℕ)) : Set ℕ := {m | ∃ d ∈ ds, ∃ n ∈ d, m = n + 1}

/-- What a PHI of the exit block reads is not changed. -/
theorem exitPhi_newOperands (hsunk : Graph.Sunk S.toGraph st.toSinking) (hi : i ∈ S.phis S.exit) :
    ∃ V, S.operands i = [V] ∧ st.operands i = [.old V] ∧ S.reads st .latch i = some (.old V) := by
  obtain ⟨V, hV, hindex, -, hbefore⟩ := exitPhi_operands hi
  have hops : st.operands i = [.old V] := by
    apply List.ext_getElem?
    intro k
    rw [hsunk.operands, hV]
    cases k with
    | zero => simp [hbefore]
    | succ k => rfl
  refine ⟨V, hV, hops, ?_⟩
  simp [reads, newIncoming, hindex, hops]

/-- An operand of the rewritten graph is or replaces one of the graph before. -/
theorem exists_operand (hsunk : Graph.Sunk S.toGraph st.toSinking) {w : New I A}
    (hw : w ∈ st.operands i) : ∃ v ∈ S.operands i, w = .old v ∨ w = S.subst v := by
  obtain ⟨k, hk⟩ := List.mem_iff_getElem?.mp hw
  rw [hsunk.operands, Option.map_eq_some_iff] at hk
  obtain ⟨v, hv, rfl⟩ := hk
  refine ⟨v, List.mem_of_getElem? hv, ?_⟩
  by_cases hpast : S.exitDominatesUse ⟨.inst i, k⟩ = true
  · exact .inr (if_pos hpast)
  · exact .inl (if_neg hpast)

omit [DecidableEq A] in
theorem eq_of_old {w : Value I A} (h : .old w = New.old v ∨ .old w = S.subst v) : v = w := by
  rcases h with h | h
  · exact (New.old.inj h).symm
  · exact (Graph.subst_eq_old.mp h.symm).1

/-- The limit reaches only what is computed from it. -/
theorem Reaches.fed (hsunk : Graph.Sunk S.toGraph st.toSinking) {x : New I A} {n : ℕ}
    (h : Reaches S st x n) (hv : x = .old v ∨ x = S.subst v) : S.Fed v := by
  induction h generalizing v with
  | limit =>
    rw [eq_of_old hv]
    exact .limit
  | pure hi hw _ ih =>
    obtain ⟨v', hv', hor⟩ := exists_operand hsunk hw
    rw [eq_of_old hv]
    exact .pure hi hv' (ih hor)
  | exitPhi hi hw _ ih =>
    obtain ⟨v', hv', hor⟩ := exists_operand hsunk hw
    rw [eq_of_old hv]
    exact .exitPhi hi hv' (ih hor)
  | clone hi hw _ ih =>
    rw [hsunk.cloneOperands _ hi] at hw
    obtain ⟨v', hv', rfl⟩ := List.mem_map.mp hw
    obtain ⟨rfl, hlookup⟩ := Graph.subst_eq_clone.mp (hv.resolve_left (by simp)).symm
    exact .pure (Graph.lookup_sinks hlookup).1 hv' (ih (.inr rfl))
  | exitIndex =>
    rw [Graph.subst_eq_exitIndex.mp (hv.resolve_left (by simp)).symm]
    exact .limit

/-- A pure instruction before the exit reads what it read, and that stands before the exit too. -/
theorem operand_before (hsunk : Graph.Sunk S.toGraph st.toSinking) (hi : S.kind i = .pure)
    (hbefore : S.exitDominates (S.block i) = false) (hv : v ∈ S.operands i) :
    .old v ∈ st.operands i ∧ ∀ j, v = .inst j → S.exitDominates (S.block j) = false := by
  obtain ⟨k, hu⟩ := exists_use hv
  have huse : ∀ k, S.exitDominatesUse ⟨.inst i, k⟩ = false :=
    fun k => (exitDominatesUse_pure hi k).trans hbefore
  refine ⟨?_, fun j hj => block_before (hj ▸ hu) (huse k)⟩
  rw [hsunk.operands_eq huse]
  exact List.mem_map_of_mem hv

/-- What is computed from the limit before the exit, the limit reaches. -/
theorem Fed.reaches (hsunk : Graph.Sunk S.toGraph st.toSinking) (h : S.Fed v)
    (hbefore : ∀ i, v = .inst i → S.exitDominates (S.block i) = false) :
    ∃ n, Reaches S st (.old v) n := by
  induction h with
  | limit => exact ⟨0, .limit⟩
  | exitPhi hi => exact absurd hi (notMem_exitPhis (hbefore _ rfl))
  | pure hi hw _ ih =>
    obtain ⟨hold, hw'⟩ := operand_before hsunk hi (hbefore _ rfl) hw
    obtain ⟨n, hn⟩ := ih hw'
    exact ⟨n + 1, .pure hi hold hn⟩

/-- Before the exit, the limit is nearer than the exit index. -/
theorem ReachesRef.exists_lt (hsunk : Graph.Sunk S.toGraph st.toSinking)
    (hne : S.ivNext ≠ .limit) {n : ℕ} (h : ReachesRef S st v n)
    (hbefore : ∀ i, v = .inst i → S.exitDominates (S.block i) = false) :
    ∃ m < n, Reaches S st (.old v) m := by
  induction h with
  | limit h => exact ⟨0, h.ivNext_pos hne, .limit⟩
  | exitPhi hi => exact absurd hi (notMem_exitPhis (hbefore _ rfl))
  | pure hi hw _ ih =>
    obtain ⟨hold, hw'⟩ := operand_before hsunk hi (hbefore _ rfl) hw
    obtain ⟨m, hm, hreach⟩ := ih hw'
    exact ⟨m + 1, Nat.succ_lt_succ hm, .pure hi hold hreach⟩

/-- The values of a run on the edge from the latch: how the limit reaches them. -/
theorem values_reaches (hsunk : Graph.Sunk S.toGraph st.toSinking) :
    S.Values st (fun _ => through) .latch fun x => {n | Reaches S st x n} where
  pure i hi := by
    ext m
    constructor
    · intro (hm : Reaches S st _ m)
      cases hm with
      | pure _ hw h => exact ⟨_, List.mem_map_of_mem hw, _, h, rfl⟩
      | exitPhi hphi => exact absurd hphi (notMem_phis hi _)
    · rintro ⟨d, hd, n, hn, rfl⟩
      obtain ⟨w, hw, rfl⟩ := List.mem_map.mp hd
      exact .pure hi hw hn
  clone i hi := by
    ext m
    constructor
    · intro (hm : Reaches S st _ m)
      cases hm with
      | clone _ hw h => exact ⟨_, List.mem_map_of_mem hw, _, h, rfl⟩
    · rintro ⟨d, hd, n, hn, rfl⟩
      obtain ⟨w, hw, rfl⟩ := List.mem_map.mp hd
      exact .clone hi hw hn
  exitPhi i hi := by
    obtain ⟨V, -, hops, hreads⟩ := exitPhi_newOperands hsunk hi
    rw [hreads, Option.map_some, Option.some.injEq]
    ext m
    constructor
    · intro (hm : Reaches S st _ m)
      cases hm with
      | pure hpure => exact absurd hi (notMem_phis hpure _)
      | exitPhi _ hw h =>
        rw [hops, List.mem_singleton] at hw
        exact hw ▸ h
    · exact fun h => .exitPhi hi (hops ▸ List.mem_singleton_self _) h
  exitIndex := by
    ext m
    constructor
    · intro (hm : Reaches S st _ m)
      cases hm with
      | exitIndex h => exact h
    · exact .exitIndex

theorem reference_reaches (hsunk : Graph.Sunk S.toGraph st.toSinking) :
    S.Reference (fun _ => through) (fun x => {n | Reaches S st x n})
      fun v => {n | ReachesRef S st v n} where
  limit := by
    ext m
    constructor
    · intro (hm : ReachesRef S st _ m)
      cases hm with
      | limit h => exact .exitIndex h
    · intro (hm : Reaches S st _ m)
      cases hm with
      | exitIndex h => exact .limit h
  pure i _ hi := by
    ext m
    constructor
    · intro (hm : ReachesRef S st _ m)
      cases hm with
      | pure _ hw h => exact ⟨_, List.mem_map_of_mem hw, _, h, rfl⟩
      | exitPhi hphi => exact absurd hphi (notMem_phis hi _)
    · rintro ⟨d, hd, n, hn, rfl⟩
      obtain ⟨w, hw, rfl⟩ := List.mem_map.mp hd
      exact .pure hi hw hn
  exitPhi i hi _ := by
    obtain ⟨V, hV, -, hincoming, -⟩ := exitPhi_operands hi
    rw [hincoming, Option.map_some, Option.some.injEq]
    ext m
    constructor
    · intro (hm : ReachesRef S st _ m)
      cases hm with
      | pure hpure => exact absurd hi (notMem_phis hpure _)
      | exitPhi _ hw h =>
        rw [hV, List.mem_singleton] at hw
        exact hw ▸ h
    · exact fun h => .exitPhi hi (hV ▸ List.mem_singleton_self _) h
  other v hv := by
    ext m
    constructor
    · exact fun h => absurd h.fed hv
    · exact fun h => absurd (h.fed hsunk (.inl rfl)) hv

/-- If nothing escapes, no PHI of the exit block that has a use carries the limit. -/
theorem NoEscape.not_fed (h : S.NoEscape st) (hsunk : Graph.Sunk S.toGraph st.toSinking)
    (hne : S.ivNext ≠ .limit) (hi : i ∈ S.phis S.exit) (huse : S.uses (.inst i) ≠ []) :
    ¬ S.Fed (.inst i) := by
  intro hfed
  obtain ⟨V, hV, hops, -⟩ := exitPhi_newOperands hsunk hi
  obtain ⟨_, -, -, -, hlatch⟩ := exitPhi_operands hi
  have hfedV : S.Fed V := (fed_exitPhi hi hV).mp hfed
  -- the PHI is read after the exit, by an instruction
  obtain ⟨⟨user, k⟩, hu⟩ := List.exists_mem_of_ne_nil _ huse
  have hpast := S.uses_past i (exitPhi_past hi) _ hu
  obtain ⟨j, rfl⟩ : ∃ j, user = .inst j := by
    cases user with
    | inst j => exact ⟨j, rfl⟩
    | other n => cases hpast
  have hop := (S.mem_uses _ _ _).mp hu
  have hread := h.past _ _ _ _ (values_reaches hsunk) (reference_reaches hsunk) j k _ hop hpast
  have hsubst : S.subst (.inst i) = .old (.inst i) := by
    exact if_neg fun hlookup => notMem_phis (Graph.lookup_sinks hlookup).1 _ hi
  rw [hsunk.operands, hop, Option.map_some, if_pos hpast, hsubst, Option.map_some,
    Option.some.injEq] at hread
  -- so every way from the limit to `V` has a shorter one
  have hbefore : ∀ j, V = .inst j → S.exitDominates (S.block j) = false := by
    rintro j rfl
    have huse₀ : ⟨.inst i, 0⟩ ∈ S.uses (.inst j) := by
      rw [S.mem_uses, hV]
      rfl
    exact block_before huse₀ hlatch
  have hshorter : ∀ n, Reaches S st (.old V) n → ∃ m < n, Reaches S st (.old V) m := by
    intro n hn
    have hmem : n ∈ {n | ReachesRef S st (.inst i) n} := by
      rw [← hread]
      exact .exitPhi hi (hops ▸ List.mem_singleton_self _) hn
    have hphi : ReachesRef S st (.inst i) n := hmem
    cases hphi with
    | pure hpure => exact absurd hi (notMem_phis hpure _)
    | exitPhi _ hw href =>
      rw [hV, List.mem_singleton] at hw
      exact (hw ▸ href).exists_lt hsunk hne hbefore
  obtain ⟨n, hn⟩ := hfedV.reaches hsunk hbefore
  induction n using Nat.strong_induction_on with
  | _ n ih =>
    obtain ⟨m, hm, hreach⟩ := hshorter n hn
    exact ih m hm hreach

/-- An accepted limit is defined before the loop, and does not get to memory before the exit. -/
theorem matchStepLoop_ok (h : S.matchStepLoop = .ok ()) :
    S.definedInLoop .limit = false ∧ S.plan.Failure = none := by
  rw [matchStepLoop] at h
  split at h
  · cases h
  · next hnot =>
    rw [Bool.not_eq_true, Bool.or_eq_false_iff] at hnot
    split at h
    · cases h
    · next hplan => exact ⟨hnot.1, hplan⟩

end StepLoop

/-- A loop, and after it a call of a function with a PHI of the exit block and the limit. -/
inductive CallInst
  | iv
  | ivNext
  | compare
  | branch
  | exitPhi
  | call
  deriving DecidableEq, Repr

instance : Fintype CallInst where
  elems := {.iv, .ivNext, .compare, .branch, .exitPhi, .call}
  complete i := by cases i <;> decide

/-- Its blocks. -/
inductive CallBlock
  | preheader
  | loop
  | exit
  deriving DecidableEq, Repr

/-- The PHI takes the limit or the next value of the induction. -/
def callOperands (carries : Bool) : CallInst → List (Value CallInst Unit)
  | .iv => [.other (), .inst .ivNext]
  | .ivNext => [.inst .iv, .other ()]
  | .compare => [.inst .ivNext, .limit]
  | .branch => [.inst .compare]
  | .exitPhi => [if carries then .limit else .inst .ivNext]
  | .call => [.inst .exitPhi, .limit]

/-- The uses, newest first. -/
def callUses (carries : Bool) : Value CallInst Unit → List (Use CallInst) :=
  useLists [.call, .exitPhi, .branch, .compare, .ivNext, .iv] (callOperands carries)

/-- The loop and the call, as `matchStepLoop` sees them. -/
def callLoop (carries : Bool) : StepLoop CallInst Unit CallBlock where
  kind
    | .iv | .exitPhi => .phi
    | .ivNext | .compare => .pure
    | .branch => .terminator
    | .call => .effect
  operands := callOperands carries
  uses := callUses carries
  block
    | .exitPhi | .call => .exit
    | _ => .loop
  incomingBlock i k := if i = .iv ∧ k = 0 then .preheader else .loop
  exitDominates b := b = .exit
  compare := .compare
  rank
    | .ivNext => 1
    | .compare => 2
    | _ => 0
  preheader := .preheader
  header := .loop
  latch := .loop
  exit := .exit
  phis
    | .preheader => []
    | .loop => [.iv]
    | .exit => [.exitPhi]
  branch := .branch
  iv := .iv
  ivNext := .inst .ivNext
  ivEntry := .other ()
  definedInLoop
    | .inst .exitPhi | .inst .call => false
    | .inst _ => true
    | .limit | .other _ => false
  limitConstant := false
  mem_uses v i k := mem_useLists (by cases i <;> simp) k
  rank_lt := by revert carries; decide
  compare_pure := rfl
  compare_before := rfl
  mem_phis b i := by cases b <;> cases i <;> decide
  exit_operands i hi := by
    obtain rfl := List.mem_singleton.mp hi
    exact ⟨_, rfl, rfl⟩
  exitDominates_exit := rfl
  exitDominates_latch := rfl
  uses_past := by revert carries; decide
  iv_mem := List.mem_singleton_self _
  iv_next := by revert carries; decide
  iv_entry := by revert carries; decide
  ivNext_inLoop := rfl
  compare_uses := by revert carries; decide
  branch_kind := rfl
  branch_block := rfl

end Spork.Unroll.Sink
