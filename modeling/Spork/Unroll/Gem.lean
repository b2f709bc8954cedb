import Spork.Unroll.Driver

/-!
# The driver of the other pass

The other pass takes the markers one at a time. A loop whose token has a second marker, or which
holds a call or another loop, is left alone; the others are unrolled by the count of LLVM's cost
model and then batched, and where that fails every copy keeps its own progress store and exit
test. The factor of a token is entered in a table when its marker is erased, and a token that is
entered twice with different factors falls back to one.

## Main definitions

* `CostModel`, `Module` — what the analyses say.
* `computeNativeUnrollDecision`, `transformMarker`, `replaceFactorCall`, `run` — the source.
* `factor`, `outcome`, `loopCode` — what becomes of a marker, and of a loop.
* `Entered` — the invariant of the table.
* `run_published` — every query is told what the loops of its token do.
-/
namespace Spork.Unroll.Gem

open Driver (Call)

/-- The answer of `UnrollLoop`. -/
inductive LoopUnrollResult
  | Unmodified
  | PartiallyUnrolled
  | FullyUnrolled
  deriving DecidableEq, Repr

/-- What LLVM says about a loop. -/
structure CostModel where
  isLoopSimplifyForm : Bool
  isLCSSAForm : Bool
  Threshold : UInt32
  Partial : Bool
  PartialThreshold : UInt32
  canUnroll : Bool
  NumInlineCandidates : UInt32
  /-- Of the exiting blocks; zero if it is not known. -/
  getSmallConstantTripCount : List UInt32
  getSmallConstantMaxTripCount : UInt32
  /-- From the trip count and the maximal trip count, with the count to peel. -/
  computeUnrollCount : UInt32 → UInt32 → UInt32 × UInt32

/-- The least of the trip counts that are known. -/
def tripCount (counts : List UInt32) : UInt32 :=
  counts.foldl (fun TripCount TC =>
    if TC ≠ 0 ∧ (TripCount = 0 ∨ TC < TripCount) then TC else TripCount) 0

/-- `computeNativeUnrollDecision`. -/
def computeNativeUnrollDecision (c : CostModel) : Option UInt32 :=
  if ¬c.isLoopSimplifyForm ∨ ¬c.isLCSSAForm then none
  else if c.Threshold = 0 ∧ (¬c.Partial ∨ c.PartialThreshold = 0) then none
  else if ¬c.canUnroll ∨ c.NumInlineCandidates ≠ 0 then none
  else
    let TripCount := tripCount c.getSmallConstantTripCount
    let MaxTripCount := if TripCount = 0 then c.getSmallConstantMaxTripCount else 0
    let (Count, PeelCount) := c.computeUnrollCount TripCount MaxTripCount
    if PeelCount ≠ 0 ∨ Count < 2 then none
    else
      let Count := if MaxTripCount ≠ 0 ∧ Count > MaxTripCount then MaxTripCount else Count
      if Count < 2 then none else some Count

theorem two_le_of_decision {c : CostModel} {Count : UInt32}
    (h : computeNativeUnrollDecision c = some Count) : 2 ≤ Count := by
  simp only [computeNativeUnrollDecision, Option.ite_none_left_eq_some, Option.some.injEq] at h
  obtain ⟨-, -, -, -, hlt, rfl⟩ := h
  exact UInt32.not_lt.mp hlt

/-- The code in the place of a loop. -/
inductive LoopCode
  | original
  /-- Checked copies. -/
  | unrolled (Count : UInt32)
  /-- The batch loop, with its cleanup loop. -/
  | batched (Count : UInt32)
  deriving DecidableEq, Repr

/-- The iterations between a bound load and the next progress store, at most. -/
def LoopCode.batch : LoopCode → UInt32
  | .batched Count => Count
  | _ => 1

variable {Mk Q T Lp : Type}

/-- The markers among calls. -/
def markers : List (Call Mk Q) → List Mk
  | [] => []
  | .marker m :: calls => m :: markers calls
  | _ :: calls => markers calls

/-- A module, with the outcome of every analysis of a marker when the pass comes to it. -/
structure Module (Mk Q T Lp : Type) where
  /-- In program order, function by function. -/
  calls : List (Call Mk Q)
  getSiteToken : Call Mk Q → Option T
  /-- The type of a query. -/
  width : Q → ℕ
  findMarkedLoop : Mk → Option Lp
  findProgressStore : Mk → Bool
  hasSubLoops : Mk → Bool
  /-- In the blocks of the loop. -/
  loopCalls : Mk → List (Call Mk Q)
  costModel : Mk → CostModel
  cloneCleanupLoop : Mk → Bool
  UnrollLoop : Mk → UInt32 → LoopUnrollResult
  /-- On the loop that `UnrollLoop` leaves. -/
  formBatchedLoopWithCleanup : Mk → UInt32 → Bool

/-- The module under the pass, and its tables. -/
structure State (Mk Q T Lp : Type) (width : Q → ℕ) where
  calls : List (Call Mk Q)
  code : Lp → LoopCode
  /-- The tag of the progress stores of a loop. -/
  sporkProgress : Lp → Option ℕ
  /-- The constant that has replaced a query. -/
  value : (q : Q) → Option (BitVec (width q))
  siteFactors : T → Option UInt32
  siteNumber : ℕ

/-- Copies of a part of a function have copies of its calls. -/
def State.copyCalls {width : Q → ℕ} (st : State Mk Q T Lp width) (copies : ℕ)
    (calls : List (Call Mk Q)) : State Mk Q T Lp width :=
  { st with calls := st.calls ++ (List.replicate copies calls).flatten }

/-- `restoreTaggedProgressStores`. -/
def State.restoreTaggedProgressStores {width : Q → ℕ} (st : State Mk Q T Lp width) (tag : ℕ) :
    State Mk Q T Lp width :=
  { st with
    sporkProgress := fun L => if st.sporkProgress L = some tag then none else st.sporkProgress L }

section
variable {width : Q → ℕ}

/-- Loops without calls have none copied. -/
theorem copyCalls_nil (st : State Mk Q T Lp width) (copies : ℕ) :
    st.copyCalls copies ([] : List (Call Mk Q)) = st := by
  simp [State.copyCalls]

/-- The stores of a loop that has been tagged are restored. -/
theorem restore_update [DecidableEq Lp] (st : State Mk Q T Lp width) (L : Lp) (tag : ℕ)
    (htags : st.sporkProgress = fun _ => none) :
    State.restoreTaggedProgressStores
      { st with sporkProgress := Function.update st.sporkProgress L (some tag) } tag = st := by
  obtain ⟨calls, code, sporkProgress, value, siteFactors, siteNumber⟩ := st
  obtain rfl : sporkProgress = _ := htags
  rw [State.restoreTaggedProgressStores]
  congr 1
  funext L'
  by_cases hL : L' = L
  · simp [hL]
  · simp [Function.update_of_ne hL]

end

namespace Module

variable (M : Module Mk Q T Lp)

/-- `hasPotentiallyUnboundedWork`. -/
def hasPotentiallyUnboundedWork (m : Mk) : Bool := M.hasSubLoops m || !(M.loopCalls m).isEmpty

section
variable [DecidableEq T]

/-- `MarkerCounts`. -/
def markerCounts (t : T) : ℕ :=
  (markers M.calls).countP fun m => M.getSiteToken (.marker m) = some t

/-- `Decision`. -/
def decision (m : Mk) : Option UInt32 :=
  if (M.getSiteToken (.marker m)).any (fun t => M.markerCounts t = 1) ∧
      (M.findMarkedLoop m).isSome ∧ M.findProgressStore m ∧ ¬M.hasPotentiallyUnboundedWork m then
    computeNativeUnrollDecision (M.costModel m)
  else none

variable [DecidableEq Lp]

/-- The rewriting of a loop by a count, and the `Factor` that comes of it. -/
def transformLoop (st : State Mk Q T Lp M.width) (m : Mk) (L : Lp) (Count : UInt32) :
    UInt32 × State Mk Q T Lp M.width :=
  let tag := st.siteNumber
  let st := { st with
    siteNumber := st.siteNumber + 1
    sporkProgress := Function.update st.sporkProgress L (some tag) }
  if ¬M.cloneCleanupLoop m then
    (1, { st with sporkProgress := Function.update st.sporkProgress L none })
  else if M.UnrollLoop m Count = .Unmodified then (1, st.restoreTaggedProgressStores tag)
  else
    let st := st.copyCalls (Count.toNat - 1) (M.loopCalls m)
    -- only a partially unrolled loop has a main loop
    if M.UnrollLoop m Count = .PartiallyUnrolled ∧ M.formBatchedLoopWithCleanup m Count then
      let st := st.copyCalls 1 (M.loopCalls m)
      (Count, { st with
        code := Function.update st.code L (.batched Count)
        sporkProgress := Function.update st.sporkProgress L none })
    else
      (1, { st.restoreTaggedProgressStores tag with
        code := Function.update st.code L (.unrolled Count) })

/-- `SiteFactors.insert({Token, Factor})`, and what follows. -/
def insertFactor (siteFactors : T → Option UInt32) (t : T) (Factor : UInt32) : T → Option UInt32 :=
  match siteFactors t with
  | none => Function.update siteFactors t (some Factor)
  | some old => if old ≠ Factor then Function.update siteFactors t (some 1) else siteFactors

variable [DecidableEq Mk] [DecidableEq Q]

/-- The body of the loop over the markers. -/
def transformMarker (st : State Mk Q T Lp M.width) (m : Mk) : State Mk Q T Lp M.width :=
  let (Factor, st) :=
    match M.findMarkedLoop m, M.decision m with
    | some L, some Count => M.transformLoop st m L Count
    | _, _ => (1, st)
  { st with
    siteFactors :=
      match M.getSiteToken (.marker m) with
      | some t => insertFactor st.siteFactors t Factor
      | none => st.siteFactors
    calls := st.calls.filter (· ≠ .marker m) }

/-- `Factor` of a query. -/
def queryFactor (siteFactors : T → Option UInt32) (q : Q) : UInt32 :=
  match M.getSiteToken (.query q) with
  | some t => (siteFactors t).getD 1
  | none => 1

/-- The body of the loop of `replaceFactorCalls`. -/
def replaceFactorCall (st : State Mk Q T Lp M.width) (q : Q) : State Mk Q T Lp M.width :=
  { st with
    value := Function.update st.value q
      (some (BitVec.ofNat (M.width q) (M.queryFactor st.siteFactors q).toNat))
    calls := st.calls.filter (· ≠ .query q) }

/-- The module before the pass. -/
def init : State Mk Q T Lp M.width :=
  { calls := M.calls
    code := fun _ => .original
    sporkProgress := fun _ => none
    value := fun _ => none
    siteFactors := fun _ => none
    siteNumber := 0 }

/-- `transformMarkedLoops`, of every function. -/
def transformMarkedLoops : State Mk Q T Lp M.width :=
  (markers M.calls).foldl M.transformMarker M.init

/-- `SporkUnrollPass::run`. -/
def run : State Mk Q T Lp M.width :=
  (Driver.Module.factorCalls M.transformMarkedLoops.calls).foldl M.replaceFactorCall
    M.transformMarkedLoops

end

/-! ## One marker -/

section
variable [DecidableEq T]

/-- The factor that is entered for a marker. -/
def factor (m : Mk) : UInt32 :=
  match M.decision m with
  | none => 1
  | some Count =>
      if M.cloneCleanupLoop m ∧ M.UnrollLoop m Count = .PartiallyUnrolled ∧
        M.formBatchedLoopWithCleanup m Count then Count else 1

/-- The code that it leaves in the place of its loop. -/
def outcome (m : Mk) : LoopCode :=
  match M.decision m with
  | none => .original
  | some Count =>
      if ¬M.cloneCleanupLoop m ∨ M.UnrollLoop m Count = .Unmodified then .original
      else if M.UnrollLoop m Count = .PartiallyUnrolled ∧ M.formBatchedLoopWithCleanup m Count then
        .batched Count
      else .unrolled Count

/-- The loops after a marker. -/
def codeAfter [DecidableEq Lp] (code : Lp → LoopCode) (m : Mk) (L : Lp) : LoopCode :=
  if M.findMarkedLoop m = some L ∧ M.outcome m ≠ .original then M.outcome m else code L

variable {M}

/-- Only the loop of a single marker without calls is decided upon. -/
theorem decision_some {m : Mk} {Count : UInt32} (h : M.decision m = some Count) :
    (∃ t, M.getSiteToken (.marker m) = some t ∧ M.markerCounts t = 1) ∧
      (M.findMarkedLoop m).isSome ∧ M.loopCalls m = [] ∧ 2 ≤ Count := by
  rw [decision, Option.ite_none_right_eq_some] at h
  obtain ⟨⟨htoken, hloop, -, hwork⟩, hdecision⟩ := h
  refine ⟨?_, hloop, ?_, two_le_of_decision hdecision⟩
  · obtain ⟨t, ht, hone⟩ := Option.any_eq_true _ _ |>.mp htoken
    exact ⟨t, ht, of_decide_eq_true hone⟩
  · simp only [hasPotentiallyUnboundedWork, Bool.or_eq_true, Bool.not_eq_true', not_or] at hwork
    simpa using hwork.2

/-- The factor is the batch of the loop. -/
theorem batch_outcome (m : Mk) : (M.outcome m).batch = M.factor m := by
  rw [outcome, factor]
  cases M.decision m with
  | none => rfl
  | some Count =>
    by_cases hclone : M.cloneCleanupLoop m <;> cases hunroll : M.UnrollLoop m Count <;>
      by_cases hform : M.formBatchedLoopWithCleanup m Count <;> simp [*, LoopCode.batch]

variable [DecidableEq Lp]

/-- **What the rewriting of a loop does**, while no store is tagged. -/
theorem transformLoop_eq {st : State Mk Q T Lp M.width} {m : Mk} {L : Lp} {Count : UInt32}
    (hloop : M.findMarkedLoop m = some L) (hdecision : M.decision m = some Count)
    (htags : st.sporkProgress = fun _ => none) :
    M.transformLoop st m L Count = (M.factor m, { st with
      code := M.codeAfter st.code m, siteNumber := st.siteNumber + 1 }) := by
  obtain ⟨-, -, hcalls, -⟩ := decision_some hdecision
  have hclear : Function.update (Function.update st.sporkProgress L (some st.siteNumber)) L
      none = st.sporkProgress := by
    rw [Function.update_idem, htags, Function.update_eq_self_iff]
  have hrestore :=
    restore_update { st with siteNumber := st.siteNumber + 1 } L st.siteNumber htags
  have hcode (h : M.outcome m = .original) : M.codeAfter st.code m = st.code := by
    funext L'
    simp [codeAfter, h]
  have hupdate (h : M.outcome m ≠ .original) :
      M.codeAfter st.code m = Function.update st.code L (M.outcome m) := by
    funext L'
    by_cases hL : L' = L
    · simp [codeAfter, h, hloop, hL]
    · simp [codeAfter, hloop, hL, Ne.symm hL]
  rw [transformLoop, factor]
  simp only [hcalls, copyCalls_nil, hdecision]
  by_cases hclone : M.cloneCleanupLoop m
  · cases hunroll : M.UnrollLoop m Count with
    | Unmodified =>
      have houtcome : M.outcome m = .original := by simp [outcome, hdecision, hunroll]
      simp [hclone, hrestore, hcode houtcome]
    | FullyUnrolled =>
      have houtcome : M.outcome m = .unrolled Count := by simp [outcome, hdecision, hunroll, hclone]
      simp [hclone, hrestore, hupdate, houtcome]
    | PartiallyUnrolled =>
      by_cases hform : M.formBatchedLoopWithCleanup m Count
      · have houtcome : M.outcome m = .batched Count := by
          simp [outcome, hdecision, hunroll, hclone, hform]
        simp [hclone, hform, hclear, hupdate, houtcome]
      · have houtcome : M.outcome m = .unrolled Count := by
          simp [outcome, hdecision, hunroll, hclone, hform]
        simp [hclone, hform, hrestore, hupdate, houtcome]
  · have houtcome : M.outcome m = .original := by simp [outcome, hdecision, hclone]
    simp [hclone, hclear, hcode houtcome]

end

/-! ## The markers of a token -/

section
variable [DecidableEq T]

/-- The markers of a token. -/
def markersOf (t : T) : List Mk :=
  (markers M.calls).filter fun m => M.getSiteToken (.marker m) = some t

/-- The factor that is entered for a token. -/
def tokenFactor (t : T) : UInt32 :=
  match M.markersOf t with
  | [m] => M.factor m
  | _ => 1

variable {M}

omit [DecidableEq T] in
theorem mem_markers {m : Mk} {calls : List (Call Mk Q)} :
    m ∈ markers calls ↔ .marker m ∈ calls := by
  induction calls with
  | nil => simp [markers]
  | cons c calls ih => cases c <;> simp [markers, ih]

/-- All markers of a token enter the same factor, so that none is overwritten. -/
theorem factor_eq {m : Mk} {t : T} (hm : m ∈ markers M.calls)
    (ht : M.getSiteToken (.marker m) = some t) : M.factor m = M.tokenFactor t := by
  have hmem : m ∈ M.markersOf t := List.mem_filter.mpr ⟨hm, by simp [ht]⟩
  rw [tokenFactor]
  split
  · next m' heq =>
    rw [heq, List.mem_singleton] at hmem
    rw [hmem]
  · next hmany =>
    have hdecision : M.decision m = none := by
      by_contra hne
      obtain ⟨Count, hsome⟩ := Option.ne_none_iff_exists'.mp hne
      obtain ⟨⟨t', ht', hone⟩, -⟩ := decision_some hsome
      obtain rfl : t' = t := Option.some.inj (ht'.symm.trans ht)
      rw [markerCounts, List.countP_eq_length_filter] at hone
      obtain ⟨m', hm'⟩ := List.length_eq_one_iff.mp hone
      exact hmany m' hm'
    rw [factor, hdecision]

/-- A batched loop is that of the only marker of its token. -/
theorem outcome_batched {m : Mk} {K : UInt32} (hm : m ∈ markers M.calls)
    (h : M.outcome m = .batched K) : 2 ≤ K ∧ ∃ t, M.markersOf t = [m] := by
  rw [outcome] at h
  split at h
  · cases h
  · next Count hdecision =>
    obtain ⟨⟨t, ht, hone⟩, -, -, htwo⟩ := decision_some hdecision
    split at h
    · cases h
    · split at h
      · cases h
        rw [markerCounts, List.countP_eq_length_filter] at hone
        obtain ⟨m', hm'⟩ := List.length_eq_one_iff.mp hone
        have hmem : m ∈ M.markersOf t := List.mem_filter.mpr ⟨hm, by simp [ht]⟩
        refine ⟨htwo, t, ?_⟩
        rw [markersOf, hm'] at hmem ⊢
        rw [List.mem_singleton.mp hmem]
      · cases h

end

/-! ## The markers of a loop -/

section
variable [DecidableEq T] [DecidableEq Lp]

/-- What becomes of the loops, from some markers in order. -/
def loopCode (done : List Mk) : Lp → LoopCode := done.foldl M.codeAfter fun _ => .original

variable {M}

theorem loopCode_concat (done : List Mk) (m : Mk) :
    M.loopCode (done ++ [m]) = M.codeAfter (M.loopCode done) m := by
  rw [loopCode, List.foldl_append]
  rfl

/-- A loop that has been rewritten has a marker that says so. -/
theorem exists_of_loopCode {done : List Mk} {L : Lp} (h : M.loopCode done L ≠ .original) :
    ∃ m ∈ done, M.findMarkedLoop m = some L ∧ M.outcome m = M.loopCode done L := by
  induction done using List.reverseRecOn with
  | nil => exact absurd rfl h
  | append_singleton done m ih =>
    rw [loopCode_concat, codeAfter] at h ⊢
    split_ifs at h ⊢ with hm
    · exact ⟨m, by simp, hm.1, rfl⟩
    · obtain ⟨m', hmem, hm'⟩ := ih h
      exact ⟨m', by simp [hmem], hm'⟩

/-- A loop with one marker becomes what the marker makes of it. -/
theorem loopCode_eq {done : List Mk} {m : Mk} {L : Lp} (hm : m ∈ done)
    (hL : M.findMarkedLoop m = some L)
    (hone : ∀ m' ∈ done, M.findMarkedLoop m' = some L → m' = m) :
    M.loopCode done L = M.outcome m := by
  by_cases horiginal : M.loopCode done L = .original
  · rw [horiginal]
    by_contra hne
    -- the marker has rewritten the loop, and a rewritten loop does not become the original again
    have hkept : ∀ ms : List Mk, m ∈ ms → M.loopCode ms L ≠ .original := by
      intro ms hmem
      induction ms using List.reverseRecOn with
      | nil => cases hmem
      | append_singleton ms m' ih =>
        rw [loopCode_concat, codeAfter]
        split_ifs with hm'
        · exact hm'.2
        · refine ih ((List.mem_append.mp hmem).resolve_right fun hlast => hm' ?_)
          rw [← List.mem_singleton.mp hlast]
          exact ⟨hL, Ne.symm hne⟩
    exact hkept done hm horiginal
  · obtain ⟨m', hmem, hloop, houtcome⟩ := exists_of_loopCode horiginal
    rw [← houtcome, hone m' hmem hloop]

end

/-! ## All markers -/

section
variable [DecidableEq T] [DecidableEq Lp] [DecidableEq Mk] [DecidableEq Q]

/-- What the pass has done when it has come past some markers. -/
structure Entered (done : List Mk) (st : State Mk Q T Lp M.width) : Prop where
  calls_eq : st.calls = M.calls.filter fun c => ∀ m ∈ done, c ≠ .marker m
  code_eq : st.code = M.loopCode done
  untagged : st.sporkProgress = fun _ => none
  siteFactors_eq : ∀ t, st.siteFactors t =
    if ∃ m ∈ done, M.getSiteToken (.marker m) = some t then some (M.tokenFactor t) else none

variable {M}

omit [DecidableEq Lp] [DecidableEq Mk] [DecidableEq Q] in
/-- An entry is never changed. -/
theorem insertFactor_eq {siteFactors : T → Option UInt32} {t : T} {Factor : UInt32}
    (h : ∀ old ∈ siteFactors t, old = Factor) :
    insertFactor siteFactors t Factor = Function.update siteFactors t (some Factor) := by
  cases hold : siteFactors t with
  | none => simp [insertFactor, hold]
  | some old =>
    obtain rfl := h old hold
    rw [← hold, Function.update_eq_self, insertFactor, hold]
    exact if_neg (not_not.mpr rfl)

theorem entered_init : M.Entered [] M.init := by
  refine ⟨?_, rfl, rfl, fun t => ?_⟩
  · exact (List.filter_eq_self.mpr fun _ _ => by simp).symm
  · simp [init]

/-- **What one marker does**, whether its loop is rewritten or not. -/
theorem transformMarker_eq {st : State Mk Q T Lp M.width} {m : Mk}
    (htags : st.sporkProgress = fun _ => none) :
    ∃ n, M.transformMarker st m = { st with
      code := M.codeAfter st.code m
      siteNumber := n
      siteFactors :=
        match M.getSiteToken (.marker m) with
        | some t => insertFactor st.siteFactors t (M.factor m)
        | none => st.siteFactors
      calls := st.calls.filter (· ≠ .marker m) } := by
  cases hdecision : M.decision m with
  | none =>
    have hcode : M.codeAfter st.code m = st.code := by
      funext L
      simp [codeAfter, outcome, hdecision]
    refine ⟨st.siteNumber, ?_⟩
    cases hloop : M.findMarkedLoop m <;> simp [transformMarker, factor, hdecision, hloop, hcode]
  | some Count =>
    obtain ⟨-, hsome, -⟩ := decision_some hdecision
    obtain ⟨L, hloop⟩ := Option.isSome_iff_exists.mp hsome
    refine ⟨st.siteNumber + 1, ?_⟩
    simp only [transformMarker, hloop, hdecision, transformLoop_eq hloop hdecision htags]

/-- One marker is done. -/
theorem Entered.step {done : List Mk} {st : State Mk Q T Lp M.width} (h : M.Entered done st)
    {m : Mk} (hm : m ∈ markers M.calls) : M.Entered (done ++ [m]) (M.transformMarker st m) := by
  obtain ⟨n, heq⟩ := transformMarker_eq (m := m) h.untagged
  rw [heq]
  constructor
  · simp only [h.calls_eq, List.filter_filter]
    refine List.filter_congr fun c _ => ?_
    simp [and_comm, or_imp, forall_and]
  · rw [loopCode_concat, h.code_eq]
  · exact h.untagged
  · intro t
    cases htoken : M.getSiteToken (.marker m) with
    | none =>
      simp [h.siteFactors_eq, htoken, or_and_right, exists_or]
    | some t' =>
      have hfactor := factor_eq hm htoken
      have hold : ∀ old ∈ st.siteFactors t', old = M.factor m := by
        intro old ho
        rw [h.siteFactors_eq] at ho
        split at ho <;> cases ho
        exact hfactor.symm
      simp only [insertFactor_eq hold]
      by_cases ht : t = t'
      · subst ht
        rw [Function.update_self, hfactor, if_pos ⟨m, by simp, htoken⟩]
      · have hne : ¬ t' = t := fun he => ht he.symm
        simp [Function.update_of_ne ht, h.siteFactors_eq, htoken, hne, or_and_right, exists_or]

/-- All markers are done. -/
theorem transformMarkedLoops_entered : M.Entered (markers M.calls) M.transformMarkedLoops := by
  suffices h : ∀ ms : List Mk, (∀ m ∈ ms, m ∈ markers M.calls) →
      M.Entered ms (ms.foldl M.transformMarker M.init) by
    exact h (markers M.calls) fun _ => id
  intro ms hall
  induction ms using List.reverseRecOn with
  | nil => exact entered_init
  | append_singleton ms m ih =>
    rw [List.foldl_append]
    exact (ih fun m' hm' => hall m' (by simp [hm'])).step (hall m (by simp))

/-! ## All queries -/

omit [DecidableEq T] [DecidableEq Lp] in
theorem replaceFactorCalls_calls (qs : List Q) (st : State Mk Q T Lp M.width) :
    (qs.foldl M.replaceFactorCall st).calls = st.calls.filter fun c => ∀ q ∈ qs, c ≠ .query q := by
  induction qs generalizing st with
  | nil => exact (List.filter_eq_self.mpr fun _ _ => by simp).symm
  | cons q qs ih =>
    rw [List.foldl_cons, ih]
    simp only [replaceFactorCall, List.filter_filter]
    refine List.filter_congr fun c _ => ?_
    simp [Bool.and_comm]

omit [DecidableEq T] [DecidableEq Lp] in
theorem replaceFactorCalls_value {q : Q} {qs : List Q} (hq : q ∈ qs)
    (st : State Mk Q T Lp M.width) :
    (qs.foldl M.replaceFactorCall st).value q =
      some (BitVec.ofNat (M.width q) (M.queryFactor st.siteFactors q).toNat) := by
  induction qs using List.reverseRecOn with
  | nil => cases hq
  | append_singleton qs q' ih =>
    have hframe : (qs.foldl M.replaceFactorCall st).siteFactors = st.siteFactors :=
      Driver.foldl_frame (f := M.replaceFactorCall) State.siteFactors (fun _ _ _ => rfl) st
    rw [List.foldl_append, List.foldl_cons, List.foldl_nil, replaceFactorCall, hframe]
    by_cases he : q = q'
    · subst he
      exact Function.update_self ..
    · refine (Function.update_of_ne he ..).trans (ih ?_)
      simpa [he] using hq

variable (M) in
/-- What the pass leaves behind. -/
structure Published : Prop where
  /-- No marker and no query, and all the other calls. -/
  calls_eq : M.run.calls = M.calls.filter (· = .other)
  untagged : ∀ L, M.run.sporkProgress L = none
  /-- A batched loop has a marker, with a token of its own. -/
  batched : ∀ L K, M.run.code L = .batched K →
    2 ≤ K ∧ ∃ m t, M.findMarkedLoop m = some L ∧ M.markersOf t = [m]
  /-- A query is told the batch of every loop with one marker and the token of the query, and one
  if there is no marker with that token. -/
  told : ∀ q, .query q ∈ M.calls → ∃ F : UInt32,
    M.run.value q = some (BitVec.ofNat (M.width q) F.toNat) ∧
    (∀ m t L, .marker m ∈ M.calls → M.getSiteToken (.marker m) = some t →
      M.getSiteToken (.query q) = some t → M.findMarkedLoop m = some L →
      (∀ m', .marker m' ∈ M.calls → M.findMarkedLoop m' = some L → m' = m) →
      (M.run.code L).batch = F) ∧
    ((∀ m t, .marker m ∈ M.calls → M.getSiteToken (.marker m) = some t →
      M.getSiteToken (.query q) ≠ some t) → F = 1)

/-- What becomes of the loops. -/
theorem run_code : M.run.code = M.loopCode (markers M.calls) := by
  have hframe : M.run.code = M.transformMarkedLoops.code :=
    Driver.foldl_frame (f := M.replaceFactorCall) State.code (fun _ _ _ => rfl) _
  rw [hframe, transformMarkedLoops_entered.code_eq]

/-- **Every query is told what the loops of its token do**, whatever LLVM says about them and
wherever the rewriting of one fails. -/
theorem run_published (M : Module Mk Q T Lp) : M.Published where
  calls_eq := by
    rw [run, replaceFactorCalls_calls, transformMarkedLoops_entered.calls_eq, List.filter_filter]
    refine List.filter_congr fun c hc => ?_
    cases c with
    | marker m => simpa using mem_markers.mpr hc
    | query q => simpa [Driver.Module.mem_factorCalls] using hc
    | other => simp
  untagged L := by
    have hframe : M.run.sporkProgress = M.transformMarkedLoops.sporkProgress :=
      Driver.foldl_frame (f := M.replaceFactorCall) State.sporkProgress (fun _ _ _ => rfl) _
    rw [hframe, transformMarkedLoops_entered.untagged]
  batched L K h := by
    rw [run_code] at h
    have hne : M.loopCode (markers M.calls) L ≠ .original := by simp [h]
    obtain ⟨m, hm, hloop, houtcome⟩ := exists_of_loopCode hne
    obtain ⟨htwo, t, ht⟩ := outcome_batched hm (houtcome.trans h)
    exact ⟨htwo, m, t, hloop, ht⟩
  told q hq := by
    have h := transformMarkedLoops_entered (M := M)
    have hmem : q ∈ Driver.Module.factorCalls M.transformMarkedLoops.calls := by
      rw [Driver.Module.mem_factorCalls, h.calls_eq]
      simpa using hq
    refine ⟨_, replaceFactorCalls_value hmem _, fun m t L hm htm htq hloop hone => ?_,
      fun hnone => ?_⟩
    · have hcode := loopCode_eq (mem_markers.mpr hm) hloop fun m' hm' =>
        hone m' (mem_markers.mp hm')
      rw [run_code, hcode, batch_outcome, factor_eq (mem_markers.mpr hm) htm, queryFactor, htq]
      simp only [h.siteFactors_eq, if_pos (⟨m, mem_markers.mpr hm, htm⟩ :
        ∃ m ∈ markers M.calls, M.getSiteToken (.marker m) = some t), Option.getD_some]
    · rw [queryFactor]
      cases htq : M.getSiteToken (.query q) with
      | none => rfl
      | some t =>
        have hno : ¬∃ m ∈ markers M.calls, M.getSiteToken (.marker m) = some t := by
          rintro ⟨m, hm, htm⟩
          exact hnone m t (mem_markers.mp hm) htm htq
        simp only [h.siteFactors_eq, if_neg hno, Option.getD_none]

end

end Module

end Spork.Unroll.Gem
