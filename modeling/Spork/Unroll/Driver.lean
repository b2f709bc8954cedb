import Mathlib.Logic.Function.Basic
import Mathlib.Data.List.Induction
import Spork.Unroll.Measure

/-!
# The driver of the unroll pass

`run` groups the markers of a module by site token. All loops of all markers of a token are to
be batched by one factor, since the promotion handler asks for the factor of the token; the
loops are matched and probed first, and the first that is rejected leaves the whole token as
it was. Then the plans are applied, a transplant that fails falls back to the batched loop, and
the batch is put in the place of every query of the token.

## Main definitions

* `Call`, `LoopProtocol`, `Module` — a module, and the outcome of every analysis of it.
* `collectLoops`, `collectMarkers`, `applyPlan`, `runSite`, `run` — the source.
* `Grouped` — the markers of a module by their tokens.
* `Accepted` — no marker and no loop of a token is rejected.
* `collectMarkers_iff`, `applySite_cases` — what is decided about a token, and what becomes of it.
-/
namespace Spork.Unroll.Driver

/-- The calls of a module, as the pass tells them apart. -/
inductive Call (Mk Q : Type)
  /-- `isValidSporkLoopMarker`. -/
  | marker (m : Mk)
  /-- `isValidSporkFactorCall`. -/
  | query (q : Q)
  | other
  deriving DecidableEq

/-- What the driver reads of a matched loop. -/
structure LoopProtocol (V : Type) where
  progressPtr : V
  /-- The type of the induction. -/
  indexWidth : ℕ

/-- A module, with the outcome of every analysis of it. -/
structure Module (Mk Q T L V : Type) where
  /-- In program order. -/
  calls : List (Call Mk Q)
  getSiteToken : Call Mk Q → Option T
  /-- The type of a query. -/
  width : Q → ℕ
  width_pos : ∀ q, 0 < width q
  /-- Of the function of the marker. -/
  hasOptNone : Mk → Bool
  findMarkedLoops : Mk → Option (List L)
  matchLoopProtocol : Mk → L → Option (LoopProtocol V)
  /-- The probe of a loop, before it is measured; none if it fails verification. -/
  buildProbe : Mk → L → Option Probe
  SporkForceBatch : UInt32
  SporkMaxBatch : UInt32

/-- `ProbeInfo`. -/
structure ProbeInfo where
  probe : Option Probe
  /-- `Result.Batch`. -/
  batch : UInt32

/-- `Plan`, with its loop. -/
structure Plan (L V : Type) where
  loop : L
  proto : LoopProtocol V
  probe : ProbeInfo

/-- The code in the place of a loop. -/
inductive LoopCode
  | original
  | transplanted (steps : List StepLoop)
  /-- The outer/inner batch loop, with its cleanup loop. -/
  | batched (K : UInt32)

/-- The iterations between a bound load and the next progress store, in each of its loops. -/
def LoopCode.iterations : LoopCode → List ℕ
  | .original => [1]
  | .transplanted steps => steps.map StepLoop.trip
  | .batched K => [K.toNat, 1]

/-- The module under the pass, and `SiteFactors`. -/
structure State (Mk Q T L : Type) (width : Q → ℕ) where
  calls : List (Call Mk Q)
  code : L → LoopCode
  /-- The constant that has replaced a query. -/
  value : (q : Q) → Option (BitVec (width q))
  /-- Zero where there is no entry. -/
  siteFactors : T → UInt32

variable {Mk Q T L V : Type} (M : Module Mk Q T L V)

namespace Module

/-- The probe of a loop, or the batch that is forced. -/
def probeInfo (m : Mk) (l : L) : ProbeInfo :=
  if M.SporkForceBatch ≠ 0 then ⟨none, M.SporkForceBatch⟩
  else
    match M.buildProbe m l with
    | none => ⟨none, 1⟩
    | some p => ⟨some p, if measureProbe p > M.SporkMaxBatch then 1 else measureProbe p⟩

section
variable [DecidableEq V]

/-- The loops of a marker: `MarkerProgressPtr`, then `Batch` and `Plans` before the loop. -/
def collectLoops (m : Mk) :
    Option V → UInt32 × List (Plan L V) → List L → Option (UInt32 × List (Plan L V))
  | _, acc, [] => some acc
  | ptr, (batch, plans), l :: loops =>
      match M.matchLoopProtocol m l with
      | none => none
      | some proto =>
          if ptr.any (proto.progressPtr ≠ ·) then none
          else
            let B := (M.probeInfo m l).batch
            if B < 2 ∨ (batch ≠ 0 ∧ B ≠ batch) then none
            else
              collectLoops m (some proto.progressPtr)
                (B, plans ++ [⟨l, proto, M.probeInfo m l⟩]) loops

/-- The markers of a site token. -/
def collectMarkers :
    UInt32 × List (Plan L V) → List Mk → Option (UInt32 × List (Plan L V))
  | acc, [] => some acc
  | acc, m :: markers =>
      if M.hasOptNone m then none
      else
        match M.findMarkedLoops m with
        | none => none
        | some loops =>
            match M.collectLoops m none acc loops with
            | none => none
            | some acc => collectMarkers acc markers

end

/-- What a plan makes of its loop. -/
def planCode (batch : UInt32) (p : Plan L V) : LoopCode :=
  let transplanted :=
    if M.SporkForceBatch = 0 then p.probe.probe.bind (transplantProbe p.proto.indexWidth)
    else none
  match transplanted with
  | some steps => .transplanted steps
  | none => .batched batch

/-- A plan is applied. -/
def applyPlan [DecidableEq L] (batch : UInt32) (code : L → LoopCode) (p : Plan L V) :
    L → LoopCode :=
  Function.update code p.loop (M.planCode batch p)

/-- `Sites[Token].push_back(Call)`. -/
def pushSite [DecidableEq T] (t : T) (m : Mk) : List (T × List Mk) → List (T × List Mk)
  | [] => [(t, [m])]
  | (t', markers) :: sites =>
      if t' = t then (t', markers ++ [m]) :: sites else (t', markers) :: pushSite t m sites

/-- `Sites` and `UntokenedMarkers`. -/
def groupMarkers [DecidableEq T] : List (T × List Mk) × List Mk → List (Call Mk Q) →
    List (T × List Mk) × List Mk
  | acc, [] => acc
  | (sites, untokened), .marker m :: calls =>
      match M.getSiteToken (.marker m) with
      | some t => groupMarkers (pushSite t m sites, untokened) calls
      | none => groupMarkers (sites, untokened ++ [m]) calls
  | acc, _ :: calls => groupMarkers acc calls

variable [DecidableEq Mk] [DecidableEq Q] [DecidableEq T] [DecidableEq L] [DecidableEq V]

/-- `Marker->eraseFromParent()`. -/
def eraseMarker (st : State Mk Q T L M.width) (m : Mk) : State Mk Q T L M.width :=
  { st with calls := st.calls.filter (· ≠ .marker m) }

/-- The plans of a token are applied if it has no rejected loop. -/
def applySite (st : State Mk Q T L M.width) (site : T × List Mk) : State Mk Q T L M.width :=
  match M.collectMarkers (0, []) site.2 with
  | some (batch, plans) =>
      { st with
        code := plans.foldl (M.applyPlan batch) st.code
        siteFactors := Function.update st.siteFactors site.1 batch }
  | none => { st with siteFactors := Function.update st.siteFactors site.1 1 }

/-- The markers of one token. -/
def runSite (st : State Mk Q T L M.width) (site : T × List Mk) : State Mk Q T L M.width :=
  site.2.foldl M.eraseMarker (M.applySite st site)

/-- The factor of a query. -/
def queryFactor (siteFactors : T → UInt32) (q : Q) : UInt32 :=
  match M.getSiteToken (.query q) with
  | some t => if siteFactors t ≠ 0 then siteFactors t else 1
  | none => 1

/-- `Call->replaceAllUsesWith(ConstantInt::get(Call->getType(), Factor))`. -/
def replaceQuery (st : State Mk Q T L M.width) (q : Q) : State Mk Q T L M.width :=
  { st with
    value := Function.update st.value q
      (some (BitVec.ofNat (M.width q) (M.queryFactor st.siteFactors q).toNat))
    calls := st.calls.filter (· ≠ .query q) }

/-- The queries of a list of calls. -/
def factorCalls : List (Call Mk Q) → List Q
  | [] => []
  | .query q :: calls => q :: factorCalls calls
  | _ :: calls => factorCalls calls

/-- The module before the pass. -/
def init : State Mk Q T L M.width :=
  { calls := M.calls
    code := fun _ => .original
    value := fun _ => none
    siteFactors := fun _ => 0 }

/-- The markers have gone. -/
def runMarkers : State Mk Q T L M.width :=
  let (sites, untokened) := M.groupMarkers ([], []) M.calls
  untokened.foldl M.eraseMarker (sites.foldl M.runSite M.init)

/-- `SporkUnrollPass::run`. -/
def run : State Mk Q T L M.width :=
  (factorCalls M.runMarkers.calls).foldl M.replaceQuery M.runMarkers

end Module

/-! ## Folds of which one part is looked at -/

section
variable {S X A : Type} {f : S → X → S} (π : S → A)

theorem foldl_frame {xs : List X} (h : ∀ x ∈ xs, ∀ s, π (f s x) = π s) (s : S) :
    π (xs.foldl f s) = π s := by
  induction xs generalizing s with
  | nil => rfl
  | cons x xs ih =>
    rw [List.foldl_cons, ih fun y hy => h y (List.mem_cons_of_mem x hy)]
    exact h x List.mem_cons_self s

/-- All that write the part write the same, and one does. -/
theorem foldl_overwrite {xs : List X} {c : A} (h : ∀ x ∈ xs, ∀ s, π (f s x) = c ∨ π (f s x) = π s)
    (hx : ∃ x ∈ xs, ∀ s, π (f s x) = c) (s : S) : π (xs.foldl f s) = c := by
  induction xs using List.reverseRecOn with
  | nil => simp at hx
  | append_singleton xs x ih =>
    rw [List.foldl_append, List.foldl_cons, List.foldl_nil]
    obtain ⟨y, hy, hc⟩ := hx
    rcases h x (by simp) (xs.foldl f s) with hwrite | hkeep
    · exact hwrite
    · rcases List.mem_append.mp hy with hy | hy
      · rw [hkeep]
        exact ih (fun z hz => h z (by simp [hz])) ⟨y, hy, hc⟩
      · rw [List.mem_singleton] at hy
        subst hy
        exact hc _

end

namespace Module

/-! ## The markers of a token -/

/-- The markers of a token, among calls. -/
def markersOf [DecidableEq T] (t : T) (calls : List (Call Mk Q)) : List Mk :=
  calls.filterMap fun c =>
    match c with
    | .marker m => if M.getSiteToken c = some t then some m else none
    | _ => none

section
variable {M} [DecidableEq T]

theorem mem_markersOf {t : T} {m : Mk} {calls : List (Call Mk Q)} :
    m ∈ M.markersOf t calls ↔ .marker m ∈ calls ∧ M.getSiteToken (.marker m) = some t := by
  simp only [markersOf, List.mem_filterMap]
  constructor
  · rintro ⟨c, hc, h⟩
    split at h
    · split at h
      · cases h
        exact ⟨hc, by assumption⟩
      · cases h
    · cases h
  · intro ⟨hc, h⟩
    exact ⟨_, hc, by simp [h]⟩

@[simp] theorem markersOf_append (t : T) (calls₁ calls₂ : List (Call Mk Q)) :
    M.markersOf t (calls₁ ++ calls₂) = M.markersOf t calls₁ ++ M.markersOf t calls₂ :=
  List.filterMap_append

@[simp] theorem markersOf_marker (t : T) (m : Mk) :
    M.markersOf t [.marker m] = if M.getSiteToken (.marker m) = some t then [m] else [] := by
  rw [markersOf]
  split <;> simp_all

theorem keys_pushSite (t : T) (m : Mk) (sites : List (T × List Mk)) :
    (pushSite t m sites).map Prod.fst =
      if t ∈ sites.map Prod.fst then sites.map Prod.fst else sites.map Prod.fst ++ [t] := by
  induction sites with
  | nil => simp [pushSite]
  | cons site sites ih =>
    obtain ⟨t', markers⟩ := site
    by_cases ht : t' = t
    · simp [pushSite, ht]
    · have ht' : t ≠ t' := fun he => ht he.symm
      simp only [pushSite, if_neg ht, List.map_cons, ih, List.mem_cons, ht', false_or]
      split <;> simp

/-- A push reaches the entry of its token, or adds it. -/
theorem mem_pushSite {t t' : T} {m : Mk} {markers : List Mk} {sites : List (T × List Mk)}
    (hnodup : (sites.map Prod.fst).Nodup) (h : (t', markers) ∈ pushSite t m sites) :
    (t' ≠ t ∧ (t', markers) ∈ sites) ∨
      t' = t ∧ ∃ old, markers = old ++ [m] ∧
        ((t, old) ∈ sites ∨ old = [] ∧ t ∉ sites.map Prod.fst) := by
  induction sites with
  | nil =>
    simp only [pushSite, List.mem_singleton, Prod.mk.injEq] at h
    exact .inr ⟨h.1, [], by simpa using h.2, .inr ⟨rfl, by simp⟩⟩
  | cons site sites ih =>
    obtain ⟨t₀, old⟩ := site
    simp only [List.map_cons, List.nodup_cons] at hnodup
    by_cases ht : t₀ = t
    · subst ht
      simp only [pushSite, if_true, List.mem_cons, Prod.mk.injEq] at h
      rcases h with ⟨rfl, rfl⟩ | h
      · exact .inr ⟨rfl, old, rfl, .inl List.mem_cons_self⟩
      · refine .inl ⟨?_, List.mem_cons_of_mem _ h⟩
        rintro rfl
        exact hnodup.1 (List.mem_map_of_mem h)
    · simp only [pushSite, if_neg ht, List.mem_cons, Prod.mk.injEq] at h
      rcases h with ⟨rfl, rfl⟩ | h
      · exact .inl ⟨ht, List.mem_cons_self⟩
      · rcases ih hnodup.2 h with ⟨hne, hmem⟩ | ⟨rfl, old', rfl, hold⟩
        · exact .inl ⟨hne, List.mem_cons_of_mem _ hmem⟩
        · refine .inr ⟨rfl, old', rfl, hold.imp (List.mem_cons_of_mem _) ?_⟩
          rintro ⟨rfl, hkey⟩
          exact ⟨rfl, by simpa [Ne.symm ht] using hkey⟩

variable (M) in
/-- The markers among calls are grouped. -/
structure Grouped (calls : List (Call Mk Q)) (acc : List (T × List Mk) × List Mk) : Prop where
  nodup : (acc.1.map Prod.fst).Nodup
  markers_eq : ∀ t markers, (t, markers) ∈ acc.1 → markers = M.markersOf t calls
  mem_keys : ∀ m t, m ∈ M.markersOf t calls → t ∈ acc.1.map Prod.fst
  untokened : ∀ m, m ∈ acc.2 ↔ .marker m ∈ calls ∧ M.getSiteToken (.marker m) = none

theorem Grouped.pushSite {calls : List (Call Mk Q)} {sites : List (T × List Mk)}
    {untokened : List Mk} (h : M.Grouped calls (sites, untokened)) {m : Mk} {t : T}
    (ht : M.getSiteToken (.marker m) = some t) :
    M.Grouped (calls ++ [.marker m]) (Module.pushSite t m sites, untokened) := by
  have hkeys := keys_pushSite t m sites
  constructor
  · simp only [hkeys]
    split
    · exact h.nodup
    · next hnew =>
      rw [List.nodup_append]
      refine ⟨h.nodup, by simp, ?_⟩
      intro a ha b hb he
      rw [he, List.mem_singleton.mp hb] at ha
      exact hnew ha
  · intro t' markers hmem
    rcases mem_pushSite h.nodup hmem with ⟨hne, hold⟩ | ⟨rfl, old, rfl, hold⟩
    · simp [ht, Ne.symm hne, h.markers_eq _ _ hold]
    · suffices old = M.markersOf t' calls by simp [ht, this]
      rcases hold with hold | ⟨rfl, hkey⟩
      · exact h.markers_eq _ _ hold
      · symm
        rw [List.eq_nil_iff_forall_not_mem]
        intro m' hm'
        exact hkey (h.mem_keys _ _ hm')
  · intro m' t' hm'
    simp only [hkeys]
    simp only [markersOf_append, markersOf_marker, ht, List.mem_append] at hm'
    rcases hm' with hm' | hm'
    · have := h.mem_keys _ _ hm'
      split
      · exact this
      · exact List.mem_append_left _ this
    · split at hm'
      · next he =>
        cases he
        split
        · assumption
        · simp
      · cases hm'
  · intro m'
    rw [h.untokened]
    grind

theorem Grouped.untoken {calls : List (Call Mk Q)} {sites : List (T × List Mk)}
    {untokened : List Mk} (h : M.Grouped calls (sites, untokened)) {m : Mk}
    (ht : M.getSiteToken (.marker m) = none) :
    M.Grouped (calls ++ [.marker m]) (sites, untokened ++ [m]) := by
  constructor
  · exact h.nodup
  · intro t markers hmem
    simp [ht, h.markers_eq _ _ hmem]
  · intro m' t hm'
    exact h.mem_keys m' t (by simpa [ht] using hm')
  · intro m'
    simp only [List.mem_append, List.mem_singleton, Call.marker.injEq, h.untokened]
    grind

theorem Grouped.other {calls : List (Call Mk Q)} {acc : List (T × List Mk) × List Mk}
    (h : M.Grouped calls acc) {c : Call Mk Q} (hc : ∀ m, c ≠ .marker m) :
    M.Grouped (calls ++ [c]) acc := by
  have hnil : ∀ t, M.markersOf t [c] = [] := by
    intro t
    cases c with
    | marker m => exact absurd rfl (hc m)
    | query q => rfl
    | other => rfl
  constructor
  · exact h.nodup
  · intro t markers hmem
    simp [hnil, h.markers_eq _ _ hmem]
  · intro m t hm
    exact h.mem_keys m t (by simpa [hnil] using hm)
  · intro m
    simp [h.untokened, Ne.symm (hc m)]

theorem groupMarkers_grouped (calls : List (Call Mk Q)) {done : List (Call Mk Q)}
    {acc : List (T × List Mk) × List Mk} (h : M.Grouped done acc) :
    M.Grouped (done ++ calls) (M.groupMarkers acc calls) := by
  induction calls generalizing done acc with
  | nil => simpa [groupMarkers] using h
  | cons c calls ih =>
    rw [List.append_cons]
    obtain ⟨sites, untokened⟩ := acc
    cases c with
    | marker m =>
      rw [groupMarkers]
      split
      · next t ht => exact ih (h.pushSite ht)
      · next ht => exact ih (h.untoken ht)
    | query q => exact ih (h.other (by simp))
    | other => exact ih (h.other (by simp))

theorem grouped_init : M.Grouped [] ([], []) := by
  constructor <;> simp [markersOf]

end

/-! ## What is accepted -/

/-- The loops a marker denotes; none if the walk gives up. -/
def loopsOf (m : Mk) : List L := (M.findMarkedLoops m).getD []

/-- The progress slot of a matched loop. -/
def progressPtr (m : Mk) (l : L) : Option V :=
  (M.matchLoopProtocol m l).map LoopProtocol.progressPtr

/-- The plan of a matched loop. -/
def planOf (m : Mk) (l : L) : Option (Plan L V) :=
  (M.matchLoopProtocol m l).map (⟨l, ·, M.probeInfo m l⟩)

/-- The probe batch of a loop. -/
def batchOf (m : Mk) (l : L) : UInt32 := (M.probeInfo m l).batch

/-- The plans of the loops of markers, in order. -/
def plansOf (markers : List Mk) : List (Plan L V) :=
  markers.flatMap fun m => (M.loopsOf m).filterMap (M.planOf m)

/-- No marker and no loop is rejected, and every loop has the batch `K`. -/
structure Accepted (markers : List Mk) (K : UInt32) : Prop where
  optNone : ∀ m ∈ markers, M.hasOptNone m = false
  found : ∀ m ∈ markers, (M.findMarkedLoops m).isSome
  matched : ∀ m ∈ markers, ∀ l ∈ M.loopsOf m, (M.matchLoopProtocol m l).isSome
  one_slot : ∀ m ∈ markers, ∀ l ∈ M.loopsOf m, ∀ l' ∈ M.loopsOf m,
    M.progressPtr m l = M.progressPtr m l'
  two_le : ∀ m ∈ markers, ∀ l ∈ M.loopsOf m, 2 ≤ M.batchOf m l
  batch_eq : ∀ m ∈ markers, ∀ l ∈ M.loopsOf m, M.batchOf m l = K

/-- The loops of one marker are accepted, after a loop with the slot `ptr`. -/
structure LoopsAccepted (m : Mk) (ptr : Option V) (loops : List L) (K : UInt32) : Prop where
  matched : ∀ l ∈ loops, (M.matchLoopProtocol m l).isSome
  ptr_eq : ∀ l ∈ loops, ptr.isSome → M.progressPtr m l = ptr
  one_slot : ∀ l ∈ loops, ∀ l' ∈ loops, M.progressPtr m l = M.progressPtr m l'
  two_le : ∀ l ∈ loops, 2 ≤ M.batchOf m l
  batch_eq : ∀ l ∈ loops, M.batchOf m l = K

section
variable {M}

theorem mem_plansOf {p : Plan L V} {markers : List Mk} :
    p ∈ M.plansOf markers ↔ ∃ m ∈ markers, ∃ l ∈ M.loopsOf m, M.planOf m l = some p := by
  simp [plansOf]

theorem planOf_loop {m : Mk} {l : L} {p : Plan L V} (h : M.planOf m l = some p) : p.loop = l := by
  obtain ⟨proto, _, rfl⟩ := Option.map_eq_some_iff.mp h
  rfl

theorem loopsAccepted_nil {m : Mk} {ptr : Option V} {K : UInt32} :
    M.LoopsAccepted m ptr [] K := by
  constructor <;> simp

theorem loopsAccepted_cons {m : Mk} {ptr : Option V} {l : L} {loops : List L} {K : UInt32}
    {proto : LoopProtocol V} (hproto : M.matchLoopProtocol m l = some proto) :
    M.LoopsAccepted m ptr (l :: loops) K ↔
      (ptr.isSome → ptr = some proto.progressPtr) ∧ 2 ≤ K ∧ M.batchOf m l = K ∧
        M.LoopsAccepted m (some proto.progressPtr) loops K := by
  have hptr : M.progressPtr m l = some proto.progressPtr := by simp [progressPtr, hproto]
  constructor
  · intro h
    refine ⟨fun hsome => ?_, ?_, ?_, ?_⟩
    · rw [← h.ptr_eq l List.mem_cons_self hsome, hptr]
    · rw [← h.batch_eq l List.mem_cons_self]
      exact h.two_le l List.mem_cons_self
    · exact h.batch_eq l List.mem_cons_self
    · constructor
      · exact fun l' hl' => h.matched l' (List.mem_cons_of_mem l hl')
      · intro l' hl' _
        rw [← hptr]
        exact h.one_slot l' (List.mem_cons_of_mem l hl') l List.mem_cons_self
      · exact fun l₁ h₁ l₂ h₂ =>
          h.one_slot l₁ (List.mem_cons_of_mem l h₁) l₂ (List.mem_cons_of_mem l h₂)
      · exact fun l' hl' => h.two_le l' (List.mem_cons_of_mem l hl')
      · exact fun l' hl' => h.batch_eq l' (List.mem_cons_of_mem l hl')
  · intro ⟨hslot, htwo, hbatch, h⟩
    have hall : ∀ l' ∈ l :: loops, M.progressPtr m l' = some proto.progressPtr := by
      intro l' hl'
      rcases List.mem_cons.mp hl' with rfl | hl'
      · exact hptr
      · exact h.ptr_eq l' hl' rfl
    constructor
    · simpa [hproto] using h.matched
    · intro l' hl' hsome
      rw [hall l' hl', hslot hsome]
    · intro l₁ h₁ l₂ h₂
      rw [hall l₁ h₁, hall l₂ h₂]
    · simpa [hbatch, htwo] using h.two_le
    · simpa [hbatch] using h.batch_eq

theorem accepted_cons {m : Mk} {markers : List Mk} {K : UInt32} :
    M.Accepted (m :: markers) K ↔
      M.hasOptNone m = false ∧ (M.findMarkedLoops m).isSome ∧
        M.LoopsAccepted m none (M.loopsOf m) K ∧ M.Accepted markers K := by
  constructor
  · intro h
    refine ⟨h.optNone m List.mem_cons_self, h.found m List.mem_cons_self, ?_, ?_⟩
    · constructor
      · exact h.matched m List.mem_cons_self
      · simp
      · exact h.one_slot m List.mem_cons_self
      · exact h.two_le m List.mem_cons_self
      · exact h.batch_eq m List.mem_cons_self
    · have hmem : ∀ m' ∈ markers, m' ∈ m :: markers := fun _ => List.mem_cons_of_mem m
      constructor
      · exact fun m' hm' => h.optNone m' (hmem m' hm')
      · exact fun m' hm' => h.found m' (hmem m' hm')
      · exact fun m' hm' => h.matched m' (hmem m' hm')
      · exact fun m' hm' => h.one_slot m' (hmem m' hm')
      · exact fun m' hm' => h.two_le m' (hmem m' hm')
      · exact fun m' hm' => h.batch_eq m' (hmem m' hm')
  · intro ⟨hopt, hfound, hloops, h⟩
    constructor
    · exact List.forall_mem_cons.mpr ⟨hopt, h.optNone⟩
    · exact List.forall_mem_cons.mpr ⟨hfound, h.found⟩
    · exact List.forall_mem_cons.mpr ⟨hloops.matched, h.matched⟩
    · exact List.forall_mem_cons.mpr ⟨hloops.one_slot, h.one_slot⟩
    · exact List.forall_mem_cons.mpr ⟨hloops.two_le, h.two_le⟩
    · exact List.forall_mem_cons.mpr ⟨hloops.batch_eq, h.batch_eq⟩

/-- A loop in another slot than the one before. -/
theorem any_slot_ne [DecidableEq V] {ptr : Option V} {v : V} :
    ptr.any (v ≠ ·) = false ↔ (ptr.isSome → ptr = some v) := by
  cases ptr with
  | none => simp
  | some w =>
    simp only [Option.any_some, decide_eq_false_iff_not, Decidable.not_not, Option.isSome_some,
      forall_const, Option.some.injEq]
    exact eq_comm

variable [DecidableEq V]

/-- The batch of the loops before is kept, and the plans are in the order of the loops. -/
theorem collectLoops_iff {m : Mk} {ptr : Option V} {batch K : UInt32}
    {plans plans' : List (Plan L V)} {loops : List L} :
    M.collectLoops m ptr (batch, plans) loops = some (K, plans') ↔
      M.LoopsAccepted m ptr loops K ∧ (loops = [] ∨ batch ≠ 0 → K = batch) ∧
        plans' = plans ++ loops.filterMap (M.planOf m) := by
  induction loops generalizing ptr batch plans with
  | nil =>
    simp only [collectLoops, loopsAccepted_nil, Option.some.injEq, Prod.mk.injEq]
    simp [eq_comm]
  | cons l loops ih =>
    rw [collectLoops]
    cases hproto : M.matchLoopProtocol m l with
    | none =>
      simp only [reduceCtorEq, false_iff]
      intro ⟨h, _⟩
      simpa [hproto] using h.matched l List.mem_cons_self
    | some proto =>
      have hplan : M.planOf m l = some ⟨l, proto, M.probeInfo m l⟩ := by simp [planOf, hproto]
      rw [loopsAccepted_cons hproto]
      simp only [List.filterMap_cons_some hplan]
      split
      · next hslot =>
        simp only [reduceCtorEq, false_iff]
        intro ⟨⟨hptr, _⟩, _⟩
        rw [any_slot_ne.mpr hptr] at hslot
        cases hslot
      · next hslot =>
        have hptr := any_slot_ne.mp (Bool.eq_false_iff.mpr hslot)
        have hB : (M.probeInfo m l).batch = M.batchOf m l := rfl
        simp only [hB]
        split
        · next hrej =>
          simp only [reduceCtorEq, false_iff]
          intro ⟨⟨_, htwo, hbatch, _⟩, hkeep, _⟩
          rw [hbatch] at hrej
          rcases hrej with hlt | ⟨hne, hdiff⟩
          · exact absurd htwo (UInt32.not_le.mpr hlt)
          · exact hdiff (hkeep (.inr hne))
        · next hacc =>
          simp only [not_or, UInt32.not_lt, not_and, Decidable.not_not] at hacc
          obtain ⟨htwo, hsame⟩ := hacc
          have hne : M.batchOf m l ≠ 0 := by
            intro h0
            rw [h0] at htwo
            exact absurd htwo (by decide)
          rw [ih]
          constructor
          · intro ⟨h, hkeep, hplans⟩
            have hK := hkeep (.inr hne)
            refine ⟨⟨hptr, hK ▸ htwo, hK.symm, h⟩, ?_, by simpa using hplans⟩
            intro hb
            rw [hK]
            exact hsame (by simpa using hb)
          · intro ⟨⟨_, _, hK, h⟩, _, hplans⟩
            exact ⟨h, fun _ => hK.symm, by simpa using hplans⟩

/-- The collection ends with a batch exactly when nothing is rejected. -/
theorem collectMarkers_iff {batch K : UInt32} {plans plans' : List (Plan L V)}
    {markers : List Mk} :
    M.collectMarkers (batch, plans) markers = some (K, plans') ↔
      M.Accepted markers K ∧ ((∀ m ∈ markers, M.loopsOf m = []) ∨ batch ≠ 0 → K = batch) ∧
        plans' = plans ++ M.plansOf markers := by
  induction markers generalizing batch plans with
  | nil =>
    have hnil : M.Accepted [] K := by constructor <;> simp
    simp only [collectMarkers, hnil, Option.some.injEq, Prod.mk.injEq, plansOf, true_and]
    constructor
    · rintro ⟨rfl, rfl⟩
      simp
    · rintro ⟨hkeep, rfl⟩
      exact ⟨(hkeep (.inl (List.forall_mem_nil _))).symm, by simp⟩
  | cons m markers ih =>
    rw [collectMarkers, accepted_cons]
    split
    · next hopt => simp [hopt]
    · next hopt =>
      have hopt' := Bool.eq_false_iff.mpr hopt
      split
      · next hfind => simp [hfind]
      · next loops hfind =>
        have hloops : M.loopsOf m = loops := by simp [loopsOf, hfind]
        have hplans : M.plansOf (m :: markers) =
            loops.filterMap (M.planOf m) ++ M.plansOf markers := by
          simp [plansOf, hloops]
        simp only [hopt', hfind, Option.isSome_some, true_and, hplans, List.forall_mem_cons, hloops]
        constructor
        · intro h
          split at h
          · cases h
          · next acc hacc =>
            obtain ⟨K₁, plans₁⟩ := acc
            obtain ⟨hl, hkeep₁, rfl⟩ := collectLoops_iff.mp hacc
            obtain ⟨hrest, hkeep, rfl⟩ := ih.mp h
            cases loops with
            | nil =>
              have hK₁ := hkeep₁ (.inl rfl)
              subst hK₁
              exact ⟨⟨loopsAccepted_nil, hrest⟩, by simpa using hkeep, by simp⟩
            | cons l loops =>
              have hne : K₁ ≠ 0 := by
                intro h0
                have htwo := hl.two_le l (by simp)
                rw [hl.batch_eq l (by simp), h0] at htwo
                exact absurd htwo (by decide)
              have hK := hkeep (.inr hne)
              subst hK
              exact ⟨⟨hl, hrest⟩, by simpa using fun hb => hkeep₁ (.inr hb), by simp⟩
        · rintro ⟨⟨hl, hrest⟩, hkeep, rfl⟩
          cases loops with
          | nil =>
            rw [collectLoops_iff.mpr ⟨loopsAccepted_nil, fun _ => rfl, rfl⟩]
            exact ih.mpr ⟨hrest, by simpa using hkeep, by simp⟩
          | cons l loops =>
            have hkeep₁ : l :: loops = [] ∨ batch ≠ 0 → K = batch := by
              intro hb
              exact hkeep (.inr (by simpa using hb))
            rw [collectLoops_iff.mpr ⟨hl, hkeep₁, rfl⟩]
            exact ih.mpr ⟨hrest, fun _ => rfl, by simp⟩

end

/-! ## One token -/

section
variable {M} [DecidableEq T] [DecidableEq L] [DecidableEq V]

/-- What becomes of the state at a token that is accepted, and at one that is not. -/
theorem applySite_cases (site : T × List Mk) :
    (∃ K, M.Accepted site.2 K ∧ ((∀ m ∈ site.2, M.loopsOf m = []) → K = 0) ∧
      ∀ st, M.applySite st site = { st with
        code := (M.plansOf site.2).foldl (M.applyPlan K) st.code
        siteFactors := Function.update st.siteFactors site.1 K }) ∨
    (∀ K, ¬M.Accepted site.2 K) ∧ ∀ st, M.applySite st site = { st with
        siteFactors := Function.update st.siteFactors site.1 1 } := by
  cases hcollect : M.collectMarkers (0, []) site.2 with
  | some acc =>
    obtain ⟨K, plans⟩ := acc
    obtain ⟨hacc, hkeep, rfl⟩ := collectMarkers_iff.mp hcollect
    refine .inl ⟨K, hacc, fun h => hkeep (.inl h), fun st => ?_⟩
    simp [applySite, hcollect]
  | none =>
    refine .inr ⟨fun K hacc => ?_, fun st => by simp [applySite, hcollect]⟩
    -- without loops any batch is accepted, and the collection ends with zero
    by_cases hnone : ∀ m ∈ site.2, M.loopsOf m = []
    · have hacc₀ : M.Accepted site.2 0 :=
        { hacc with batch_eq := fun m hm l hl => by simp [hnone m hm] at hl }
      rw [collectMarkers_iff.mpr ⟨hacc₀, fun _ => rfl, rfl⟩] at hcollect
      cases hcollect
    · have hkeep : (∀ m ∈ site.2, M.loopsOf m = []) ∨ (0 : UInt32) ≠ 0 → K = 0 := by
        simp [hnone]
      rw [collectMarkers_iff.mpr ⟨hacc, hkeep, rfl⟩] at hcollect
      cases hcollect

theorem applySite_calls (st : State Mk Q T L M.width) (site : T × List Mk) :
    (M.applySite st site).calls = st.calls := by
  rcases applySite_cases (M := M) site with ⟨K, -, -, happly⟩ | ⟨-, happly⟩ <;> rw [happly]

theorem applySite_code_frame {site : T × List Mk} {l : L} (h : ∀ m ∈ site.2, l ∉ M.loopsOf m)
    (st : State Mk Q T L M.width) : (M.applySite st site).code l = st.code l := by
  rcases applySite_cases (M := M) site with ⟨K, -, -, happly⟩ | ⟨-, happly⟩
  · rw [happly]
    refine foldl_frame (· l) (fun p hp code => ?_) st.code
    obtain ⟨m, hm, l', hl', hp⟩ := mem_plansOf.mp hp
    apply Function.update_of_ne
    rw [planOf_loop hp]
    rintro rfl
    exact h m hm hl'
  · rw [happly]

/-- A loop of one marker gets the code of its plan. -/
theorem applySite_code {site : T × List Mk} {K : UInt32} (hacc : M.Accepted site.2 K) {m : Mk}
    (hm : m ∈ site.2) {l : L} (hl : l ∈ M.loopsOf m)
    (honly : ∀ m' ∈ site.2, l ∈ M.loopsOf m' → m' = m) :
    ∃ p, M.planOf m l = some p ∧ ∀ st, (M.applySite st site).code l = M.planCode K p := by
  rcases applySite_cases (M := M) site with ⟨K', hacc', -, happly⟩ | ⟨hnot, -⟩
  · have hK : K' = K := by rw [← hacc.batch_eq m hm l hl, hacc'.batch_eq m hm l hl]
    subst hK
    obtain ⟨proto, hproto⟩ := Option.isSome_iff_exists.mp (hacc.matched m hm l hl)
    have hplan : M.planOf m l = some ⟨l, proto, M.probeInfo m l⟩ := by simp [planOf, hproto]
    refine ⟨_, hplan, fun st => ?_⟩
    rw [happly]
    refine foldl_overwrite (· l) (fun p hp code => ?_) ?_ st.code
    · obtain ⟨m', hm', l', hl', hp⟩ := mem_plansOf.mp hp
      by_cases he : l' = l
      · subst he
        rw [honly m' hm' hl', hplan] at hp
        cases hp
        exact .inl (Function.update_self ..)
      · refine .inr (Function.update_of_ne ?_ ..)
        rw [planOf_loop hp]
        exact Ne.symm he
    · exact ⟨_, mem_plansOf.mpr ⟨m, hm, l, hl, hplan⟩, fun code => Function.update_self ..⟩
  · exact absurd hacc (hnot K)

end

/-! ## Calls that are erased -/

section
variable {M}

theorem mem_factorCalls {q : Q} {calls : List (Call Mk Q)} :
    q ∈ factorCalls calls ↔ .query q ∈ calls := by
  induction calls with
  | nil => simp [factorCalls]
  | cons c calls ih => cases c <;> simp [factorCalls, ih]

variable [DecidableEq Mk] [DecidableEq Q]

@[simp] theorem eraseMarkers_code (markers : List Mk) (st : State Mk Q T L M.width) :
    (markers.foldl M.eraseMarker st).code = st.code :=
  foldl_frame (f := M.eraseMarker) State.code (fun _ _ _ => rfl) st

@[simp] theorem eraseMarkers_siteFactors (markers : List Mk) (st : State Mk Q T L M.width) :
    (markers.foldl M.eraseMarker st).siteFactors = st.siteFactors :=
  foldl_frame (f := M.eraseMarker) State.siteFactors (fun _ _ _ => rfl) st

theorem mem_eraseMarkers {c : Call Mk Q} {markers : List Mk} {st : State Mk Q T L M.width} :
    c ∈ (markers.foldl M.eraseMarker st).calls ↔ c ∈ st.calls ∧ ∀ m ∈ markers, c ≠ .marker m := by
  induction markers generalizing st with
  | nil => simp
  | cons m markers ih => simp [ih, eraseMarker, and_assoc]

@[simp] theorem replaceQueries_code (qs : List Q) (st : State Mk Q T L M.width) :
    (qs.foldl M.replaceQuery st).code = st.code :=
  foldl_frame (f := M.replaceQuery) State.code (fun _ _ _ => rfl) st

@[simp] theorem replaceQueries_siteFactors (qs : List Q) (st : State Mk Q T L M.width) :
    (qs.foldl M.replaceQuery st).siteFactors = st.siteFactors :=
  foldl_frame (f := M.replaceQuery) State.siteFactors (fun _ _ _ => rfl) st

theorem mem_replaceQueries {c : Call Mk Q} {qs : List Q} {st : State Mk Q T L M.width} :
    c ∈ (qs.foldl M.replaceQuery st).calls ↔ c ∈ st.calls ∧ ∀ q ∈ qs, c ≠ .query q := by
  induction qs generalizing st with
  | nil => simp
  | cons q qs ih => simp [ih, replaceQuery, and_assoc]

theorem replaceQueries_value {q : Q} {qs : List Q} (hq : q ∈ qs) (st : State Mk Q T L M.width) :
    (qs.foldl M.replaceQuery st).value q =
      some (BitVec.ofNat (M.width q) (M.queryFactor st.siteFactors q).toNat) := by
  induction qs generalizing st with
  | nil => cases hq
  | cons q' qs ih =>
    rw [List.foldl_cons]
    by_cases hlater : q ∈ qs
    · exact ih hlater _
    · have hq' : q = q' := (List.mem_cons.mp hq).resolve_right hlater
      subst hq'
      rw [foldl_frame (f := M.replaceQuery) (fun st => st.value q)]
      · exact Function.update_self ..
      · intro x hx st
        refine Function.update_of_ne ?_ ..
        rintro rfl
        exact hlater hx

end

end Module

end Spork.Unroll.Driver
