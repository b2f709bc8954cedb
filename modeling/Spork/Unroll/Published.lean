import Spork.Unroll.Driver

/-!
# What a published factor promises

The factor of a token is a bound on what its loops do between a bound load and the next progress
store, unless an `unsigned` has lost part of a step, or the type of a query part of the batch.

## Main definitions

* `factor` — the factor that is published for a token.
* `Published` — what it promises.
* `Fits` — no step and no constant is truncated.
* `run_token` — a token is batched as a whole, or left as a whole.
* `published_iff`.
-/
namespace Spork.Unroll.Driver

namespace Module

variable {Mk Q T L V : Type} (M : Module Mk Q T L V)

/-- The markers of a token, in the module. -/
def markers [DecidableEq T] (t : T) : List Mk := M.markersOf t M.calls

/-- No loop is reached from two markers. -/
def LoopsApart : Prop :=
  ∀ m₁ m₂ l, .marker m₁ ∈ M.calls → .marker m₂ ∈ M.calls → l ∈ M.loopsOf m₁ → l ∈ M.loopsOf m₂ →
    m₁ = m₂

variable [DecidableEq Mk] [DecidableEq Q] [DecidableEq T] [DecidableEq L] [DecidableEq V]

/-- The factor that is published for a token. -/
def factor (t : T) : ℕ := if M.run.siteFactors t ≠ 0 then (M.run.siteFactors t).toNat else 1

/-- A token with the factor `F`. -/
structure PublishedAt (t : T) (F : ℕ) : Prop where
  /-- The constant in the place of a query. -/
  substituted : ∀ q, .query q ∈ M.calls → M.getSiteToken (.query q) = some t →
    ∃ c, M.run.value q = some c ∧ c.toNat = F
  /-- No loop does more than `F` iterations between a bound load and the next progress store. -/
  iterations_le : ∀ m ∈ M.markers t, ∀ l ∈ M.loopsOf m, ∀ n ∈ (M.run.code l).iterations, n ≤ F
  rewritten : 2 ≤ F → ∀ m ∈ M.markers t, ∀ l ∈ M.loopsOf m,
    M.run.code l ≠ .original ∧ (M.batchOf m l).toNat = F
  rejected : (∀ K, ¬M.Accepted (M.markers t) K) →
    F = 1 ∧ ∀ m ∈ M.markers t, ∀ l ∈ M.loopsOf m, M.run.code l = .original
  steps_le : ∀ m ∈ M.markers t, ∀ l ∈ M.loopsOf m, ∀ steps, M.run.code l = .transplanted steps →
    ∃ p, M.buildProbe m l = some p ∧ ∀ s ∈ steps, s.step ≤ measureProbe p

/-- Every token has its factor, and no marker and no query is left. -/
structure Published : Prop where
  factors : ∀ t, M.PublishedAt t (M.factor t)
  calls_eq : ∀ c ∈ M.run.calls, c = .other

/-- Nothing is truncated for a token that is accepted. -/
structure Fits : Prop where
  /-- A constant step of a probe that is transplanted fits an `unsigned`. -/
  shortSteps : ∀ t K, M.Accepted (M.markers t) K → ∀ m ∈ M.markers t, ∀ l ∈ M.loopsOf m,
    M.SporkForceBatch = 0 → ∀ proto p, M.matchLoopProtocol m l = some proto →
      M.buildProbe m l = some p → (transplantProbe proto.indexWidth p).isSome → ShortSteps p
  /-- A batch fits the type of a query. -/
  width : ∀ t K, M.Accepted (M.markers t) K → ∀ m ∈ M.markers t, ∀ l ∈ M.loopsOf m,
    ∀ q, .query q ∈ M.calls → M.getSiteToken (.query q) = some t →
      (M.batchOf m l).toNat < 2 ^ M.width q

section
variable {M}

/-! ## The state after the pass -/

omit [DecidableEq Mk] [DecidableEq Q] [DecidableEq L] [DecidableEq V] in
theorem grouped : M.Grouped M.calls (M.groupMarkers ([], []) M.calls) :=
  groupMarkers_grouped M.calls grouped_init

@[simp] theorem run_code : M.run.code = M.runMarkers.code := by simp [run]

@[simp] theorem run_siteFactors : M.run.siteFactors = M.runMarkers.siteFactors := by simp [run]

theorem mem_runSites {c : Call Mk Q} {sites : List (T × List Mk)} {st : State Mk Q T L M.width} :
    c ∈ (sites.foldl M.runSite st).calls ↔
      c ∈ st.calls ∧ ∀ site ∈ sites, ∀ m ∈ site.2, c ≠ .marker m := by
  induction sites generalizing st with
  | nil => simp
  | cons site sites ih =>
    rw [List.foldl_cons, ih, runSite, mem_eraseMarkers, applySite_calls, List.forall_mem_cons,
      and_assoc]

/-- The markers are all erased. -/
theorem mem_runMarkers {c : Call Mk Q} :
    c ∈ M.runMarkers.calls ↔ c ∈ M.calls ∧ ∀ m, c ≠ .marker m := by
  have hgrouped := grouped (M := M)
  rw [runMarkers]
  simp only [mem_eraseMarkers, mem_runSites, init]
  constructor
  · rintro ⟨⟨hc, hsites⟩, huntokened⟩
    refine ⟨hc, ?_⟩
    rintro m rfl
    cases ht : M.getSiteToken (.marker m) with
    | none => exact huntokened m ((hgrouped.untokened m).mpr ⟨hc, ht⟩) rfl
    | some t =>
      have hm := mem_markersOf.mpr ⟨hc, ht⟩
      obtain ⟨⟨t', ms⟩, hsite, rfl⟩ := List.mem_map.mp (hgrouped.mem_keys m t hm)
      have hms := hgrouped.markers_eq _ _ hsite
      exact hsites _ hsite m (hms ▸ hm) rfl
  · intro ⟨hc, hnot⟩
    exact ⟨⟨hc, fun _ _ m _ => hnot m⟩, fun m _ => hnot m⟩

theorem run_calls {c : Call Mk Q} (hc : c ∈ M.run.calls) : c = .other := by
  rw [run, mem_replaceQueries, mem_runMarkers] at hc
  obtain ⟨⟨hcall, hmarker⟩, hquery⟩ := hc
  cases c with
  | marker m => exact absurd rfl (hmarker m)
  | query q =>
    have hq : q ∈ factorCalls M.runMarkers.calls :=
      mem_factorCalls.mpr (mem_runMarkers.mpr ⟨hcall, hmarker⟩)
    exact absurd rfl (hquery q hq)
  | other => rfl

/-- A query becomes the factor of its token, in its own type. -/
theorem run_value {q : Q} {t : T} (hq : .query q ∈ M.calls)
    (ht : M.getSiteToken (.query q) = some t) :
    M.run.value q = some (BitVec.ofNat (M.width q) (M.factor t)) := by
  have hmem : q ∈ factorCalls M.runMarkers.calls :=
    mem_factorCalls.mpr (mem_runMarkers.mpr ⟨hq, by simp⟩)
  rw [run, replaceQueries_value hmem, queryFactor, ht]
  simp only [factor, run_siteFactors]
  split <;> rfl

variable (M) in
/-- `Sites`. -/
def sites : List (T × List Mk) := (M.groupMarkers ([], []) M.calls).1

theorem runMarkers_code : M.runMarkers.code = (M.sites.foldl M.runSite M.init).code := by
  simp [runMarkers, sites]

theorem runMarkers_siteFactors :
    M.runMarkers.siteFactors = (M.sites.foldl M.runSite M.init).siteFactors := by
  simp [runMarkers, sites]

theorem runSite_code (st : State Mk Q T L M.width) (site : T × List Mk) :
    (M.runSite st site).code = (M.applySite st site).code := by simp [runSite]

theorem runSite_siteFactors (st : State Mk Q T L M.width) (site : T × List Mk) :
    (M.runSite st site).siteFactors = (M.applySite st site).siteFactors := by simp [runSite]

omit [DecidableEq Mk] [DecidableEq Q] [DecidableEq L] [DecidableEq V] in
theorem eq_of_mem_sites {site : T × List Mk} (h : site ∈ M.sites) :
    site = (site.1, M.markers site.1) := by
  rw [← show site.2 = M.markers site.1 from grouped.markers_eq _ _ h]

omit [DecidableEq Mk] [DecidableEq Q] [DecidableEq L] [DecidableEq V] in
theorem mem_sites_of_mem {t : T} {m : Mk} (h : m ∈ M.markers t) : (t, M.markers t) ∈ M.sites := by
  obtain ⟨site, hsite, rfl⟩ := List.mem_map.mp (grouped.mem_keys m t h)
  rw [← eq_of_mem_sites hsite]
  exact hsite

/-- Other tokens do not touch the loops of a marker. -/
theorem runSite_code_of_ne (hapart : M.LoopsApart) {t : T} {m : Mk} (hm : m ∈ M.markers t) {l : L}
    (hl : l ∈ M.loopsOf m) {site : T × List Mk} (hsite : site ∈ M.sites) (hne : site.1 ≠ t)
    (st : State Mk Q T L M.width) : (M.runSite st site).code l = st.code l := by
  rw [runSite_code]
  apply applySite_code_frame
  intro m' hm' hl'
  rw [eq_of_mem_sites hsite] at hm'
  obtain ⟨hcall, ht⟩ := mem_markersOf.mp hm
  obtain ⟨hcall', ht'⟩ := mem_markersOf.mp hm'
  rw [hapart m' m l hcall' hcall hl' hl, ht] at ht'
  exact hne (Option.some.inj ht').symm

/-- A loop has the code that its own token gives it. -/
theorem run_code_eq (hapart : M.LoopsApart) {t : T} {m : Mk} (hm : m ∈ M.markers t) {l : L}
    (hl : l ∈ M.loopsOf m) {c : LoopCode}
    (h : ∀ st, (M.applySite st (t, M.markers t)).code l = c) : M.run.code l = c := by
  rw [run_code, runMarkers_code]
  refine foldl_overwrite (f := M.runSite) (fun st => st.code l) (fun site hsite st => ?_)
    ⟨_, mem_sites_of_mem hm, fun st => ?_⟩ M.init
  · by_cases ht : site.1 = t
    · rw [eq_of_mem_sites hsite, ht, runSite_code]
      exact .inl (h st)
    · exact .inr (runSite_code_of_ne hapart hm hl hsite ht st)
  · rw [runSite_code]
    exact h st

/-- A loop that its own token leaves is left. -/
theorem run_code_original (hapart : M.LoopsApart) {t : T} {m : Mk} (hm : m ∈ M.markers t) {l : L}
    (hl : l ∈ M.loopsOf m) (h : ∀ st, (M.applySite st (t, M.markers t)).code l = st.code l) :
    M.run.code l = .original := by
  rw [run_code, runMarkers_code]
  refine foldl_frame (f := M.runSite) (fun st => st.code l) (fun site hsite st => ?_) M.init
  by_cases ht : site.1 = t
  · rw [eq_of_mem_sites hsite, ht, runSite_code]
    exact h st
  · exact runSite_code_of_ne hapart hm hl hsite ht st

theorem runSite_siteFactors_of_ne {t : T} {site : T × List Mk} (hne : site.1 ≠ t)
    (st : State Mk Q T L M.width) : (M.runSite st site).siteFactors t = st.siteFactors t := by
  rw [runSite_siteFactors]
  rcases applySite_cases (M := M) site with ⟨K, -, -, happly⟩ | ⟨-, happly⟩
  · rw [happly]
    exact Function.update_of_ne (Ne.symm hne) ..
  · rw [happly]
    exact Function.update_of_ne (Ne.symm hne) ..

/-- A token has the factor that it leaves. -/
theorem run_siteFactors_eq {t : T} (ht : (t, M.markers t) ∈ M.sites) {F : UInt32}
    (h : ∀ st, (M.applySite st (t, M.markers t)).siteFactors t = F) :
    M.run.siteFactors t = F := by
  rw [run_siteFactors, runMarkers_siteFactors]
  refine foldl_overwrite (f := M.runSite) (fun st => st.siteFactors t) (fun site hsite st => ?_)
    ⟨_, ht, fun st => ?_⟩ M.init
  · by_cases he : site.1 = t
    · rw [eq_of_mem_sites hsite, he, runSite_siteFactors]
      exact .inl (h st)
    · exact .inr (runSite_siteFactors_of_ne he st)
  · rw [runSite_siteFactors]
    exact h st

/-- A token is batched as a whole, or left as a whole. -/
theorem run_token (hapart : M.LoopsApart) (t : T) :
    (∃ K, M.Accepted (M.markers t) K ∧ (∃ m ∈ M.markers t, ∃ l, l ∈ M.loopsOf m) ∧
      M.factor t = K.toNat ∧ ∀ m ∈ M.markers t, ∀ l ∈ M.loopsOf m,
        ∃ p, M.planOf m l = some p ∧ M.run.code l = M.planCode K p) ∨
    M.factor t = 1 ∧ (∀ m ∈ M.markers t, ∀ l ∈ M.loopsOf m, M.run.code l = .original) ∧
      ∀ K, M.Accepted (M.markers t) K → ∀ m ∈ M.markers t, M.loopsOf m = [] := by
  by_cases hsite : (t, M.markers t) ∈ M.sites
  · rcases applySite_cases (M := M) (t, M.markers t) with ⟨K, hacc, hzero, happly⟩ | ⟨hnot, happly⟩
    · have hfactor : M.run.siteFactors t = K := by
        refine run_siteFactors_eq hsite fun st => ?_
        rw [happly]
        exact Function.update_self ..
      by_cases hnone : ∀ m ∈ M.markers t, M.loopsOf m = []
      · refine .inr ⟨?_, fun m hm l hl => ?_, fun _ _ => hnone⟩
        · simp [factor, hfactor, hzero hnone]
        · simp [hnone m hm] at hl
      · simp only [not_forall, List.eq_nil_iff_forall_not_mem, not_not] at hnone
        obtain ⟨m, hm, l, hl⟩ := hnone
        have htwo := hacc.two_le m hm l hl
        rw [hacc.batch_eq m hm l hl] at htwo
        refine .inl ⟨K, hacc, ⟨m, hm, l, hl⟩, ?_, fun m hm l hl => ?_⟩
        · have hne : K ≠ 0 := by
            rintro rfl
            exact absurd htwo (by decide)
          simp [factor, hfactor, hne]
        · obtain ⟨p, hp, hcode⟩ := applySite_code hacc hm hl fun m' hm' hl' =>
            hapart m' m l (mem_markersOf.mp hm').1 (mem_markersOf.mp hm).1 hl' hl
          exact ⟨p, hp, run_code_eq hapart hm hl hcode⟩
    · have hfactor : M.run.siteFactors t = 1 := by
        refine run_siteFactors_eq hsite fun st => ?_
        rw [happly]
        exact Function.update_self ..
      refine .inr ⟨by simp [factor, hfactor], fun m hm l hl => ?_, ?_⟩
      · refine run_code_original hapart hm hl fun st => ?_
        rw [happly]
      · exact fun K hacc => absurd hacc (hnot K)
  · have hnone : M.markers t = [] := by
      rw [List.eq_nil_iff_forall_not_mem]
      exact fun m hm => hsite (mem_sites_of_mem hm)
    have hfactor : M.run.siteFactors t = 0 := by
      rw [run_siteFactors, runMarkers_siteFactors]
      refine foldl_frame (f := M.runSite) (fun st => st.siteFactors t) (fun site hmem st => ?_)
        M.init
      apply runSite_siteFactors_of_ne
      rintro rfl
      rw [eq_of_mem_sites hmem] at hmem
      exact hsite hmem
    exact .inr ⟨by simp [factor, hfactor], by simp [hnone], by simp [hnone]⟩

omit [DecidableEq Mk] [DecidableEq Q] [DecidableEq T] [DecidableEq L] [DecidableEq V] in
/-- A planned loop is transplanted, or batched where that fails. -/
theorem planCode_cases {m : Mk} {l : L} {p : Plan L V} (h : M.planOf m l = some p) (K : UInt32) :
    (∃ proto probe steps, M.matchLoopProtocol m l = some proto ∧ M.SporkForceBatch = 0 ∧
      M.buildProbe m l = some probe ∧ transplantProbe proto.indexWidth probe = some steps ∧
        M.planCode K p = .transplanted steps) ∨
    (∀ proto probe, M.matchLoopProtocol m l = some proto → M.SporkForceBatch = 0 →
      M.buildProbe m l = some probe → transplantProbe proto.indexWidth probe = none) ∧
        M.planCode K p = .batched K := by
  obtain ⟨proto, hproto, rfl⟩ := Option.map_eq_some_iff.mp h
  by_cases hforce : M.SporkForceBatch = 0
  · cases hbuild : M.buildProbe m l with
    | none =>
      refine .inr ⟨by simp, ?_⟩
      simp [planCode, probeInfo, hforce, hbuild]
    | some probe =>
      cases htrans : transplantProbe proto.indexWidth probe with
      | none =>
        refine .inr ⟨?_, by simp [planCode, probeInfo, hforce, hbuild, htrans]⟩
        rintro proto' probe' hproto' - hbuild'
        rw [hproto] at hproto'
        cases hproto'
        cases hbuild'
        exact htrans
      | some steps =>
        refine .inl ⟨proto, probe, steps, hproto, hforce, rfl, htrans, ?_⟩
        simp [planCode, probeInfo, hforce, hbuild, htrans]
  · refine .inr ⟨fun _ _ _ h0 => absurd h0 hforce, ?_⟩
    simp [planCode, hforce]

omit [DecidableEq Mk] [DecidableEq Q] [DecidableEq T] [DecidableEq L] [DecidableEq V] in
/-- An accepted batch that was measured is not one that was too large. -/
theorem batchOf_eq_measureProbe {m : Mk} {l : L} {probe : Probe} (hforce : M.SporkForceBatch = 0)
    (hbuild : M.buildProbe m l = some probe) (htwo : 2 ≤ M.batchOf m l) :
    M.batchOf m l = measureProbe probe := by
  have hbatch : M.batchOf m l =
      if measureProbe probe > M.SporkMaxBatch then 1 else measureProbe probe := by
    simp [batchOf, probeInfo, hforce, hbuild]
  split at hbatch
  · rw [hbatch] at htwo
    exact absurd htwo (by decide)
  · exact hbatch

theorem value_eq {q : Q} {t : T} (hq : .query q ∈ M.calls)
    (ht : M.getSiteToken (.query q) = some t) (hlt : M.factor t < 2 ^ M.width q) :
    ∃ c, M.run.value q = some c ∧ c.toNat = M.factor t := by
  refine ⟨_, run_value hq ht, ?_⟩
  rw [BitVec.toNat_ofNat, Nat.mod_eq_of_lt hlt]

/-- A token that is left has the factor 1. -/
theorem publishedAt_left {t : T} (hfactor : M.factor t = 1)
    (hcode : ∀ m ∈ M.markers t, ∀ l ∈ M.loopsOf m, M.run.code l = .original) :
    M.PublishedAt t (M.factor t) := by
  constructor
  · intro q hq ht
    apply value_eq hq ht
    rw [hfactor]
    exact Nat.one_lt_two_pow (M.width_pos q).ne'
  · intro m hm l hl n hn
    rw [hcode m hm l hl, LoopCode.iterations, List.mem_singleton] at hn
    exact (hn.trans hfactor.symm).le
  · intro hF
    omega
  · exact fun _ => ⟨hfactor, hcode⟩
  · intro m hm l hl steps hsteps
    rw [hcode m hm l hl] at hsteps
    cases hsteps

omit [DecidableEq Mk] [DecidableEq Q] [DecidableEq L] [DecidableEq V] in
/-- The steps of a transplanted loop are not truncated, and the batch was measured on its
probe. -/
theorem planCode_steps (hfits : M.Fits) {t : T} {K : UInt32} (hacc : M.Accepted (M.markers t) K)
    {m : Mk} (hm : m ∈ M.markers t) {l : L} (hl : l ∈ M.loopsOf m) {p : Plan L V}
    (hp : M.planOf m l = some p) :
    M.planCode K p = .batched K ∨
      ∃ probe steps, M.planCode K p = .transplanted steps ∧ M.buildProbe m l = some probe ∧
        measureProbe probe = K ∧ ∀ s ∈ steps, s.step.toNat = s.trip ∧ s.trip ≤ K.toNat := by
  rcases planCode_cases hp K with
    ⟨proto, probe, steps, hproto, hforce, hbuild, htrans, hcode⟩ | ⟨-, hcode⟩
  · have hshort := hfits.shortSteps t K hacc m hm l hl hforce proto probe hproto hbuild
      (Option.isSome_of_eq_some htrans)
    have hmeasure : measureProbe probe = K := by
      rw [← batchOf_eq_measureProbe hforce hbuild (hacc.two_le m hm l hl)]
      exact hacc.batch_eq m hm l hl
    have hsteps := transplantProbe_short htrans hshort
    rw [hmeasure] at hsteps
    exact .inr ⟨probe, steps, hcode, hbuild, hmeasure, hsteps⟩
  · exact .inl hcode

/-- A token that is batched has the batch of its loops. -/
theorem publishedAt_batched (hfits : M.Fits) {t : T} {K : UInt32}
    (hacc : M.Accepted (M.markers t) K) (hloop : ∃ m ∈ M.markers t, ∃ l, l ∈ M.loopsOf m)
    (hfactor : M.factor t = K.toNat)
    (hcode : ∀ m ∈ M.markers t, ∀ l ∈ M.loopsOf m,
      ∃ p, M.planOf m l = some p ∧ M.run.code l = M.planCode K p) :
    M.PublishedAt t (M.factor t) := by
  have htwo : 2 ≤ K.toNat := by
    obtain ⟨m, hm, l, hl⟩ := hloop
    have := hacc.two_le m hm l hl
    rwa [hacc.batch_eq m hm l hl] at this
  constructor
  · intro q hq ht
    apply value_eq hq ht
    obtain ⟨m, hm, l, hl⟩ := hloop
    rw [hfactor, ← hacc.batch_eq m hm l hl]
    exact hfits.width t K hacc m hm l hl q hq ht
  · intro m hm l hl n hn
    obtain ⟨p, hp, hrun⟩ := hcode m hm l hl
    rw [hrun] at hn
    rw [hfactor]
    rcases planCode_steps hfits hacc hm hl hp with hbatched | ⟨_, steps, htrans, -, -, hsteps⟩
    · simp only [hbatched, LoopCode.iterations, List.mem_cons, List.not_mem_nil, or_false] at hn
      omega
    · rw [htrans] at hn
      obtain ⟨s, hs, rfl⟩ := List.mem_map.mp hn
      exact (hsteps s hs).2
  · intro _ m hm l hl
    obtain ⟨p, hp, hrun⟩ := hcode m hm l hl
    rw [hfactor, hacc.batch_eq m hm l hl, hrun]
    refine ⟨?_, rfl⟩
    rcases planCode_steps hfits hacc hm hl hp with hbatched | ⟨_, steps, htrans, -⟩
    · simp [hbatched]
    · simp [htrans]
  · exact fun hnot => absurd hacc (hnot K)
  · intro m hm l hl steps hsteps
    obtain ⟨p, hp, hrun⟩ := hcode m hm l hl
    rw [hrun] at hsteps
    rcases planCode_steps hfits hacc hm hl hp with
      hbatched | ⟨probe, _, htrans, hbuild, hmeasure, hall⟩
    · rw [hbatched] at hsteps
      cases hsteps
    · rw [htrans] at hsteps
      cases hsteps
      refine ⟨probe, hbuild, fun s hs => ?_⟩
      obtain ⟨hstep, hle⟩ := hall s hs
      rw [UInt32.le_iff_toNat_le, hstep, hmeasure]
      exact hle

theorem fits_of_published (hapart : M.LoopsApart) (h : M.Published) : M.Fits := by
  constructor
  · intro t K hacc m hm l hl hforce proto probe hproto hbuild htrans
    rcases run_token hapart t with ⟨K', -, -, hfactor, hcode⟩ | ⟨-, -, hnone⟩
    · obtain ⟨p, hp, hrun⟩ := hcode m hm l hl
      rcases planCode_cases hp K' with
        ⟨proto', probe', steps, hproto', -, hbuild', hsteps, hp'⟩ | ⟨hfail, -⟩
      · rw [hproto] at hproto'
        rw [hbuild] at hbuild'
        cases hproto'
        cases hbuild'
        rw [shortSteps_iff hsteps]
        intro s hs
        have hle := (h.factors t).iterations_le m hm l hl s.trip
        rw [hrun, hp', hfactor] at hle
        have := hle (List.mem_map_of_mem hs)
        have := K'.toNat_lt
        omega
      · rw [hfail proto probe hproto hforce hbuild] at htrans
        cases htrans
    · rw [hnone K hacc m hm] at hl
      cases hl
  · intro t K hacc m hm l hl q hq ht
    rcases run_token hapart t with ⟨K', hacc', -, hfactor, -⟩ | ⟨-, -, hnone⟩
    · obtain ⟨c, hc, hF⟩ := (h.factors t).substituted q hq ht
      rw [hacc'.batch_eq m hm l hl, ← hfactor, ← hF]
      exact c.isLt
    · rw [hnone K hacc m hm] at hl
      cases hl

/-- **The published factor bounds every step, all or nothing for a token, exactly when nothing
is truncated.** -/
theorem published_iff (hapart : M.LoopsApart) : M.Published ↔ M.Fits := by
  constructor
  · exact fits_of_published hapart
  · intro hfits
    refine ⟨fun t => ?_, fun c => run_calls⟩
    rcases run_token hapart t with ⟨K, hacc, hloop, hfactor, hcode⟩ | ⟨hfactor, hcode, -⟩
    · exact publishedAt_batched hfits hacc hloop hfactor hcode
    · exact publishedAt_left hfactor hcode

end

/-- A marker with one loop, whose probe has a single loop with the given step, and a query. -/
def oneLoop (w : ℕ) (hw : 0 < w) (step : BitVec 64) : Module Unit Unit Unit Unit Unit where
  calls := [.marker (), .query ()]
  getSiteToken := fun _ => some ()
  width := fun _ => w
  width_pos := fun _ => hw
  hasOptNone := fun _ => false
  findMarkedLoops := fun _ => some [()]
  matchLoopProtocol := fun _ _ => some ⟨(), 64⟩
  buildProbe := fun _ _ => some ⟨true, [⟨[.addRec 64 (some step)], true⟩], true⟩
  SporkForceBatch := 0
  SporkMaxBatch := 1024

theorem oneLoop_accepted (w : ℕ) (hw : 0 < w) (step : BitVec 64) {K : UInt32} (htwo : 2 ≤ K)
    (hbatch : (oneLoop w hw step).batchOf () () = K) :
    (oneLoop w hw step).Accepted [()] K := by
  constructor
  · exact fun _ _ => rfl
  · exact fun _ _ => rfl
  · exact fun _ _ _ _ => rfl
  · exact fun _ _ _ _ _ _ => rfl
  · exact fun _ _ _ _ => hbatch ▸ htwo
  · exact fun _ _ _ _ => hbatch

/-- A vector loop of eight and the query of the handler. -/
theorem published_eight : (oneLoop 32 (by decide) 8).Published := by
  refine Iff.mpr (published_iff fun _ _ _ _ _ _ _ => rfl) ?_
  constructor
  · intro _ _ _ _ _ _ _ _ _ p _ hp _
    cases hp
    intro l hl w step hmem
    cases List.mem_singleton.mp hl
    cases List.mem_singleton.mp hmem
    decide
  · intro _ _ _ _ _ _ _ _ _ _
    exact (by decide : 8 < 2 ^ 32)

/-- A batch of 256 is zero in a query of 8 bits. A step of `2 ^ 32 + 4` is published as 4. -/
theorem published_fails_at_int8 :
    (oneLoop 8 (by decide) 256).run.value () = some 0 ∧ ¬(oneLoop 8 (by decide) 256).Published ∧
      (oneLoop 32 (by decide) 0x100000004).run.value () = some 4 ∧
        ¬(oneLoop 32 (by decide) 0x100000004).Published := by
  refine ⟨by decide, fun h => ?_, by decide, fun h => ?_⟩
  · have hfits := fits_of_published (fun _ _ _ _ _ _ _ => rfl) h
    have hacc := oneLoop_accepted 8 (by decide) 256 (by decide) rfl
    have := hfits.width () _ hacc () (by decide) () (by decide) () (by decide) rfl
    revert this
    decide
  · have hfits := fits_of_published (fun _ _ _ _ _ _ _ => rfl) h
    have hacc := oneLoop_accepted 32 (by decide) 0x100000004 (by decide) rfl
    have := hfits.shortSteps () _ hacc () (by decide) () (by decide) rfl _ _ rfl rfl rfl _
      List.mem_cons_self _ _ List.mem_cons_self
    revert this
    decide

end Module

end Spork.Unroll.Driver
