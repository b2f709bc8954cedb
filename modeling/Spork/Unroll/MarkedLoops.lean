import Mathlib.Data.Fintype.Sum
import Mathlib.Tactic.DeriveFintype
import Spork.Unroll.Markers

/-!
# A walk is exact

On every control flow graph the walk from a marker ends, by an empty stack or by giving up. If
it returns loops, they are those that the marker can enter, each once: the children of its
enclosing loop with a bridged preheader that leads to their header. No edge out of a bridged
block enters a loop inside the enclosing one in another way.

## Main definitions

* `LoopNest` — a function whose loops own their headers.
* `Walks` — the runs of the walk, without fuel.
* `Enters` — an edge into a loop.
* `findMarkedLoops_exact`.
-/
namespace Spork.Unroll

/-- A function with a loop nest in which the header of a loop is in no loop inside it. -/
structure LoopNest (B L T : Type) extends Func B L T where
  getLoopFor_header : ∀ l, getLoopFor (getHeader l) = some l

section
variable {B L T : Type} [DecidableEq B] [DecidableEq L] (f : Func B L T)

/-- The walk runs from `x` to its end, and returns loops or gives up. -/
inductive Walks (enclosing : Option L) : Walk B L → Option (List L) → Prop
  | done {x : Walk B L} (hwork : x.work = []) : Walks enclosing x (some x.loops)
  | giveUp {x : Walk B L} {bb : B} {depth : ℕ} {rest : List (B × ℕ)}
      (hwork : x.work = (bb, depth) :: rest)
      (hvisit : (f.successors bb).foldlM (visit f enclosing bb depth) { x with work := rest } =
        none) : Walks enclosing x none
  | next {x y : Walk B L} {bb : B} {depth : ℕ} {rest : List (B × ℕ)} {r : Option (List L)}
      (hwork : x.work = (bb, depth) :: rest)
      (hvisit : (f.successors bb).foldlM (visit f enclosing bb depth) { x with work := rest } =
        some y)
      (hrest : Walks enclosing y r) : Walks enclosing x r

/-- The edge from `b` to `s` enters the loop `l`. -/
def Enters (b s : B) (l : L) : Prop :=
  (∃ ls, f.getLoopFor s = some ls ∧ f.contains l ls = true) ∧
    ∀ lb, f.getLoopFor b = some lb → f.contains l lb = false

variable {f} {enclosing : Option L} {x : Walk B L}

omit [DecidableEq B] in
theorem LoopInfo.contains_iff {LI : LoopInfo B L} {e l : L} :
    LI.contains e l = true ↔ l = e ∨ ∃ p, LI.getParentLoop l = some p ∧ LI.contains e p = true := by
  rw [LoopInfo.contains]
  by_cases h : l = e
  · simp [h]
  · rw [if_neg h]
    cases hp : LI.getParentLoop l with
    | none => simp [h]
    | some p => simp [h]

omit [DecidableEq B] in
theorem LoopInfo.contains_trans {LI : LoopInfo B L} {a b c : L} (hab : LI.contains a b = true)
    (hbc : LI.contains b c = true) : LI.contains a c = true := by
  induction hn : LI.depth c using Nat.strong_induction_on generalizing c with
  | _ n ih =>
    rcases LoopInfo.contains_iff.mp hbc with rfl | ⟨p, hp, hbp⟩
    · exact hab
    · have hlt : LI.depth p < n := hn ▸ LI.depth_parent c p hp
      exact LoopInfo.contains_iff.mpr (.inr ⟨p, hp, ih _ hlt hbp rfl⟩)

/-- The walk with fuel is the walk, if the fuel is enough. -/
theorem walks_walk [Fintype B] {fuel : ℕ} (h : x.measure < fuel) :
    Walks f enclosing x (walk f enclosing fuel x) := by
  induction fuel generalizing x with
  | zero => omega
  | succ fuel ih =>
    rw [walk]
    cases hw : x.work with
    | nil => exact .done hw
    | cons p rest =>
      obtain ⟨bb, depth⟩ := p
      simp only
      cases hy : (f.successors bb).foldlM (visit f enclosing bb depth) { x with work := rest } with
      | none => exact .giveUp hw hy
      | some y =>
        have hle := visits_measure hy
        have hpop : Walk.measure { x with work := rest } + 1 = x.measure := by
          simp only [Walk.measure, hw, List.length_cons]
          omega
        exact .next hw hy (ih (by omega))

omit [DecidableEq B] in
/-- An edge that the walk accepts enters at most a child of the enclosing loop. -/
theorem Canonical.enters {bb s : B} (h : Canonical f enclosing bb s)
    (hbb : f.getLoopFor bb = enclosing) {l : L} (henters : Enters f bb s l)
    (hinside : ∀ e, enclosing = some e → f.contains e l = true) :
    f.getHeader l = s ∧ f.getParentLoop l = enclosing ∧ f.getLoopPreheader l = some bb := by
  obtain ⟨⟨ls, hls, hcontains⟩, hout⟩ := henters
  have hne : f.getLoopFor s ≠ enclosing := by
    intro heq
    have := hout ls (hbb.trans (heq.symm.trans hls))
    simp [hcontains] at this
  obtain ⟨hheader, hparent, hpre⟩ := h ls hls hne fun e he =>
    LoopInfo.contains_trans (hinside e he) hcontains
  -- what is around `ls` but not around the enclosing loop is `ls`
  have heq : ls = l := by
    rcases LoopInfo.contains_iff.mp hcontains with heq | ⟨p, hp, hlp⟩
    · exact heq
    · have := hout p (hbb.trans (hparent.symm.trans hp))
      simp [hlp] at this
  subst heq
  exact ⟨hheader, hparent, hpre⟩

end

/-- **The walk from a marker ends, and returns exactly the loops that the marker can enter**,
each once, or gives up. -/
theorem findMarkedLoops_exact {B L T : Type} [Fintype B] [DecidableEq B] [DecidableEq L]
    (f : LoopNest B L T) (start : B) :
    (∃ r, Walks f.toFunc (f.getLoopFor start) ⟨{start}, [(start, 0)], []⟩ r ∧
      findMarkedLoops f.toFunc start =
        r.bind fun loops => if loops.isEmpty then none else some loops) ∧
    ∀ loops, findMarkedLoops f.toFunc start = some loops →
      (∀ l, l ∈ loops ↔ f.getParentLoop l = f.getLoopFor start ∧
        ∃ b, Bridged f.toFunc start b ∧ f.getLoopPreheader l = some b ∧
          f.getHeader l ∈ f.successors b) ∧
      loops.Nodup ∧
      ∀ b, Bridged f.toFunc start b → ∀ s ∈ f.successors b, ∀ l, Enters f.toFunc b s l →
        (∀ e, f.getLoopFor start = some e → f.contains e l = true) →
        f.getHeader l = s ∧ f.getParentLoop l = f.getLoopFor start ∧
          f.getLoopPreheader l = some b := by
  constructor
  · have hmeasure := Walk.measure_start (L := L) start
    exact ⟨_, walks_walk (by omega), rfl⟩
  · intro loops h
    obtain ⟨hnodup, hmem⟩ := mem_findMarkedLoops h
    refine ⟨fun l => (hmem l).trans ⟨?_, ?_⟩, hnodup, ?_⟩
    · rintro ⟨b, hb, hentry⟩
      exact ⟨hentry.parent, b, hb, hentry.preheader, hentry.header⟩
    · rintro ⟨hparent, b, hb, hpre, hheader⟩
      exact ⟨b, hb, hheader, f.getLoopFor_header l, hparent, hpre⟩
    · intro b hb s hs l henters hinside
      exact (findMarkedLoops_canonical h hb hs).enters hb.getLoopFor henters hinside

/-- The blocks around the two copies of a loop that unswitching has left: the block of the marker
tests which of them runs. -/
inductive CopyBlock
  | marker
  | preheader (copy : Bool)
  | loop (copy : Bool)
  | rest
  deriving DecidableEq, Fintype, Repr

/-- The two copies of the loop. -/
def unswitched : LoopNest CopyBlock Bool ℕ where
  getLoopFor
    | .loop copy => some copy
    | _ => none
  getHeader copy := .loop copy
  getParentLoop _ := none
  getLoopPreheader copy := some (.preheader copy)
  depth _ := 0
  depth_parent := by simp
  insts
    | .marker => [.marker (some 0)]
    | _ => [.other]
  successors
    | .marker => [.preheader true, .preheader false]
    | .preheader copy => [.loop copy]
    | .loop copy => [.loop copy, .rest]
    | .rest => []
  getLoopFor_header _ := rfl

/-- Both copies are returned, the second one first. -/
theorem findMarkedLoops_exact_unswitched :
    findMarkedLoops unswitched.toFunc .marker = some [false, true] ∧
      ∀ l, l ∈ [false, true] ↔ unswitched.getParentLoop l = none ∧
        ∃ b, Bridged unswitched.toFunc .marker b ∧ unswitched.getLoopPreheader l = some b ∧
          unswitched.getHeader l ∈ unswitched.successors b := by
  have h : findMarkedLoops unswitched.toFunc .marker = some [false, true] := rfl
  exact ⟨h, ((findMarkedLoops_exact unswitched .marker).2 [false, true] h).1⟩

end Spork.Unroll
