import Mathlib.Data.Fintype.Card
import Mathlib.Data.Finset.Card
import Mathlib.Logic.Relation
import Mathlib.Tactic.Common

/-!
# The loops a marker denotes

`findMarkedLoops` walks from the block of a marker, over blocks of the marker's own loop that
hold nothing but cheap code, to the loops entered from there through their preheaders. Another
marker ends the walk. That is looked for in the blocks the walk comes to, not in the block it
starts from, and two walks may come to one block.

The walk keeps a visited set and a stack of blocks with their depths; it gives up on a loop
that is entered in another way, and beyond a depth of 8.

## Main definitions

* `Inst`, `LoopInfo`, `Func` — what the walk reads.
* `isWalkBarrier`, `findMarkedLoops` — the source.
* `Bridged`, `Entry` — the blocks a walk may come to, and the loops it may enter from them.
* `mem_findMarkedLoops` — a walk that does not give up returns exactly the loops entered from
  bridged blocks.
-/
namespace Spork.Unroll

/-- The instructions that matter to a walk. -/
inductive Inst (T : Type)
  /-- A call of `__spork_unroll_loop`, with its site token if it has one. -/
  | marker (token : Option T)
  /-- Any other call; a harmless one is an intrinsic that touches no memory. -/
  | call (harmless : Bool)
  | store (isVolatile isAtomic : Bool)
  | invoke
  | fence
  | atomicRMW
  | atomicCmpXchg
  | other
  deriving DecidableEq, Repr

/-- The loop nest. Loops are nested: a parent is less deep than its children. -/
structure LoopInfo (B L : Type) where
  getLoopFor : B → Option L
  getHeader : L → B
  getParentLoop : L → Option L
  getLoopPreheader : L → Option B
  depth : L → ℕ
  depth_parent : ∀ l p, getParentLoop l = some p → depth p < depth l

/-- A function: its blocks with their instructions, its control flow and its loop nest. -/
structure Func (B L T : Type) extends LoopInfo B L where
  insts : B → List (Inst T)
  successors : B → List B

/-- `isWalkBarrier`. -/
def isWalkBarrier {T : Type} (bb : List (Inst T)) : Bool :=
  bb.any fun
    | .marker _ => true
    | .call harmless => !harmless
    | .store isVolatile isAtomic => isVolatile || isAtomic
    | .invoke | .fence | .atomicRMW | .atomicCmpXchg => true
    | .other => false

/-- `MaxMarkerWalkDepth`. -/
def MaxMarkerWalkDepth : ℕ := 8

/-- `Visited`, `Work` with its next block first, and `Loops`. -/
structure Walk (B L : Type) where
  visited : Finset B
  work : List (B × ℕ)
  loops : List L

section
variable {B L T : Type} [Fintype B] [DecidableEq B] [DecidableEq L]

/-- `LoopInfo::contains`: a loop contains itself and what is nested in it. -/
def LoopInfo.contains (LI : LoopInfo B L) (e l : L) : Bool :=
  if l = e then true
  else
    match _h : LI.getParentLoop l with
    | none => false
    | some p => contains LI e p
termination_by LI.depth l
decreasing_by exact LI.depth_parent l p _h

omit [Fintype B] [DecidableEq B] in
theorem LoopInfo.contains_child (LI : LoopInfo B L) {e l : L}
    (h : LI.getParentLoop l = some e) : LI.contains e l = true := by
  have hself : LI.contains e e = true := by
    rw [contains]
    simp
  rw [contains]
  split
  · rfl
  · split
    · next hn => simp [h] at hn
    · next p hp =>
      rw [h, Option.some.injEq] at hp
      rw [← hp]
      exact hself

variable (f : Func B L T)

/-- The loop body of the walk: the edge from `bb`, at some depth, to `s`. Giving up has no
result. -/
def visit (enclosing : Option L) (bb : B) (depth : ℕ) (x : Walk B L) (s : B) :
    Option (Walk B L) :=
  if f.getLoopFor s ≠ enclosing then
    match f.getLoopFor s with
    | none => some x
    | some l =>
        if enclosing.any fun e => !f.contains e l then some x
        else if f.getHeader l ≠ s ∨ f.getParentLoop l ≠ enclosing ∨
            f.getLoopPreheader l ≠ some bb then none
        else some { x with loops := if l ∈ x.loops then x.loops else x.loops ++ [l] }
  else if s ∈ x.visited then some x
  else
    let x := { x with visited := insert s x.visited }
    if isWalkBarrier (f.insts s) then some x
    else if depth + 1 > MaxMarkerWalkDepth then none
    else some { x with work := (s, depth + 1) :: x.work }

/-- The walk. -/
def walk (enclosing : Option L) : ℕ → Walk B L → Option (List L)
  | 0, _ => none
  | fuel + 1, x =>
      match x.work with
      | [] => some x.loops
      | (bb, depth) :: rest =>
          ((f.successors bb).foldlM (visit f enclosing bb depth) { x with work := rest }).bind
            (walk enclosing fuel)

/-- `findMarkedLoops`, from the block of the marker. -/
def findMarkedLoops (start : B) : Option (List L) :=
  (walk f (f.getLoopFor start) (Fintype.card B + 1) ⟨{start}, [(start, 0)], []⟩).bind fun loops =>
    if loops.isEmpty then none else some loops

/-! ## What the walk may come to -/

/-- An edge to a block of the same loop that is no barrier. -/
def BridgeEdge (start b s : B) : Prop :=
  s ∈ f.successors b ∧ f.getLoopFor s = f.getLoopFor start ∧ isWalkBarrier (f.insts s) = false

/-- Reached from the block of a marker over such edges. -/
def Bridged (start : B) : B → Prop := Relation.ReflTransGen (BridgeEdge f start) start

variable {f} in
omit [Fintype B] [DecidableEq B] [DecidableEq L] in
/-- A bridge does not leave the loop of the marker. -/
theorem Bridged.getLoopFor {start b : B} (h : Bridged f start b) :
    f.getLoopFor b = f.getLoopFor start := by
  induction h with
  | refl => rfl
  | tail _ hedge _ => exact hedge.2.1

/-- A loop of the next level is entered from `b`, its preheader. -/
structure Entry (start b : B) (l : L) : Prop where
  header : f.getHeader l ∈ f.successors b
  loop : f.getLoopFor (f.getHeader l) = some l
  parent : f.getParentLoop l = f.getLoopFor start
  preheader : f.getLoopPreheader l = some b

/-! ## Termination -/

/-- Blocks that may still be popped. -/
def Walk.measure (x : Walk B L) : ℕ := x.visitedᶜ.card + x.work.length

variable {f} {enclosing : Option L} {bb : B} {depth : ℕ} {x y : Walk B L} {s : B}

theorem visit_measure (h : visit f enclosing bb depth x s = some y) : y.measure ≤ x.measure := by
  have hle : (insert s x.visited)ᶜ.card ≤ x.visitedᶜ.card := by
    apply Finset.card_le_card
    exact Finset.compl_subset_compl.mpr (Finset.subset_insert _ _)
  rw [visit] at h
  split at h
  · split at h
    · cases h; rfl
    · split at h
      · cases h; rfl
      · split at h
        · cases h
        · cases h; rfl
  · split at h
    · cases h; rfl
    · next hs =>
      have hlt : (insert s x.visited)ᶜ.card < x.visitedᶜ.card := by
        apply Finset.card_lt_card
        exact Finset.compl_ssubset_compl.mpr (Finset.ssubset_insert hs)
      simp only at h
      split at h
      · cases h
        simp only [Walk.measure]
        omega
      · split at h
        · cases h
        · cases h
          simp only [Walk.measure, List.length_cons]
          omega

theorem visits_measure {ss : List B} (h : ss.foldlM (visit f enclosing bb depth) x = some y) :
    y.measure ≤ x.measure := by
  induction ss generalizing x with
  | nil => cases h; rfl
  | cons s ss ih =>
    obtain ⟨x₁, h₁, h₂⟩ := Option.bind_eq_some_iff.mp h
    exact (ih h₂).trans (visit_measure h₁)

/-- The fuel of a walk is enough: more changes nothing. -/
theorem walk_fuel {fuel fuel' : ℕ} (h : x.measure < fuel) (h' : x.measure < fuel') :
    walk f enclosing fuel x = walk f enclosing fuel' x := by
  induction fuel generalizing fuel' x with
  | zero => omega
  | succ fuel ih =>
    obtain ⟨n, rfl⟩ : ∃ n, fuel' = n + 1 := ⟨fuel' - 1, by omega⟩
    unfold walk
    cases hw : x.work with
    | nil => rfl
    | cons p rest =>
      simp only
      apply Option.bind_congr
      intro y hy
      have hle := visits_measure hy
      have hpop : Walk.measure { x with work := rest } + 1 = x.measure := by
        simp only [Walk.measure, hw, List.length_cons]
        omega
      exact ih (by omega) (by omega)

omit [DecidableEq L] in
/-- No more blocks are popped than there are. -/
theorem Walk.measure_start (start : B) :
    Walk.measure (L := L) ⟨{start}, [(start, 0)], []⟩ ≤ Fintype.card B := by
  have hcard : ({start} : Finset B)ᶜ.card = Fintype.card B - 1 := by
    rw [Finset.card_compl, Finset.card_singleton]
  have hpos : 0 < Fintype.card B := Fintype.card_pos_iff.mpr ⟨start⟩
  simp only [Walk.measure, hcard, List.length_singleton]
  omega

/-- So the fuel of `findMarkedLoops` does not show. -/
theorem findMarkedLoops_fuel (start : B) {fuel : ℕ} (h : Fintype.card B < fuel) :
    findMarkedLoops f start =
      (walk f (f.getLoopFor start) fuel ⟨{start}, [(start, 0)], []⟩).bind fun loops =>
        if loops.isEmpty then none else some loops := by
  have hmeasure := Walk.measure_start (L := L) start
  rw [findMarkedLoops, walk_fuel (by omega) (by omega : _ < fuel)]

/-! ## What the walk finds -/

/-- An edge out of a popped block has been looked at. -/
structure Handled (f : Func B L T) (start bb : B) (x : Walk B L) (s : B) : Prop where
  visited : f.getLoopFor s = f.getLoopFor start → s ∈ x.visited
  loops : ∀ l, Entry f start bb l → f.getHeader l = s → l ∈ x.loops

/-- An edge out of `bb` enters no loop inside the enclosing one but by its preheader. -/
def Canonical (f : Func B L T) (enclosing : Option L) (bb s : B) : Prop :=
  ∀ l, f.getLoopFor s = some l → f.getLoopFor s ≠ enclosing →
    (∀ e, enclosing = some e → f.contains e l = true) →
    f.getHeader l = s ∧ f.getParentLoop l = enclosing ∧ f.getLoopPreheader l = some bb

/-- The invariant of the walk, after the blocks `done` have been popped. -/
structure WalkOk (f : Func B L T) (start : B) (done : List B) (x : Walk B L) : Prop where
  done_bridged : ∀ b ∈ done, Bridged f start b
  work_bridged : ∀ p ∈ x.work, Bridged f start p.1
  start_mem : start ∈ done ∨ ∃ d, (start, d) ∈ x.work
  visited : ∀ s ∈ x.visited, isWalkBarrier (f.insts s) = false → s ∈ done ∨ ∃ d, (s, d) ∈ x.work
  loops : ∀ l ∈ x.loops, ∃ b, Bridged f start b ∧ Entry f start b l
  nodup : x.loops.Nodup

variable {start : B} {done : List B}

omit [Fintype B] in
/-- What the walk does with one edge, when it does not give up. -/
theorem visit_cases (h : visit f enclosing bb depth x s = some y) :
    (∃ l, f.getLoopFor s = some l ∧ f.getLoopFor s ≠ enclosing ∧ f.getHeader l = s ∧
      f.getParentLoop l = enclosing ∧ f.getLoopPreheader l = some bb ∧
      y = { x with loops := if l ∈ x.loops then x.loops else x.loops ++ [l] }) ∨
    (f.getLoopFor s ≠ enclosing ∧ y = x ∧ ∀ l, f.getLoopFor s = some l →
      f.getParentLoop l ≠ enclosing) ∨
    (f.getLoopFor s = enclosing ∧ s ∈ x.visited ∧ y = x) ∨
    (f.getLoopFor s = enclosing ∧ isWalkBarrier (f.insts s) = true ∧
      y = { x with visited := insert s x.visited }) ∨
    (f.getLoopFor s = enclosing ∧ isWalkBarrier (f.insts s) = false ∧
      y = { x with visited := insert s x.visited, work := (s, depth + 1) :: x.work }) := by
  rw [visit] at h
  split at h
  · next hne =>
    split at h
    · next hnone =>
      cases h
      refine .inr (.inl ⟨hne, rfl, ?_⟩)
      intro l hl
      simp [hnone] at hl
    · next l hl =>
      split at h
      · next hout =>
        cases h
        refine .inr (.inl ⟨hne, rfl, ?_⟩)
        intro l' hl' hp
        obtain rfl : l = l' := Option.some.inj (hl.symm.trans hl')
        cases enclosing with
        | none => simp at hout
        | some e =>
          have := f.toLoopInfo.contains_child hp
          simp [this] at hout
      · split at h
        · cases h
        · next hshape =>
          cases h
          simp only [not_or, not_not] at hshape
          exact .inl ⟨l, hl, hne, hshape.1, hshape.2.1, hshape.2.2, rfl⟩
  · next heq =>
    have heq : f.getLoopFor s = enclosing := not_not.mp heq
    split at h
    · next hs =>
      cases h
      exact .inr (.inr (.inl ⟨heq, hs, rfl⟩))
    · simp only at h
      split at h
      · next hbarrier =>
        cases h
        exact .inr (.inr (.inr (.inl ⟨heq, hbarrier, rfl⟩)))
      · next hbarrier =>
        split at h
        · cases h
        · cases h
          exact .inr (.inr (.inr (.inr ⟨heq, by simpa using hbarrier, rfl⟩)))

omit [Fintype B] in
/-- The walk gives up on an edge that enters a loop in another way. -/
theorem visit_canonical (h : visit f enclosing bb depth x s = some y) :
    Canonical f enclosing bb s := by
  intro l hl hne hinside
  have hin : ¬ enclosing.any (fun e => !f.contains e l) = true := by
    cases enclosing with
    | none => simp
    | some e => simp [hinside e rfl]
  rw [visit] at h
  rw [if_pos hne, hl] at h
  simp only [if_neg hin] at h
  split at h
  · cases h
  · next hshape =>
    simp only [not_or, not_not] at hshape
    exact hshape

omit [Fintype B] in
/-- Nothing found is forgotten. -/
theorem visit_mono (h : visit f enclosing bb depth x s = some y) :
    x.visited ⊆ y.visited ∧ x.loops ⊆ y.loops := by
  rcases visit_cases h with ⟨l, -, -, -, -, -, rfl⟩ | ⟨-, rfl, -⟩ | ⟨-, -, rfl⟩ | ⟨-, -, rfl⟩ |
    ⟨-, -, rfl⟩
  · refine ⟨subset_rfl, ?_⟩
    intro l' hl'
    simp only
    split
    · exact hl'
    · exact List.mem_append_left _ hl'
  · exact ⟨subset_rfl, List.Subset.refl _⟩
  · exact ⟨subset_rfl, List.Subset.refl _⟩
  · exact ⟨Finset.subset_insert _ _, List.Subset.refl _⟩
  · exact ⟨Finset.subset_insert _ _, List.Subset.refl _⟩

omit [Fintype B] [DecidableEq B] [DecidableEq L] in
theorem Handled.mono (h : Handled f start bb x s) (hv : x.visited ⊆ y.visited)
    (hl : x.loops ⊆ y.loops) : Handled f start bb y s :=
  ⟨fun hs => hv (h.visited hs), fun l he hs => hl (h.loops l he hs)⟩

omit [Fintype B] [DecidableEq B] [DecidableEq L] in
/-- A loop of the next level is not the enclosing loop. -/
theorem Entry.ne_enclosing {l : L} (h : Entry f start bb l) :
    f.getLoopFor (f.getHeader l) ≠ f.getLoopFor start := by
  intro heq
  have hp := h.parent
  rw [← heq, h.loop] at hp
  exact absurd (f.depth_parent l l hp) (lt_irrefl _)

omit [Fintype B] in
/-- An edge that the walk looks at is handled. -/
theorem visit_handled (h : visit f (f.getLoopFor start) bb depth x s = some y) :
    Handled f start bb y s := by
  rcases visit_cases h with ⟨l, hl, hne, -, -, -, rfl⟩ | ⟨hne, rfl, hout⟩ | ⟨heq, hs, rfl⟩ |
    ⟨heq, -, rfl⟩ | ⟨heq, -, rfl⟩
  · refine ⟨fun hs => absurd hs hne, ?_⟩
    rintro l' he rfl
    obtain rfl : l = l' := Option.some.inj (hl.symm.trans he.loop)
    simp only
    split
    · assumption
    · simp
  · refine ⟨fun hs => absurd hs hne, ?_⟩
    rintro l' he rfl
    exact absurd he.parent (hout l' he.loop)
  · refine ⟨fun _ => hs, ?_⟩
    rintro l' he rfl
    exact absurd heq he.ne_enclosing
  · refine ⟨fun _ => Finset.mem_insert_self _ _, ?_⟩
    rintro l' he rfl
    exact absurd heq he.ne_enclosing
  · refine ⟨fun _ => Finset.mem_insert_self _ _, ?_⟩
    rintro l' he rfl
    exact absurd heq he.ne_enclosing

omit [Fintype B] in
/-- An edge out of a bridged block keeps the invariant. -/
theorem WalkOk.visit (hok : WalkOk f start done x) (hbb : Bridged f start bb)
    (hs : s ∈ f.successors bb) (h : visit f (f.getLoopFor start) bb depth x s = some y) :
    WalkOk f start done y := by
  rcases visit_cases h with ⟨l, hl, hne, hheader, hparent, hpre, rfl⟩ | ⟨-, rfl, -⟩ |
    ⟨-, -, rfl⟩ | ⟨heq, hbarrier, rfl⟩ | ⟨heq, hbarrier, rfl⟩
  · have hentry : Entry f start bb l := by
      subst hheader
      exact ⟨hs, hl, hparent, hpre⟩
    refine ⟨hok.done_bridged, hok.work_bridged, hok.start_mem, hok.visited, ?_, ?_⟩
    · intro l' hl'
      simp only at hl'
      split at hl'
      · exact hok.loops l' hl'
      · rcases List.mem_append.mp hl' with hl' | hl'
        · exact hok.loops l' hl'
        · rw [List.mem_singleton.mp hl']
          exact ⟨bb, hbb, hentry⟩
    · simp only
      split
      · exact hok.nodup
      · next hnew =>
        refine List.nodup_append.mpr ⟨hok.nodup, List.nodup_singleton l, ?_⟩
        intro a ha b hb hab
        rw [List.mem_singleton.mp hb] at hab
        exact hnew (hab ▸ ha)
  · exact hok
  · exact hok
  · refine ⟨hok.done_bridged, hok.work_bridged, hok.start_mem, ?_, hok.loops, hok.nodup⟩
    intro t ht hno
    rcases Finset.mem_insert.mp ht with rfl | ht
    · simp [hbarrier] at hno
    · exact hok.visited t ht hno
  · have hbridge : Bridged f start s := Relation.ReflTransGen.tail hbb ⟨hs, heq, hbarrier⟩
    refine ⟨hok.done_bridged, ?_, ?_, ?_, hok.loops, hok.nodup⟩
    · intro p hp
      rcases List.mem_cons.mp hp with rfl | hp
      · exact hbridge
      · exact hok.work_bridged p hp
    · rcases hok.start_mem with hdone | ⟨d, hd⟩
      · exact .inl hdone
      · exact .inr ⟨d, List.mem_cons_of_mem _ hd⟩
    · intro t ht hno
      rcases Finset.mem_insert.mp ht with rfl | ht
      · exact .inr ⟨depth + 1, List.mem_cons_self⟩
      · rcases hok.visited t ht hno with hdone | ⟨d, hd⟩
        · exact .inl hdone
        · exact .inr ⟨d, List.mem_cons_of_mem _ hd⟩

omit [Fintype B] in
/-- All edges out of a bridged block. -/
theorem WalkOk.visits (hok : WalkOk f start done x) (hbb : Bridged f start bb) {ss : List B}
    (hss : ∀ s ∈ ss, s ∈ f.successors bb)
    (h : ss.foldlM (Unroll.visit f (f.getLoopFor start) bb depth) x = some y) :
    WalkOk f start done y ∧ x.visited ⊆ y.visited ∧ x.loops ⊆ y.loops ∧
      ∀ s ∈ ss, Handled f start bb y s ∧ Canonical f (f.getLoopFor start) bb s := by
  induction ss generalizing x with
  | nil =>
    cases h
    exact ⟨hok, subset_rfl, List.Subset.refl _, by simp⟩
  | cons s ss ih =>
    obtain ⟨x₁, h₁, h₂⟩ := Option.bind_eq_some_iff.mp h
    have hok₁ := hok.visit hbb (hss s List.mem_cons_self) h₁
    obtain ⟨hv₁, hl₁⟩ := visit_mono h₁
    obtain ⟨hoky, hv₂, hl₂, hss'⟩ := ih hok₁ (fun t ht => hss t (List.mem_cons_of_mem _ ht)) h₂
    refine ⟨hoky, hv₁.trans hv₂, List.Subset.trans hl₁ hl₂, ?_⟩
    intro t ht
    rcases List.mem_cons.mp ht with rfl | ht
    · exact ⟨(visit_handled h₁).mono hv₂ hl₂, visit_canonical h₁⟩
    · exact hss' t ht

omit [Fintype B] in
/-- A walk that ends has popped a set of blocks closed under bridge edges, and handled every
edge out of them. -/
theorem WalkOk.walk (hok : WalkOk f start done x)
    (hdone : ∀ b ∈ done, ∀ s ∈ f.successors b,
      Handled f start b x s ∧ Canonical f (f.getLoopFor start) b s) {fuel : ℕ}
    {loops : List L} (h : Unroll.walk f (f.getLoopFor start) fuel x = some loops) :
    ∃ done' x', WalkOk f start done' x' ∧ x'.work = [] ∧ x'.loops = loops ∧
      ∀ b ∈ done', ∀ s ∈ f.successors b,
        Handled f start b x' s ∧ Canonical f (f.getLoopFor start) b s := by
  induction fuel generalizing done x with
  | zero => cases h
  | succ fuel ih =>
    rw [Unroll.walk] at h
    cases hw : x.work with
    | nil =>
      simp only [hw, Option.some.injEq] at h
      exact ⟨done, x, hok, hw, h, hdone⟩
    | cons p rest =>
      obtain ⟨bb, depth⟩ := p
      simp only [hw] at h
      obtain ⟨y, hy, hwalk⟩ := Option.bind_eq_some_iff.mp h
      have hbb : Bridged f start bb := hok.work_bridged (bb, depth) (hw ▸ List.mem_cons_self)
      have hpop : WalkOk f start (bb :: done) { x with work := rest } := by
        refine ⟨?_, ?_, ?_, ?_, hok.loops, hok.nodup⟩
        · intro b hb
          rcases List.mem_cons.mp hb with rfl | hb
          · exact hbb
          · exact hok.done_bridged b hb
        · intro p hp
          exact hok.work_bridged p (hw ▸ List.mem_cons_of_mem _ hp)
        · rcases hok.start_mem with hd | ⟨d, hd⟩
          · exact .inl (List.mem_cons_of_mem _ hd)
          · rw [hw] at hd
            rcases List.mem_cons.mp hd with heq | hd
            · exact .inl (by rw [(Prod.mk.inj heq).1]; exact List.mem_cons_self)
            · exact .inr ⟨d, hd⟩
        · intro t ht hno
          rcases hok.visited t ht hno with hd | ⟨d, hd⟩
          · exact .inl (List.mem_cons_of_mem _ hd)
          · rw [hw] at hd
            rcases List.mem_cons.mp hd with heq | hd
            · exact .inl (by rw [(Prod.mk.inj heq).1]; exact List.mem_cons_self)
            · exact .inr ⟨d, hd⟩
      obtain ⟨hoky, hv, hl, hnew⟩ := hpop.visits hbb (fun _ hs => hs) hy
      apply ih hoky _ hwalk
      intro b hb s hs
      rcases List.mem_cons.mp hb with rfl | hb
      · exact hnew s hs
      · exact ⟨(hdone b hb s hs).1.mono hv hl, (hdone b hb s hs).2⟩

/-- A walk that does not give up has looked at all edges out of bridged blocks. -/
theorem findMarkedLoops_handled {loops : List L} (h : findMarkedLoops f start = some loops) :
    ∃ done x, WalkOk f start done x ∧ x.loops = loops ∧ ∀ b, Bridged f start b →
      ∀ s ∈ f.successors b, Handled f start b x s ∧ Canonical f (f.getLoopFor start) b s := by
  obtain ⟨loops', hwalk, hloops⟩ := Option.bind_eq_some_iff.mp h
  have heq : loops' = loops := by
    split at hloops
    · cases hloops
    · exact Option.some.inj hloops
  subst heq
  have hinit : WalkOk f start [] ⟨{start}, [(start, 0)], []⟩ := by
    refine ⟨by simp, ?_, .inr ⟨0, by simp⟩, ?_, by simp, List.nodup_nil⟩
    · intro p hp
      rw [List.mem_singleton.mp hp]
      exact Relation.ReflTransGen.refl
    · intro t ht _
      rw [Finset.mem_singleton.mp ht]
      exact .inr ⟨0, by simp⟩
  obtain ⟨done, x, hok, hwork, hx, hhandled⟩ := hinit.walk (by simp) hwalk
  -- The popped blocks are closed under bridge edges.
  have hall : ∀ b, Bridged f start b → b ∈ done := by
    intro b hb
    induction hb with
    | refl => simpa [hwork] using hok.start_mem
    | tail _ hedge ih =>
      have hvisited := (hhandled _ ih _ hedge.1).1.visited hedge.2.1
      simpa [hwork] using hok.visited _ hvisited hedge.2.2
  exact ⟨done, x, hok, hx, fun b hb => hhandled b (hall b hb)⟩

/-- **A walk that does not give up returns the loops entered from bridged blocks**, each
once. -/
theorem mem_findMarkedLoops {loops : List L} (h : findMarkedLoops f start = some loops) :
    loops.Nodup ∧ ∀ l, l ∈ loops ↔ ∃ b, Bridged f start b ∧ Entry f start b l := by
  obtain ⟨done, x, hok, rfl, hhandled⟩ := findMarkedLoops_handled h
  refine ⟨hok.nodup, fun l => ⟨hok.loops l, ?_⟩⟩
  intro ⟨b, hb, hentry⟩
  exact (hhandled b hb _ hentry.header).1.loops l hentry rfl

/-- It has entered loops by their preheaders only. -/
theorem findMarkedLoops_canonical {loops : List L} (h : findMarkedLoops f start = some loops)
    {b : B} (hb : Bridged f start b) (hs : s ∈ f.successors b) :
    Canonical f (f.getLoopFor start) b s := by
  obtain ⟨done, x, -, -, hhandled⟩ := findMarkedLoops_handled h
  exact (hhandled b hb s hs).2

end

end Spork.Unroll
