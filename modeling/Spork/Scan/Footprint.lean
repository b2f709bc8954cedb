import Spork.Scan.Chunks
import Mathlib.Data.List.Infix

/-!
# What `scan` touches

`scan` writes the cells of its array and of the buffers that its own calls allocate. Those
are named by paths that extend its own, so the calls of one run never share one. The
branches that may run side by side (the bodies of the parallel loops, the owner and the
upsweep job, the downsweep and the last third) do not interfere.

## Main definitions

* `block`, `scope` — the cells of a range of an array, and of the buffers of a call.
* `scanFoot`, `upFoot`, `downFoot`, `tailFoot` — the footprints.
* `scan_safe` — `scan` stays within its footprint.
-/
namespace Spork.Scan

open CInt ForkJoin IntRange Parfor

/-- The cells `arr[i], …, arr[j - 1]`. -/
def block (arr : Ptr) (i j : ℤ) : Set Loc :=
  {l | l.1 = arr.buf ∧ arr.off + i ≤ l.2 ∧ l.2 < arr.off + j}

/-- The cells of the buffers allocated within a call. -/
def scope (path : List Site) : Set Loc := {l | path <:+ l.1}

/-- The buffer a note is about. -/
def Note.buf : Note → List Site
  | p_malloc b => b
  | p_free b => b

/-- The notes on the buffers allocated within a call. -/
def notesOf (path : List Site) : Set Note := {e | path <:+ e.buf}

section
variable {path : List Site} {arr : Ptr} {i j k d : ℤ} {s s' : Site} {l : Loc}

theorem cell_mem_block : arr.cell k ∈ block arr i j ↔ i ≤ k ∧ k < j := by
  constructor
  · rintro ⟨-, h₁, h₂⟩
    simp only [Ptr.cell] at h₁ h₂
    omega
  · rintro ⟨h₁, h₂⟩
    exact ⟨rfl, by simp only [Ptr.cell]; omega, by simp only [Ptr.cell]; omega⟩

theorem block_add : block (arr.add d) i j = block arr (d + i) (d + j) := by
  simp only [block, Ptr.add, add_assoc]

theorem block_mono {i' j' : ℤ} (hi : i' ≤ i) (hj : j ≤ j') : block arr i j ⊆ block arr i' j' := by
  rintro l ⟨h₁, h₂, h₃⟩
  exact ⟨h₁, by omega, by omega⟩

theorem block_disjoint {i' j' : ℤ} (h : j ≤ i' ∨ j' ≤ i) (hl : l ∈ block arr i j) :
    l ∉ block arr i' j' := by
  rintro ⟨-, h₂, h₃⟩
  obtain ⟨-, h₂', h₃'⟩ := hl
  omega

theorem block_buf_disjoint {arr' : Ptr} {i' j' : ℤ} (h : arr.buf ≠ arr'.buf)
    (hl : l ∈ block arr i j) : l ∉ block arr' i' j' := fun hl' => h (hl.1.symm.trans hl'.1)

theorem suffix_of_cons {b : List Site} (h : s :: path <:+ b) : path <:+ b :=
  (List.suffix_cons s path).trans h

theorem scope_cons : scope (s :: path) ⊆ scope path := fun _ h => suffix_of_cons h

theorem notesOf_cons : notesOf (s :: path) ⊆ notesOf path := fun _ h => suffix_of_cons h

/-- Different calls within a call allocate different buffers. -/
theorem scope_disjoint (h : s ≠ s') (hl : l ∈ scope (s :: path)) : l ∉ scope (s' :: path) := by
  intro hl'
  obtain ⟨t, ht⟩ := hl
  obtain ⟨t', ht'⟩ := hl'
  have heq : t ++ s :: path = t' ++ s' :: path := ht.trans ht'.symm
  have hlen := congrArg List.length heq
  simp only [List.length_append, List.length_cons] at hlen
  have := List.append_inj heq (by omega)
  exact h (List.cons.inj this.2).1

/-- The buffer of a call is none of those allocated further within. -/
theorem not_suffix_self (s : Site) (path : List Site) : ¬ s :: path <:+ path := by
  intro h
  have := h.length_le
  simp at this

theorem not_suffix_sibling (h : s ≠ s') : ¬ s :: path <:+ s' :: path := fun hs =>
  h (List.cons.inj (hs.eq_of_length rfl)).1

theorem not_suffix_cons {b : List Site} (h : ¬ path <:+ b) (s : Site) : ¬ s :: path <:+ b :=
  fun hs => h (suffix_of_cons hs)

/-- An array from outside the call is not among its buffers. -/
theorem block_not_scope (h : ¬ path <:+ arr.buf) (hl : l ∈ block arr i j) : l ∉ scope path := by
  intro hl'
  have hl' : path <:+ l.1 := hl'
  rw [hl.1] at hl'
  exact h hl'

end

/-- The array of `scan`, and the buffers of its calls. -/
def scanFoot (path : List Site) (arr : Ptr) (n : ℤ) : Foot Loc Note :=
  ⟨block arr 0 n ∪ scope path, ∅, notesOf path⟩

/-- The upsweep only reads the array, and does not release its buffer. -/
def upFoot (path : List Site) (arr : Ptr) (n : ℤ) : Foot Loc Note :=
  ⟨scope path, block arr 0 n, {.p_malloc path} ∪ notesOf (.call 1 :: path)⟩

/-- The downsweep reads the cell before the array and all partial sums but the last, and
releases these. -/
def downFoot (path : List Site) (partials arr : Ptr) (n : ℤ) : Foot Loc Note :=
  ⟨block arr 0 n ∪ scope path, block arr (-1) 0 ∪ block partials 0 (scan_chunks n - 1),
    notesOf path ∪ {.p_free partials.buf}⟩

/-- The last third reads the last partial sum and the cell before the middle third. -/
def tailFoot (path : List Site) (partials arr : Ptr) (t1 t2 n : ℤ) : Foot Loc Note :=
  ⟨block arr t2 n ∪ scope (.call 3 :: path),
    {partials.cell (lastPartial t1 t2), arr.cell (t1 - 1)}, notesOf (.call 3 :: path)⟩

section
variable {A : Type} [Monoid A] {o : Oracles} {K : ℤ} {path : List Site} {arr : Ptr} {n : ℤ}

/-- A call of `scan` on fewer than `N` elements of an array from outside stays within its
footprint. -/
def ScanSafe (scan : ScanCall A) (N : ℤ) : Prop :=
  ∀ path a arr n, 0 ≤ n → n < N → ¬ path <:+ arr.buf →
    Safe (scanFoot path arr n) (scan path a arr n) fun _ => True

omit [Monoid A] in
theorem parforUnit_safe (hK : 1 ≤ K) (hn : 0 ≤ n) {F : ℤ → Foot Loc Note} {body : ℤ → Code A Unit}
    (hbody : ∀ k, 0 ≤ k → k < n → Safe (F k) (body k) fun _ => True)
    (hindep : ∀ k k', 0 ≤ k → k < k' → k' < n → (F k).Indep (F k')) :
    Safe (.iUnion (span 0 n) F) (parforUnit o K path n body) fun _ => True :=
  parfor_safe _ (Arith.exact_faithfulOn 0 n) rfl hK (fun k h₁ h₂ _ => hbody k h₁ h₂) hindep _ path
    le_rfl hn le_rfl (by omega) ()

theorem parforSum_safe (hK : 1 ≤ K) {i j : ℤ} (hij : i ≤ j) :
    Safe ⟨∅, block arr i j, ∅⟩ (parforSum (A := A) o K path arr i j) fun _ => True := by
  have h := parfor_safe (S := A) (o := o.parfor) (F := fun k => ⟨∅, block arr k (k + 1), ∅⟩)
    (fun k sum => (.rd (arr.cell k) fun x => .ret (sum * x) : Code A A))
    (Arith.exact_faithfulOn i j) rfl hK
    (fun k _ _ _ => And.intro (.inr (cell_mem_block.mpr (by omega))) fun _ => trivial)
    (fun _ _ _ _ _ => ⟨fun _ h => h.elim, fun _ h => h.elim⟩) ((j - i).toNat + 1) path le_rfl hij
    le_rfl (by omega) 1
  refine h.mono (Foot.iUnion_le fun k hk => ⟨fun _ h => h.elim, fun l hl => ?_, fun _ h => h.elim⟩)
    fun _ => id
  exact .inr (block_mono hk.1 (by have := hk.2; omega) hl)

/-- Summing one chunk into its partial sum. -/
theorem upBody_safe (hK : 1 ≤ K) (hn : 1 ≤ n) {c : ℤ} (h₀ : 0 ≤ c) (h₁ : c < scan_chunks n) :
    Safe ⟨block ⟨path, 0⟩ c (c + 1), block arr 0 n, ∅⟩
      ((parforSum (A := A) o K (.body c :: path) arr (c * scan_chunksize n) (chunkEnd n c)).bind
        fun s => .wr (Ptr.cell ⟨path, 0⟩ c) s (.ret ())) fun _ => True := by
  have hstart := bound_of_lt hn h₁
  have hend := chunkEnd_eq (n := n) (c := c)
  have hlt := bound_lt_succ hn h₁
  have hpos := bound_nonneg hn h₀
  have hle := bound_le (n := n) (c := c + 1)
  refine ((parforSum_safe hK (by omega)).mono ⟨fun _ h => h.elim, fun l hl => .inr ?_,
    fun _ h => h.elim⟩ fun _ => id).bind fun s _ => ⟨?_, trivial⟩
  · exact block_mono (by omega) (by omega) hl
  · exact cell_mem_block.mpr (by omega)

theorem upsweep_safe {scan : ScanCall A} {N : ℤ} (hs : ScanSafe scan N) (hK : 1 ≤ K) (hn : 1 ≤ n)
    (hN : scan_chunks n < N) (harr : ¬ path <:+ arr.buf) :
    Safe (upFoot path arr n) (scan_upsweep o K scan path arr n)
      fun r => r = if (o.scan path).mallocNull then none else some ⟨path, 0⟩ := by
  have hscope : ∀ i j, block ⟨path, 0⟩ i j ⊆ scope path := fun i j l hl => by
    show path <:+ l.1
    rw [hl.1]
  rw [scan_upsweep]
  split
  · rfl
  · have hchunks := chunks_pos hn
    refine ⟨.inl rfl, ?_⟩
    refine Safe.bind (R := fun _ => True) ?_ fun _ _ => Safe.bind (R := fun _ => True) ?_
      fun _ _ => rfl
    · refine (parforUnit_safe hK (by omega) (fun c h₀ h₁ => upBody_safe hK hn h₀ h₁) ?_).mono
        (Foot.iUnion_le fun c _ => ⟨?_, fun l hl => .inr hl, fun _ h => h.elim⟩) fun _ => id
      · intro c c' h₀ h₁ h₂
        refine ⟨fun l hl hl' => ?_, fun l hl hl' => ?_⟩
        · rcases hl' with hl' | hl'
          · exact block_disjoint (.inl (by omega)) hl hl'
          · exact block_not_scope harr hl' (hscope _ _ hl)
        · rcases hl' with hl' | hl'
          · exact block_disjoint (.inl (by omega)) hl' hl
          · exact block_not_scope harr hl' (hscope _ _ hl)
      · exact hscope _ _
    · refine (hs _ _ _ _ (by omega) hN (not_suffix_self _ path)).mono
        ⟨?_, fun _ h => h.elim, fun _ h => .inr h⟩ fun _ => id
      rintro l (hl | hl)
      · exact hscope _ _ hl
      · exact scope_cons hl

/-- Scanning one chunk on top of the partial sum before it. -/
theorem downBody_safe {scan : ScanCall A} {N : ℤ} (hs : ScanSafe scan N) (hn : 1 ≤ n)
    (hN : n < N) (harr : ¬ path <:+ arr.buf) {partials : Ptr} {c : ℤ} (h₀ : 0 ≤ c)
    (h₁ : c < scan_chunks n) :
    Safe ⟨block arr (bound n c) (bound n (c + 1)) ∪ scope (.body c :: path),
        block arr (-1) 0 ∪ block partials 0 (scan_chunks n - 1), notesOf path⟩
      (downBody scan path partials arr n c) fun _ => True := by
  have hstart := bound_of_lt hn h₁
  have hsize := chunkSize_eq hn h₁
  have hlt := bound_lt_succ hn h₁
  have hpos := bound_nonneg hn h₀
  have hle := bound_le (n := n) (c := c + 1)
  have hprev : arr.cell (-1) ∈ block arr (-1) 0 := cell_mem_block.mpr (by omega)
  refine Safe.bind (R := fun _ => True) ?_ fun pfx _ => ?_
  · split
    · exact ⟨.inr (.inl hprev), fun _ => ⟨.inr (.inr (cell_mem_block.mpr (by omega))),
        fun _ => trivial⟩⟩
    · exact ⟨.inr (.inl hprev), fun _ => trivial⟩
  · refine (hs (.body c :: path) pfx (arr.add (c * scan_chunksize n)) (chunkSize n c) (by omega)
      (by omega) (not_suffix_cons harr _)).mono ⟨?_, fun _ h => h.elim, notesOf_cons⟩ fun _ => id
    rintro l (hl | hl)
    · rw [block_add] at hl
      exact .inl (block_mono (by omega) (by omega) hl)
    · exact .inr hl

/-- The downsweep but for the release. -/
theorem downLoop_safe {scan : ScanCall A} {N : ℤ} (hs : ScanSafe scan N) (hK : 1 ≤ K)
    (hn : 1 ≤ n) (hN : n < N) {partials : Ptr} (harr : ¬ path <:+ arr.buf)
    (hpart : ¬ path <:+ partials.buf) (hne : partials.buf ≠ arr.buf) :
    Safe ⟨block arr 0 n ∪ scope path, block arr (-1) 0 ∪ block partials 0 (scan_chunks n - 1),
        notesOf path⟩
      (parforUnit o K (.call 0 :: path) (scan_chunks n) (downBody scan path partials arr n))
      fun _ => True := by
  have hchunks := chunks_pos hn
  refine (parforUnit_safe hK (by omega) (fun c h₀ h₁ => downBody_safe hs hn hN harr h₀ h₁) ?_).mono
    (Foot.iUnion_le fun c hc => ⟨?_, fun l hl => .inr hl, fun _ h => h⟩) fun _ => id
  · intro c c' h₀ h₁ h₂
    have hmono := bound_mono hn (by omega : c + 1 ≤ c')
    have hpos := bound_nonneg hn h₀
    have hpos' := bound_nonneg hn (by omega : 0 ≤ c')
    refine ⟨fun l hl hl' => ?_, fun l hl hl' => ?_⟩
    · rcases hl with hl | hl <;> rcases hl' with (hl' | hl') | hl' | hl'
      · exact block_disjoint (.inl hmono) hl hl'
      · exact block_not_scope harr hl (scope_cons hl')
      · exact block_disjoint (.inr hpos) hl hl'
      · exact block_buf_disjoint hne hl' hl
      · exact block_not_scope harr hl' (scope_cons hl)
      · exact scope_disjoint (fun h => by injection h; omega) hl hl'
      · exact block_not_scope harr hl' (scope_cons hl)
      · exact block_not_scope hpart hl' (scope_cons hl)
    · rcases hl with hl | hl <;> rcases hl' with (hl' | hl') | hl' | hl'
      · exact block_disjoint (.inl hmono) hl' hl
      · exact block_not_scope harr hl (scope_cons hl')
      · exact block_disjoint (.inr hpos') hl hl'
      · exact block_buf_disjoint hne hl' hl
      · exact block_not_scope harr hl' (scope_cons hl)
      · exact scope_disjoint (fun h => by injection h; omega) hl hl'
      · exact block_not_scope harr hl' (scope_cons hl)
      · exact block_not_scope hpart hl' (scope_cons hl)
  · have hpos := bound_nonneg hn hc.1
    have hle := bound_le (n := n) (c := c + 1)
    rintro l (hl | hl)
    · exact .inl (block_mono hpos hle hl)
    · exact .inr (scope_cons hl)

theorem downsweep_safe {scan : ScanCall A} {N : ℤ} (hs : ScanSafe scan N) (hK : 1 ≤ K)
    (hn : 1 ≤ n) (hN : n < N) {partials : Ptr} (harr : ¬ path <:+ arr.buf)
    (hpart : ¬ path <:+ partials.buf) (hne : partials.buf ≠ arr.buf) :
    Safe (downFoot path partials arr n) (scan_downsweep o K scan path partials arr n)
      fun _ => True := by
  refine Safe.bind (R := fun _ => True) ?_ fun _ _ => ⟨.inr rfl, trivial⟩
  exact (downLoop_safe hs hK hn hN harr hpart hne).mono
    ⟨fun _ h => h, fun _ h => .inr h, fun _ h => .inl h⟩ fun _ => id

theorem upBuf_of_some {b : Bool} {up : Option Ptr} {p q : Ptr}
    (hup : up = if b then none else some q) (hp : some up = some (some p)) : p = q := by
  cases b <;> simp_all

/-! ## The parallel branches of `scan` -/

/-- The last third, once it has read the last partial sum. -/
theorem tailRest_safe {scan : ScanCall A} {N t1 t2 : ℤ} (hs : ScanSafe scan N)
    (hn : t2 ≤ n) (hN : n - t2 < N) (harr : ¬ path <:+ arr.buf) (sum12 : A) :
    Safe ⟨block arr t2 n ∪ scope (.call 3 :: path), {arr.cell (t1 - 1)},
        notesOf (.call 3 :: path)⟩
      (.rd (arr.cell (t1 - 1)) fun x =>
        scan (.call 3 :: path) (x * sum12) (arr.add t2) (n - t2)) fun _ => True := by
  refine ⟨.inr rfl, fun _ => ?_⟩
  refine (hs (.call 3 :: path) _ (arr.add t2) (n - t2) (by omega) hN
    (not_suffix_cons harr _)).mono ⟨?_, fun _ h => h.elim, fun _ h => h⟩ fun _ => id
  rintro l (hl | hl)
  · rw [block_add] at hl
    exact .inl (block_mono (by omega) (by omega) hl)
  · exact .inr hl

theorem tail_safe {scan : ScanCall A} {N t1 t2 : ℤ} (hs : ScanSafe scan N)
    (hn : t2 ≤ n) (hN : n - t2 < N) (harr : ¬ path <:+ arr.buf) {partials : Ptr} :
    Safe (tailFoot path partials arr t1 t2 n) (scanTail scan path partials arr t1 t2 n)
      fun _ => True :=
  ⟨.inr (.inl rfl), fun sum12 => (tailRest_safe hs hn hN harr sum12).mono
    ⟨fun _ h => h, fun _ h => .inr (.inr h), fun _ h => h⟩ fun _ => id⟩

/-- The downsweep and the last third do not interfere. -/
theorem par_indep {t1 t2 : ℤ} (h₁ : t1 < t2) (harr : ¬ path <:+ arr.buf) :
    (downFoot (.call 2 :: path) ⟨.call 1 :: path, 0⟩ (arr.add t1) (t2 - t1)).Indep
      (tailFoot path ⟨.call 1 :: path, 0⟩ arr t1 t2 n) := by
  have hbuf : (Ptr.mk (.call 1 :: path) 0).buf ≠ arr.buf := fun h =>
    harr (h ▸ List.suffix_cons _ _)
  have hpart : ∀ {s : Site}, s ≠ .call 1 → ∀ {l : Loc}, l ∈ scope (s :: path) →
      l.1 ≠ .call 1 :: path := fun hs l hl heq =>
    scope_disjoint hs hl (show .call 1 :: path <:+ l.1 by rw [heq])
  have hlast := lastPartial_eq t1 t2
  refine ⟨fun l hl hl' => ?_, fun l hl hl' => ?_⟩
  · rcases hl with hl | hl
    · rw [block_add] at hl
      rcases hl' with (hl' | hl') | rfl | rfl
      · exact block_disjoint (.inl (by omega)) hl hl'
      · exact block_not_scope harr hl (scope_cons hl')
      · exact hbuf hl.1
      · have := cell_mem_block.mp hl; omega
    · rcases hl' with (hl' | hl') | rfl | rfl
      · exact block_not_scope harr hl' (scope_cons hl)
      · exact scope_disjoint (by simp) hl hl'
      · exact hpart (by simp) hl rfl
      · exact harr (suffix_of_cons hl)
  · rcases hl' with (hl' | hl') | hl' | hl'
    · rw [block_add] at hl'
      rcases hl with hl | hl
      · exact block_disjoint (.inr (by omega)) hl hl'
      · exact block_not_scope harr hl' (scope_cons hl)
    · rcases hl with hl | hl
      · exact block_not_scope harr hl (scope_cons hl')
      · exact scope_disjoint (by simp) hl hl'
    · rw [block_add] at hl'
      rcases hl with hl | hl
      · exact block_disjoint (.inr (by omega)) hl hl'
      · exact block_not_scope harr hl' (scope_cons hl)
    · rcases hl with hl | hl
      · exact block_buf_disjoint hbuf hl' hl
      · exact hpart (by simp) hl hl'.1

theorem par_safe {scan : ScanCall A} {N t1 t2 : ℤ} (hs : ScanSafe scan N) (hK : 1 ≤ K)
    (h₀ : 1 ≤ t1) (h₁ : t1 < t2) (h₂ : t2 < n) (hN : n ≤ N) (harr : ¬ path <:+ arr.buf) :
    Safe (scanFoot path arr n)
      (scanPar o K scan path ⟨.call 1 :: path, 0⟩ arr t1 t2 n) fun _ => True := by
  have hdown : Safe (downFoot (.call 2 :: path) ⟨.call 1 :: path, 0⟩ (arr.add t1) (t2 - t1))
      (scan_downsweep o K scan (.call 2 :: path) ⟨.call 1 :: path, 0⟩ (arr.add t1) (t2 - t1))
      fun _ => True :=
    downsweep_safe hs hK (by omega) (by omega) (not_suffix_cons harr _)
      (not_suffix_sibling (by simp)) fun h => harr (h ▸ List.suffix_cons _ _)
  have htail : Safe (tailFoot path ⟨.call 1 :: path, 0⟩ arr t1 t2 n)
      (scanTail scan path ⟨.call 1 :: path, 0⟩ arr t1 t2 n) fun _ => True :=
    tail_safe hs h₂.le (by omega) harr
  have hpart : ∀ l : Loc, l.1 = .call 1 :: path → l ∈ scope path := fun l hl => by
    show path <:+ l.1
    rw [hl]
    exact List.suffix_cons _ _
  refine (Safe.spawn _ hdown htail ⟨?_, ?_, ?_⟩ ⟨?_, ?_, ?_⟩ (par_indep h₁ harr)).bind
    fun _ _ => trivial
  · rintro l (hl | hl)
    · rw [block_add] at hl
      exact .inl (block_mono (by omega) (by omega) hl)
    · exact .inr (scope_cons hl)
  · rintro l (hl | hl)
    · rw [block_add] at hl
      exact .inl (.inl (block_mono (by omega) (by omega) hl))
    · exact .inl (.inr (hpart l hl.1))
  · rintro e (he | rfl)
    · exact notesOf_cons he
    · exact List.suffix_cons _ _
  · rintro l (hl | hl)
    · exact .inl (block_mono (by omega) le_rfl hl)
    · exact .inr (scope_cons hl)
  · rintro l (rfl | rfl)
    · exact .inl (.inr (hpart _ rfl))
    · exact .inl (.inl (cell_mem_block.mpr (by omega)))
  · exact notesOf_cons

/-- The owner's part of a split, beside the upsweep. -/
def ownFoot (path : List Site) (arr : Ptr) (t1 : ℤ) : Foot Loc Note :=
  ⟨block arr 0 t1 ∪ scope (.call 0 :: path), ∅, notesOf (.call 0 :: path)⟩

variable (arr) in
theorem scanBodies_safe {i j : ℤ} (h₀ : 0 ≤ i) (hn : j ≤ n) (a : A) :
    Safe ⟨block arr 0 n, ∅, ∅⟩ (bodies (scanBody arr) (Int.range i j) a) fun _ => True := by
  refine (bodies_safe (F := fun k => ⟨block arr k (k + 1), ∅, ∅⟩) (fun k _ _ a => ?_)
    (le_refl i) (le_refl j) a).mono (Foot.iUnion_le fun k hk => ⟨?_, fun _ h => h.elim,
      fun _ h => h.elim⟩) fun _ => id
  · have hk : arr.cell k ∈ block arr k (k + 1) := cell_mem_block.mpr (by omega)
    exact ⟨.inl hk, fun _ => ⟨hk, trivial⟩⟩
  · have := hk.1
    have := hk.2
    exact block_mono (by omega) (by omega)

theorem firstThird_safe {scan : ScanCall A} {N x e : ℤ} (hs : ScanSafe scan N) (hx : 0 ≤ x)
    (ht : Thirds e n) (hN : n ≤ N) (harr : ¬ path <:+ arr.buf) (b : A) :
    Safe (ownFoot path arr (third1 e n)) (firstThird scan path arr n x e b) fun i => i = e := by
  have he := ht.lo
  obtain ⟨h₁, -, h₃⟩ := ht.eq
  have hfirst := ht.first
  refine Safe.bind (R := fun _ => True) ?_ fun _ _ => ⟨?_, fun v => Safe.bind (R := fun _ => True)
    ?_ fun _ _ => rfl⟩
  · exact (scanBodies_safe arr hx (by omega : e ≤ third1 e n) b).mono
      ⟨fun _ h => .inl h, fun _ h => h.elim, fun _ h => h.elim⟩ fun _ => id
  · exact .inl (.inl (cell_mem_block.mpr (by omega)))
  · refine (hs (.call 0 :: path) v (arr.add e) (third1 e n - e) (by omega) (by omega)
      (not_suffix_cons harr _)).mono ⟨?_, fun _ h => h.elim, fun _ h => h⟩ fun _ => id
    rintro l (hl | hl)
    · rw [block_add] at hl
      exact .inl (block_mono (by omega) (by omega) hl)
    · exact .inr hl

/-- The owner and the upsweep do not interfere. -/
theorem up_indep {t1 t2 : ℤ} (harr : ¬ path <:+ arr.buf) :
    (ownFoot path arr t1).Indep (upFoot (.call 1 :: path) (arr.add t1) (t2 - t1)) := by
  refine ⟨fun l hl hl' => ?_, fun l hl hl' => ?_⟩
  · rcases hl with hl | hl <;> rcases hl' with hl' | hl'
    · exact block_not_scope harr hl (scope_cons hl')
    · rw [upFoot, block_add] at hl'
      exact block_disjoint (.inl (by omega)) hl hl'
    · exact scope_disjoint (by simp) hl hl'
    · rw [upFoot, block_add] at hl'
      exact block_not_scope harr hl' (scope_cons hl)
  · rcases hl' with (hl' | hl') | hl'
    · exact block_not_scope harr hl' (scope_cons hl)
    · exact scope_disjoint (by simp) hl' hl
    · exact hl'.elim

theorem afterSync_safe {scan : ScanCall A} {N e : ℤ} (hs : ScanSafe scan N) (hK : 1 ≤ K)
    (ht : Thirds e n) (hN : n ≤ N) (harr : ¬ path <:+ arr.buf) {up : Option (Option Ptr)}
    (hup : ∀ p, up = some (some p) → p = ⟨.call 1 :: path, 0⟩) :
    Safe (scanFoot path arr n) (afterSync o K scan path arr e n up) fun _ => True := by
  have he := ht.lo
  have hfirst := ht.first
  have hmid := ht.middle
  have hlast := ht.last
  unfold afterSync
  split
  · next p =>
    rw [hup p rfl]
    exact par_safe hs hK (by omega) hmid hlast hN harr
  · refine ⟨.inl (.inl (cell_mem_block.mpr (by omega))), fun x => ?_⟩
    refine (hs (.call 3 :: path) x (arr.add (third1 e n)) (n - third1 e n) (by omega) (by omega)
      (not_suffix_cons harr _)).mono ⟨?_, fun _ h => h.elim, notesOf_cons⟩ fun _ => id
    rintro l (hl | hl)
    · rw [block_add] at hl
      exact .inl (block_mono (by omega) (by omega) hl)
    · exact .inr (scope_cons hl)

/-- **The footprint of `scan`.** -/
theorem scan_safe (o : Oracles) (hK : 1 ≤ K) (fuel : ℕ) :
    ScanSafe (scan o K fuel : ScanCall A) fuel := by
  induction fuel with
  | zero => intro path a arr n h₀ hn; push_cast at hn; omega
  | succ fuel ih =>
    intro path a arr n h₀ hn harr
    push_cast at hn
    have hbodies : ∀ {i j : ℤ} (_ : 0 ≤ i) (_ : j ≤ n) (a : A),
        Safe (scanFoot path arr n) (bodies (scanBody arr) (Int.range i j) a) fun _ => True :=
      fun h₀ hn a => (scanBodies_safe arr h₀ hn a).mono
        ⟨fun _ h => .inl h, fun _ h => h.elim, fun _ h => h.elim⟩ fun _ => id
    cases hsplit : splitOf o path n with
    | none =>
      rw [scan_whole fuel h₀ hsplit]
      exact (hbodies le_rfl le_rfl a).bind fun _ _ => trivial
    | some p =>
      obtain ⟨ht, ht1, ht2, x, hx, hxe, hrun⟩ := scan_split (A := A) (K := K) arr fuel h₀ hsplit
      rw [ht1, ht2] at hrun
      generalize p.prom_i = e at *
      have he := ht.lo
      have hlen := ht.middle_len
      obtain ⟨h₁, h₂, h₃⟩ := ht.eq
      rw [hrun]
      refine (hbodies le_rfl (by omega) a).bind fun b _ => ?_
      have hown := firstThird_safe ih hx ht (by omega) harr b
      have hownLe : (ownFoot path arr (third1 e n)).Le (scanFoot path arr n) := by
        refine ⟨?_, fun _ h => h.elim, notesOf_cons⟩
        rintro l (hl | hl)
        · exact .inl (block_mono le_rfl (by omega) hl)
        · exact .inr (scope_cons hl)
      dsimp only
      split
      · have hchunks := chunks_le (n := third2 e n - third1 e n) (by omega)
        have hup : Safe _ (scan_upsweep o K (scan o K fuel : ScanCall A) (.call 1 :: path)
            (arr.add (third1 e n)) (third2 e n - third1 e n)) _ :=
          upsweep_safe ih hK (by omega) (by omega) (not_suffix_cons harr _)
        refine ⟨_, _, _, _, hownLe, ⟨fun l hl => .inr (scope_cons hl), fun l hl => .inl (.inl ?_),
          ?_⟩, up_indep harr, hown, hup, ?_⟩
        · rw [upFoot, block_add] at hl
          exact block_mono (by omega) (by omega) hl
        · rintro e (rfl | he)
          · exact List.suffix_cons _ _
          · exact notesOf_cons (notesOf_cons he)
        · rintro i up rfl hup
          dsimp only
          rw [if_pos (by omega)]
          exact afterSync_safe ih hK ht (by omega) harr fun p hp => upBuf_of_some hup hp
      · refine (hown.mono hownLe fun _ => id).bind fun i hi => ?_
        subst hi
        rw [if_pos (by omega)]
        exact afterSync_safe ih hK ht (by omega) harr fun p hp => nomatch hp

end
end Spork.Scan
