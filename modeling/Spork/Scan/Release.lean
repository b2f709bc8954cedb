import Spork.Lib.Schedule
import Spork.Scan.Correct

/-!
# The release of the partial sums

The downsweep releases the partial sums at its end, and the last third, which runs beside
it, begins with a read of the last of them. If the `par` of the two is not promoted, or its
job is taken back, the left branch ends before the right one begins.

## Main definitions

* `ReadBeforeRelease` — the last partial sum is read before the one release.
* `scanPar_release` — when it is, in a run of the `par`.
* `scan_reads_before_release` — when it is, in a run of `scan`.
-/
namespace Spork.Scan

open CInt ForkJoin IntRange Parfor

/-- The buffer of `partials` is released once; the partial sum at `i` is read before that and
not after. -/
def ReadBeforeRelease (partials : Ptr) (i : ℤ) (tr : List (Act Loc Note)) : Prop :=
  Before (.read (partials.cell i)) (.note (.p_free partials.buf)) tr

section
variable {A : Type} [Monoid A] {o : Oracles} {K N : ℤ} {path : List Site} {arr : Ptr} {n t1 t2 : ℤ}
  {scan : ScanCall A} {R : (Loc → A) → (Loc → A) → Prop} {m m' : Loc → A}
  {s : List (Event Loc Note)}

/-- The buffer of the upsweep of a call. -/
def upBuf (path : List Site) : Ptr := ⟨.call 1 :: path, 0⟩

/-- A footprint that neither reads the last partial sum nor releases the buffer. -/
structure Spares (path : List Site) (t1 t2 : ℤ) (F : Foot Loc Note) : Prop where
  read : (upBuf path).cell (lastPartial t1 t2) ∉ F.cells
  free : .p_free (upBuf path).buf ∉ F.notes

omit [Monoid A] in
theorem Spares.runs {F : Foot Loc Note} {B : Type} {Q : B → Prop} {p p' : Code A B}
    (hF : Spares path t1 t2 F) (hsafe : Safe F p Q) (hr : Runs R m p s m' p') :
    .read ((upBuf path).cell (lastPartial t1 t2)) ∉ trace s ∧
      .note (.p_free (upBuf path).buf) ∉ trace s :=
  ⟨fun h => hF.read ((hsafe.runs hr).2 _ h), fun h => hF.free ((hsafe.runs hr).2 _ h)⟩

/-- Among its calls, only the upsweep's own has to do with its buffer. -/
theorem upBuf_notMem_scope {c : Site} {i : ℤ} (hc : c ≠ .call 1) :
    (upBuf path).cell i ∉ scope (c :: path) := not_suffix_sibling hc

theorem downLoop_spares (harr : ¬ path <:+ arr.buf) :
    Spares path t1 t2 ⟨block (arr.add t1) 0 (t2 - t1) ∪ scope (.call 2 :: path),
      block (arr.add t1) (-1) 0 ∪ block (upBuf path) 0 (scan_chunks (t2 - t1) - 1),
      notesOf (.call 2 :: path)⟩ where
  read := by
    have hbuf : (upBuf path).buf ≠ arr.buf := fun h => harr (h ▸ List.suffix_cons _ _)
    rintro ((h | h) | h | h)
    · exact hbuf h.1
    · exact upBuf_notMem_scope (by simp) h
    · exact hbuf h.1
    · have := lastPartial_eq t1 t2
      have := cell_mem_block.mp h
      omega
  free := not_suffix_sibling (by simp)

theorem tailRest_spares (harr : ¬ path <:+ arr.buf) :
    Spares path t1 t2 ⟨block arr t2 n ∪ scope (.call 3 :: path), {arr.cell (t1 - 1)},
      notesOf (.call 3 :: path)⟩ where
  read := by
    have hbuf : (upBuf path).buf ≠ arr.buf := fun h => harr (h ▸ List.suffix_cons _ _)
    rintro ((h | h) | h)
    · exact hbuf h.1
    · exact upBuf_notMem_scope (by simp) h
    · exact hbuf (congrArg Prod.fst h)
  free := not_suffix_sibling (by simp)

/-- The downsweep ends with the release. -/
theorem downsweep_runs (hs : ScanSafe scan N) (hK : 1 ≤ K) (h₁ : t1 < t2) (hN : t2 - t1 < N)
    (harr : ¬ path <:+ arr.buf)
    (hr : Runs R m (scan_downsweep o K scan (.call 2 :: path) (upBuf path) (arr.add t1) (t2 - t1))
      s m' (.ret ())) :
    ∃ sl π, s = sl ++ [⟨π, [.note (.p_free (upBuf path).buf)]⟩] ∧
      .read ((upBuf path).cell (lastPartial t1 t2)) ∉ trace sl ∧
      .note (.p_free (upBuf path).buf) ∉ trace sl := by
  obtain ⟨sl, s₂, m₁, _, rfl, hloop, hfree⟩ := hr.bind
  obtain ⟨s₃, m₂, rfl, hret⟩ := runs_note hfree
  obtain ⟨rfl, -⟩ := runs_ret hret
  have hbuf : (upBuf path).buf ≠ arr.buf := fun h => harr (h ▸ List.suffix_cons _ _)
  have hsafe : Safe _ (parforUnit o K (.call 0 :: .call 2 :: path) (scan_chunks (t2 - t1))
      (downBody scan (.call 2 :: path) (upBuf path) (arr.add t1) (t2 - t1))) _ :=
    downLoop_safe hs hK (by omega) hN (not_suffix_cons harr _) (not_suffix_sibling (by simp)) hbuf
  exact ⟨sl, [], rfl, (downLoop_spares harr).runs hsafe hloop⟩

/-- The last third begins with the read. -/
theorem tail_runs (hs : ScanSafe scan N) (h₂ : t2 ≤ n) (hN : n - t2 < N)
    (harr : ¬ path <:+ arr.buf)
    (hr : Runs R m (scanTail scan path (upBuf path) arr t1 t2 n) s m' (.ret ())) :
    ∃ sr π, s = ⟨π, [.read ((upBuf path).cell (lastPartial t1 t2))]⟩ :: sr ∧
      .read ((upBuf path).cell (lastPartial t1 t2)) ∉ trace sr ∧
      .note (.p_free (upBuf path).buf) ∉ trace sr := by
  obtain ⟨sr, sum12, m₁, rfl, hrest⟩ := runs_rd hr
  exact ⟨sr, [], rfl, (tailRest_spares harr).runs (tailRest_safe hs h₂ hN harr sum12) hrest⟩

/-- **In a run of the `par`** the read comes before the release exactly if the right branch
is stolen and the thief begins before the left branch is over. -/
theorem scanPar_release (hs : ScanSafe scan N) (hK : 1 ≤ K) (h₁ : t1 < t2) (h₂ : t2 ≤ n)
    (hN : t2 - t1 < N) (hN' : n - t2 < N) (harr : ¬ path <:+ arr.buf)
    (hr : Run m (scanPar o K scan path (upBuf path) arr t1 t2 n) s m' (.ret ()))
    {tr : List (Act Loc Note)} (htr : .note (.p_free (upBuf path).buf) ∉ tr) :
    ReadBeforeRelease (upBuf path) (lastPartial t1 t2) (tr ++ trace s) ↔
      (o.scan path).parStolen = true ∧ RightBeforeLeft s := by
  rw [ReadBeforeRelease]
  cases hst : (o.scan path).parStolen with
  | false =>
    simp only [scanPar, hst, spawn, Bool.false_eq_true, if_false, Prog.bind_assoc,
      Prog.ret_bind] at hr
    obtain ⟨sd, st, m₁, _, rfl, -, hr⟩ := hr.bind
    obtain ⟨st, sj, m₂, _, rfl, htail, hret⟩ := hr.bind
    obtain ⟨rfl, -⟩ := runs_ret hret
    obtain ⟨sr, π, rfl, -, hfree⟩ := tail_runs hs h₂ hN' harr htail
    simp only [Bool.false_eq_true, false_and, iff_false, trace_append, List.append_nil,
      ← List.append_assoc]
    exact not_before (by simpa using hfree) (by simp)
  | true =>
    simp only [scanPar, hst, spawn, if_true, Prog.bind] at hr
    obtain ⟨s, sj, m₁, _, _, rfl, -, hret, hside, hleft, hright⟩ := hr.fork
    obtain ⟨rfl, -⟩ := runs_ret hret
    obtain ⟨_, hleft⟩ := hleft m
    obtain ⟨_, hright⟩ := hright m
    obtain ⟨sl, π, hl, -, hxl⟩ := downsweep_runs hs hK h₁ hN harr hleft
    obtain ⟨sr, π', hread, hyr, hxr⟩ := tail_runs hs h₂ hN' harr hright
    have hxr' : .note (.p_free (upBuf path).buf) ∉ trace (rights s) := by simp [hread, hxr]
    simp only [true_and, List.append_nil]
    constructor
    · intro hb
      by_contra hlate
      rw [lefts_then_rights hside hlate, ← List.append_assoc] at hb
      exact not_before hxr' (by simp [hread]) hb
    · intro hearly
      exact (before_of_rightBeforeLeft hside hl hread hxl hxr' hyr hearly).append_left htr

/-! ## The runs of `scan` -/

variable (o path arr n) in
/-- A call that takes the path of a stolen upsweep: its `par` is reached before the buffer
is released. -/
theorem scan_reaches_par (hK : 1 ≤ K) (a : A) (hn : 0 ≤ n) (harr : ¬ path <:+ arr.buf) {p : Split}
    (hsplit : splitOf o path n = some p) (hup : (o.scan path).upStolen = true)
    (hmalloc : (o.scan (.call 1 :: path)).mallocNull = false)
    (hr : Run m (Scan.scan o K (n.toNat + 1) path a arr n) s m' (.ret ())) :
    ∃ s₁ s₂ m₁, s = s₁ ++ s₂ ∧ .note (.p_free (upBuf path).buf) ∉ trace s₁ ∧
      Run m (Scan.scan o K (n.toNat + 1) path a arr n) s₁ m₁
        (scanPar o K (Scan.scan o K n.toNat) path (upBuf path) arr p.t1 p.t2 n) ∧
      Run m₁ (scanPar o K (Scan.scan o K n.toNat) path (upBuf path) arr p.t1 p.t2 n) s₂ m'
        (.ret ()) := by
  have hsafe : ScanSafe (Scan.scan o K n.toNat : ScanCall A) n.toNat := scan_safe o hK n.toNat
  obtain ⟨ht, ht1, ht2, x, hx, hxe, hrun⟩ := scan_split (A := A) (K := K) arr n.toNat hn
    hsplit
  have he := ht.lo
  have hlen := ht.middle_len
  obtain ⟨h₁, h₂, h₃⟩ := ht.eq
  have hchunks := chunks_le (n := p.t2 - p.t1) (by omega)
  rw [hrun] at hr ⊢
  simp only [hup, if_true] at hr ⊢
  obtain ⟨s₀, s, m₀, b, rfl, hloop, hr⟩ := hr.bind
  have hfork := hr
  obtain ⟨s₁, s₂, m₁, i, up, rfl, hjoin, hpar, hside, hown, hupr⟩ := hr.fork
  obtain ⟨_, hown⟩ := hown m
  obtain ⟨_, hupr⟩ := hupr m
  -- what the three parts may do
  have hloopSafe := scanBodies_safe (A := A) arr le_rfl (by omega : x ≤ n) a
  have hownSafe := firstThird_safe hsafe hx ht (by omega) harr b
  have hupSafe : Safe (upFoot (.call 1 :: path) (arr.add p.t1) (p.t2 - p.t1))
      (scan_upsweep o K (Scan.scan o K n.toNat : ScanCall A) (.call 1 :: path) (arr.add p.t1)
        (p.t2 - p.t1)) _ :=
    upsweep_safe hsafe hK (by omega) (by omega) (not_suffix_cons harr _)
  obtain ⟨rfl, hownAllows⟩ := hownSafe.runs hown
  obtain ⟨hupEq, hupAllows⟩ := hupSafe.runs hupr
  have hup : up = some (upBuf path) := by
    have hupEq : up = if (o.scan (.call 1 :: path)).mallocNull then none else some (upBuf path) :=
      hupEq
    simpa [hmalloc] using hupEq
  have hcont : (if p.prom_i ≠ n then
      afterSync o K (Scan.scan o K n.toNat) path arr p.prom_i n (some up) else .ub : Code A Unit) =
      scanPar o K (Scan.scan o K n.toNat) path (upBuf path) arr p.t1 p.t2 n := by
    rw [if_pos (by omega), hup, ht1, ht2]
    rfl
  rw [hcont] at hjoin hpar
  refine ⟨s₀ ++ s₁, s₂, m₁, by simp, ?_, ?_, hpar⟩
  · rw [trace_append, List.mem_append, mem_trace_inFork hside]
    rintro (h | h | h)
    · exact (hloopSafe.runs hloop).2 _ h
    · exact not_suffix_sibling (by simp) (hownAllows _ h)
    · rcases hupAllows _ h with h | h
      · cases h
      · exact not_suffix_self _ _ h
  · exact (hloop.lift _).append hjoin

end

/-- **When the partial sums are read before they are released.** In every run of a call
that takes the path of a stolen upsweep, exactly if the right branch of its `par` is stolen
and the thief begins before the left branch is over. -/
theorem scan_reads_before_release {A : Type} [Monoid A] (o : Oracles) {K : ℤ} (hK : 1 ≤ K)
    (path : List Site) (a : A) (arr : Ptr) (n : ℤ) (hn : 0 ≤ n) (harr : ¬ path <:+ arr.buf)
    {p : Split} (hsplit : splitOf o path n = some p) (hup : (o.scan path).upStolen = true)
    (hmalloc : (o.scan (.call 1 :: path)).mallocNull = false) {m m' : Loc → A}
    {s : List (Event Loc Note)}
    (hr : Run m (scan o K (n.toNat + 1) path a arr n) s m' (.ret ())) :
    ∃ s₁ s₂ m₁, s = s₁ ++ s₂ ∧
      Run m (scan o K (n.toNat + 1) path a arr n) s₁ m₁
        (scanPar o K (scan o K n.toNat) path (upBuf path) arr p.t1 p.t2 n) ∧
      Run m₁ (scanPar o K (scan o K n.toNat) path (upBuf path) arr p.t1 p.t2 n) s₂ m' (.ret ()) ∧
      (ReadBeforeRelease (upBuf path) (lastPartial p.t1 p.t2) (trace s) ↔
        (o.scan path).parStolen = true ∧ RightBeforeLeft s₂) := by
  obtain ⟨s₁, s₂, m₁, rfl, hfree, h₁, h₂⟩ := scan_reaches_par o path arr n hK a hn harr hsplit hup
    hmalloc hr
  refine ⟨s₁, s₂, m₁, rfl, h₁, h₂, ?_⟩
  obtain ⟨ht, ht1, ht2, -⟩ := scan_split (A := A) (K := K) arr n.toNat hn hsplit
  have he := ht.lo
  have hmid := ht.middle
  have hlast := ht.last
  have hlen := ht.middle_len
  have heq := ht.eq
  rw [trace_append]
  exact scanPar_release (scan_safe o hK n.toNat) hK (by omega) (by omega) (by omega) (by omega) harr
    h₂ hfree

/-- Ten elements, the call promoted at once and its upsweep stolen. -/
def tenOracles (parStolen : Bool) : Oracles :=
  ⟨fun path => ⟨if path = [.call 0] then some 0 else none, true, false, parStolen⟩,
    fun _ => ⟨none, fun _ => false⟩⟩

/-- The theorem at ten elements, with the right branch stolen. -/
theorem scan_reads_before_release_ten :
    ∃ s m', Run (fun _ => 1) (scan (tenOracles true) 1 11 [.call 0] (1 : ℕ) ⟨[], 0⟩ 10) s m'
        (.ret ()) ∧
      ∃ s₁ s₂, s = s₁ ++ s₂ ∧
        (ReadBeforeRelease (upBuf [.call 0]) (lastPartial 6 8) (trace s) ↔ RightBeforeLeft s₂) := by
  obtain ⟨s, m', _, hr, -⟩ := (scan_inclusive (tenOracles true) le_rfl [.call 0] (1 : ℕ) ⟨[], 0⟩ 10
    (by decide) (by decide) fun _ => 1).exists_run
  obtain ⟨s₁, s₂, m₁, hs, -, -, hiff⟩ := scan_reads_before_release (tenOracles true) le_rfl
    [.call 0] (1 : ℕ) ⟨[], 0⟩ 10 (by decide) (by decide) (p := ⟨5, 6, 8⟩) (by decide) rfl rfl hr
  exact ⟨s, m', hr, s₁, s₂, hs, by simpa [tenOracles] using hiff⟩

/-- Ten elements again. If the right branch is not stolen, the last partial sum is read after
the release. -/
theorem scan_ten_stale_read :
    ∃ s m', Run (fun _ => 1) (scan (tenOracles false) 1 11 [.call 0] (1 : ℕ) ⟨[], 0⟩ 10) s m'
        (.ret ()) ∧
      ¬ ReadBeforeRelease (upBuf [.call 0]) (lastPartial 6 8) (trace s) := by
  have hsafe : ScanSafe (scan (tenOracles false) 1 10 : ScanCall ℕ) _ := scan_safe _ le_rfl 10
  have hwp := scan_wp (A := ℕ) (tenOracles false) le_rfl 11 [.call 0] 1 ⟨[], 0⟩ 10 (by decide)
    (by decide) (by decide) fun _ => 1
  obtain ⟨s, m', _, hr, -⟩ := ((scan_safe (tenOracles false) le_rfl 11 [.call 0] 1 ⟨[], 0⟩ 10
    (by decide) (by decide) (by decide)).allRuns hwp).exists_run
  obtain ⟨s₁, s₂, m₁, rfl, hfree, -, hpar⟩ := scan_reaches_par (tenOracles false) [.call 0]
    ⟨[], 0⟩ 10 le_rfl 1 (by decide) (by decide) (p := ⟨5, 6, 8⟩) (by decide) rfl rfl hr
  refine ⟨_, m', hr, fun h => ?_⟩
  rw [trace_append] at h
  have hiff := scanPar_release hsafe le_rfl (by decide) (by decide) (by decide) (by decide)
    (by decide) hpar hfree
  exact nomatch (hiff.mp h).1

end Spork.Scan
