import Spork.Scan.Footprint

/-!
# `scan` is the inclusive scan

The sequential reading of `scan`. `Scanned f a arr n i` says that the first `i` cells hold
their prefix sums and the others what they held at the start; every part of `scan` carries
it from one index to a later one, the partial sums taking it over the middle third. Safety
then carries the reading over to every schedule.

## Main definitions

* `Scanned` — the array scanned up to an index.
* `ScanWp`, `ScanWp.extend` — what a call of `scan` does to it.
* `upsweep_wp`, `downsweep_wp` — the partial sums, and the scan on top of them.
* `scan_inclusive` — every schedule leaves the inclusive scan.
-/
namespace Spork.Scan

open CInt ForkJoin IntRange Parfor

section
variable {A : Type} [Monoid A]

theorem fold_congr {f g : ℤ → A} (a : A) {i j : ℤ} (h : ∀ k, i ≤ k → k < j → f k = g k) :
    fold f a i j = fold g a i j := by
  rw [fold]
  congr 2
  refine List.map_congr_left fun k hk => ?_
  have hk := Int.mem_range_iff.mp hk
  exact h k hk.1 hk.2

theorem fold_shift (f : ℤ → A) (a : A) (d i j : ℤ) :
    fold (fun k => f (d + k)) a i j = fold f a (d + i) (d + j) := by
  unfold fold Int.range
  rw [add_sub_add_left_eq_sub, List.map_map, List.map_map]
  congr 3
  funext k
  simp only [Function.comp_apply, add_assoc]

/-- The array scanned up to `i`, on top of `a`; `f` is what it held at the start. -/
structure Scanned (f : ℤ → A) (a : A) (arr : Ptr) (n i : ℤ) (m : Loc → A) : Prop where
  done : ∀ k, 0 ≤ k → k < i → m (arr.cell k) = fold f a 0 (k + 1)
  todo : ∀ k, i ≤ k → k < n → m (arr.cell k) = f k

variable {f : ℤ → A} {a : A} {arr : Ptr} {n i j : ℤ} {m m' : Loc → A}

theorem scanned_zero (m : Loc → A) (a : A) (arr : Ptr) (n : ℤ) :
    Scanned (fun k => m (arr.cell k)) a arr n 0 m :=
  ⟨fun k h₁ h₂ => by omega, fun _ _ _ => rfl⟩

/-- The cell before the rest holds the sum of what has been scanned. -/
theorem Scanned.prev (h : Scanned f a arr n i m) (hi : 1 ≤ i) :
    m (arr.cell (i - 1)) = fold f a 0 i := by
  rw [h.done (i - 1) (by omega) (by omega), sub_add_cancel]

/-- A memory that is the same on the array. -/
theorem Scanned.congr (h : Scanned f a arr n i m) (hi : i ≤ n)
    (hm : ∀ k, 0 ≤ k → k < n → m' (arr.cell k) = m (arr.cell k)) (h₀ : 0 ≤ i) :
    Scanned f a arr n i m' where
  done k h₁ h₂ := by rw [hm k h₁ (by omega), h.done k h₁ h₂]
  todo k h₁ h₂ := by rw [hm k (by omega) h₂, h.todo k h₁ h₂]

theorem Ptr.cell_add (arr : Ptr) (d k : ℤ) : (arr.add d).cell k = arr.cell (d + k) := by
  simp only [Ptr.cell, Ptr.add, add_assoc]

/-- Scanning what is left up to `j`, on top of what has been scanned, scans the array up
to `j`. -/
theorem Scanned.extend (h : Scanned f a arr n i m) (hi : 0 ≤ i) (hij : i ≤ j) (hj : j ≤ n)
    (h' : Scanned (fun k => m ((arr.add i).cell k)) (fold f a 0 i) (arr.add i) (j - i) (j - i) m')
    (hframe : ∀ k, 0 ≤ k → k < n → (k < i ∨ j ≤ k) → m' (arr.cell k) = m (arr.cell k)) :
    Scanned f a arr n j m' where
  done k h₁ h₂ := by
    by_cases hk : k < i
    · rw [hframe k h₁ (by omega) (.inl hk), h.done k h₁ hk]
    · have hrest : ∀ t, 0 ≤ t → t < k - i + 1 → m ((arr.add i).cell t) = f (i + t) :=
        fun t h₃ h₄ => by rw [Ptr.cell_add, h.todo _ (by omega) (by omega)]
      calc m' (arr.cell k) = m' ((arr.add i).cell (k - i)) := by
            rw [Ptr.cell_add, show i + (k - i) = k by omega]
        _ = fold (fun t => f (i + t)) (fold f a 0 i) 0 (k - i + 1) := by
            rw [h'.done _ (by omega) (by omega), fold_congr _ hrest]
        _ = fold f (fold f a 0 i) i (k + 1) := by
            rw [fold_shift, add_zero, show i + (k - i + 1) = k + 1 by omega]
        _ = fold f a 0 (k + 1) := fold_fold f a hi (by omega)
  todo k h₁ h₂ := by rw [hframe k (by omega) h₂ (.inr h₁), h.todo k (by omega) h₂]

/-- A call of `scan` on fewer than `N` elements of an array from outside scans it. -/
def ScanWp (scan : ScanCall A) (N : ℤ) : Prop :=
  ∀ path a arr n, 0 ≤ n → n < N → ¬ path <:+ arr.buf → ∀ m,
    Wp (scan path a arr n) (fun _ m' _ => Scanned (fun k => m (arr.cell k)) a arr n n m') m

/-- A program that scans what is left up to `j`, within its footprint, takes the scan over
it, and leaves the other cells as they are. -/
theorem Scanned.extend_wp {p : Code A Unit} {F : Foot Loc Note} {path : List Site}
    (h : Scanned f a arr n i m) (hi : 0 ≤ i) (hij : i ≤ j) (hj : j ≤ n)
    (harr : ¬ path <:+ arr.buf) (hsafe : Safe F p fun _ => True)
    (hF : F.writes ⊆ block (arr.add i) 0 (j - i) ∪ scope path)
    (hwp : Wp p (fun _ m' _ => Scanned (fun k => m ((arr.add i).cell k)) (fold f a 0 i)
      (arr.add i) (j - i) (j - i) m') m) :
    Wp p (fun _ m' _ => Scanned f a arr n j m' ∧
      ∀ l, l ∉ block arr i j → l ∉ scope path → m' l = m l) m := by
  refine (hsafe.wp hwp).mono ?_
  rintro _ m' _ ⟨hm', _, hframe⟩
  have hout : ∀ l, l ∉ block arr i j → l ∉ scope path → m' l = m l := by
    refine fun l hl hl' => hframe l fun hw => ?_
    rcases hF hw with h | h
    · rw [block_add, add_zero, add_sub_cancel] at h
      exact hl h
    · exact hl' h
  refine ⟨h.extend hi hij hj hm' fun k h₁ h₂ hk => hout _ ?_ ?_, hout⟩
  · rw [cell_mem_block]; omega
  · exact block_not_scope harr (cell_mem_block.mpr ⟨h₁, h₂⟩)

/-- A call of `scan` on the next cells of an array takes the scan over them. -/
theorem ScanWp.extend {scan : ScanCall A} {N : ℤ} (hs : ScanWp scan N) (hsafe : ScanSafe scan N)
    {path : List Site} (h : Scanned f a arr n i m) (hi : 0 ≤ i) (hij : i ≤ j) (hj : j ≤ n)
    (hN : j - i < N) (harr : ¬ path <:+ arr.buf) :
    Wp (scan path (fold f a 0 i) (arr.add i) (j - i))
      (fun _ m' _ => Scanned f a arr n j m' ∧ ∀ l, l ∉ block arr i j → l ∉ scope path → m' l = m l)
      m :=
  h.extend_wp hi hij hj harr (hsafe path _ (arr.add i) (j - i) (by omega) hN harr) subset_rfl
    (hs path _ (arr.add i) (j - i) (by omega) hN harr m)

/-- The loop of `scan` takes the scan from one index to a later one. -/
theorem scanBodies_wp (h : Scanned f a arr n i m) (hi : 0 ≤ i) (hij : i ≤ j) (hj : j ≤ n) :
    Wp (bodies (scanBody arr) (Int.range i j) (fold f a 0 i))
      (fun b m' _ => b = fold f a 0 j ∧ Scanned f a arr n j m') m := by
  refine bodies_wp_of (J := fun k b m _ => b = fold f a 0 k ∧ Scanned f a arr n k m) (t := [])
    ?_ le_rfl hij le_rfl _ ⟨rfl, h⟩
  rintro k h₁ h₂ b m₁ _ ⟨hb, hk⟩
  have hfk : m₁ (arr.cell k) = f k := hk.todo k le_rfl (by omega)
  simp only [scanBody, wp_rd, wp_wr, wp_ret, hfk, hb, fold_succ f a (by omega : 0 ≤ k), true_and]
  have hne : ∀ t, t ≠ k → arr.cell t ≠ arr.cell k := fun t ht heq => ht (by
    simpa [Ptr.cell] using heq)
  refine ⟨fun t h₃ h₄ => ?_, fun t h₃ h₄ => ?_⟩
  · by_cases ht : t = k
    · rw [ht, Function.update_self, fold_succ f a (by omega)]
    · rw [Function.update_of_ne (hne t ht), hk.done t h₃ (by omega)]
  · rw [Function.update_of_ne (hne t (by omega)), hk.todo t (by omega) h₄]

/-! ## The partial sums -/

variable {o : Oracles} {K N : ℤ} {path : List Site}

section
variable {scan : ScanCall A}

omit [Monoid A] in
theorem parforUnit_wp (hK : 1 ≤ K) (hn : 0 ≤ n) {body : ℤ → Code A Unit}
    {I : ℤ → (Loc → A) → Prop}
    (hbody : ∀ k, 0 ≤ k → k < n → ∀ m, I k m → Wp (body k) (fun _ m' _ => I (k + 1) m') m)
    (hI : I 0 m) : Wp (parforUnit o K path n body) (fun _ m' _ => I n m') m := by
  refine (parfor_wp (o := o.parfor) (I := fun k m _ => I k m) (f := fun _ => ()) (t := [])
    (Arith.exact_faithfulOn 0 n) rfl hK (fun k h₁ h₂ _ m _ hI => ?_) _ path le_rfl hn le_rfl
    (by omega) () hI).mono fun _ _ _ h => h.2
  exact (hbody k h₁ h₂ m hI).mono fun _ _ _ h => ⟨rfl, h⟩

theorem parforSum_wp (hK : 1 ≤ K) (hij : i ≤ j) :
    Wp (parforSum o K path arr i j)
      (fun s m' _ => s = fold (fun k => m (arr.cell k)) 1 i j ∧ m' = m) m := by
  rw [parforSum]
  refine parfor_wp (I := fun _ m' _ => m' = m) (f := fun k => m (arr.cell k)) (t := [])
    (Arith.exact_faithfulOn i j) rfl hK (fun k _ _ b m' _ hm => ?_) _ path le_rfl hij le_rfl
    (by omega) 1 rfl
  subst hm
  simp

/-- Sums over chunks add up. -/
theorem fold_chunks (f : ℤ → A) (hn : 1 ≤ n) {c : ℤ} (hc : 0 ≤ c) :
    fold (fun t => fold f 1 (bound n t) (bound n (t + 1))) 1 0 c = fold f 1 0 (bound n c) := by
  obtain ⟨c, rfl⟩ := Int.eq_ofNat_of_zero_le hc
  induction c with
  | zero => rw [Nat.cast_zero, bound_zero hn, fold_self, fold_self]
  | succ c ih =>
    rw [Nat.cast_succ, fold_succ _ _ (by omega), ih (by omega), mul_fold_one,
      fold_fold f 1 (bound_nonneg hn (by omega)) (bound_mono hn (by omega))]

/-- **The upsweep.** Unless the allocation failed, the buffer holds the prefix sums of
the chunks. -/
theorem upsweep_wp (hs : ScanWp scan N) (hK : 1 ≤ K) (hn : 1 ≤ n)
    (hN : scan_chunks n < N) (harr : ¬ path <:+ arr.buf) :
    Wp (scan_upsweep o K scan path arr n)
      (fun r m' _ => ∀ p, r = some p → ∀ c, 0 ≤ c → c < scan_chunks n →
        m' (p.cell c) = fold (fun k => m (arr.cell k)) 1 0 (bound n (c + 1))) m := by
  have hchunks := chunks_pos hn
  rw [scan_upsweep]
  split
  · simp
  · simp only [wp_note, wp_bind, wp_ret]
    set buf : Ptr := ⟨path, 0⟩
    set f : ℤ → A := fun k => m (arr.cell k)
    have hne : ∀ c k, arr.cell k ≠ buf.cell c := fun c k heq =>
      harr (by rw [show arr.buf = path from congrArg Prod.fst heq])
    refine (parforUnit_wp (n := scan_chunks n) hK (by omega) (I := fun c m' =>
      (∀ c', 0 ≤ c' → c' < c → m' (buf.cell c') = fold f 1 (bound n c') (bound n (c' + 1))) ∧
        ∀ k, m' (arr.cell k) = f k) ?_ ?_).mono ?_
    · rintro c h₀ h₁ m₁ ⟨hsums, hsame⟩
      rw [chunkEnd_eq, ← bound_of_lt hn h₁, wp_bind]
      refine (parforSum_wp hK (bound_mono hn (by omega))).mono ?_
      rintro s m₂ _ ⟨hsum, hm⟩
      subst hm
      rw [fold_congr 1 fun k _ _ => hsame k] at hsum
      simp only [wp_wr, wp_ret]
      refine ⟨fun c' h₂ h₃ => ?_, fun k => ?_⟩
      · by_cases hc : c' = c
        · rw [hc, Function.update_self, hsum]
        · rw [Function.update_of_ne (by simpa [Ptr.cell] using hc), hsums c' h₂ (by omega)]
      · rw [Function.update_of_ne (hne c k), hsame k]
    · exact ⟨fun c' h₁ h₂ => by omega, fun _ => rfl⟩
    · rintro _ m₁ _ ⟨hsums, _⟩
      refine (hs _ 1 buf _ (by omega) hN (not_suffix_self _ path) m₁).mono
        fun _ m₂ _ hscan p hp c h₀ h₁ => ?_
      obtain rfl := Option.some.inj hp
      rw [hscan.done c h₀ h₁, ← fold_chunks f hn (by omega)]
      exact fold_congr 1 fun t h₂ h₃ => hsums t h₂ (by omega)

/-- **The downsweep.** On top of the cell before the array, if the buffer holds the prefix
sums of the chunks. -/
theorem downsweep_wp (hs : ScanWp scan N) (hsafe : ScanSafe scan N) (hK : 1 ≤ K) (hn : 1 ≤ n)
    (hN : n < N) {partials : Ptr} (harr : ¬ path <:+ arr.buf) (hpart : ¬ path <:+ partials.buf)
    (hne : partials.buf ≠ arr.buf) (hsums : ∀ c, 0 ≤ c → c < scan_chunks n →
      m (partials.cell c) = fold (fun k => m (arr.cell k)) 1 0 (bound n (c + 1))) :
    Wp (scan_downsweep o K scan path partials arr n)
      (fun _ m' _ => Scanned (fun k => m (arr.cell k)) (m (arr.cell (-1))) arr n n m') m := by
  have hchunks := chunks_pos hn
  set f : ℤ → A := fun k => m (arr.cell k)
  set a : A := m (arr.cell (-1))
  simp only [scan_downsweep, wp_bind, wp_note, wp_ret]
  refine (parforUnit_wp (n := scan_chunks n) hK (by omega) (I := fun c m' =>
    Scanned f a arr n (bound n c) m' ∧ m' (arr.cell (-1)) = a ∧
      ∀ c', m' (partials.cell c') = m (partials.cell c')) ?_ ?_).mono ?_
  · rintro c h₀ h₁ m₁ ⟨hscan, hprev, hsame⟩
    have hpos := bound_nonneg hn h₀
    -- the prefix is the sum of all that comes before the chunk
    have hpfx : Wp (if c ≠ 0 then
          Prog.rd (arr.cell (-1)) fun x => .rd (partials.cell (c - 1)) fun y => .ret (x * y)
        else .rd (arr.cell (-1)) .ret : Code A A)
        (fun pfx m' _ => pfx = fold f a 0 (bound n c) ∧ m' = m₁) m₁ := by
      split
      · simp only [wp_rd, wp_ret, hprev, hsame, hsums (c - 1) (by omega) (by omega),
          sub_add_cancel, mul_fold_one, and_self]
      · next hc =>
        obtain rfl : c = 0 := by omega
        simp only [wp_rd, wp_ret, hprev, bound_zero hn, fold_self, and_self]
    rw [downBody, wp_bind]
    refine hpfx.mono ?_
    rintro pfx m₂ _ ⟨hp, hm⟩
    subst hp hm
    rw [chunkSize_eq hn h₁, ← bound_of_lt hn h₁]
    have hlt := bound_lt_succ hn h₁
    have hsize := bound_le (n := n) (c := c + 1)
    refine (hs.extend hsafe hscan hpos hlt.le hsize (by omega) (not_suffix_cons harr _)).mono ?_
    rintro _ m' _ ⟨hscan', hout⟩
    refine ⟨hscan', ?_, fun c' => ?_⟩
    · rw [hout _ (by rw [cell_mem_block]; omega) fun h => harr (suffix_of_cons h), hprev]
    · rw [hout _ (fun h => hne h.1) fun h => hpart (suffix_of_cons h), hsame]
  · rw [bound_zero hn]
    exact ⟨scanned_zero m a arr n, rfl, fun _ => rfl⟩
  · rintro _ m₁ _ ⟨hscan, _⟩
    rw [bound_chunks hn] at hscan
    exact hscan

/-! ## The thirds -/

theorem firstThird_wp (hs : ScanWp scan N) (hsafe : ScanSafe scan N) {x e : ℤ} (hx : 0 ≤ x)
    (hxe : x ≤ e) (ht : Thirds e n) (hN : n ≤ N) (harr : ¬ path <:+ arr.buf)
    (h : Scanned f a arr n x m) :
    Wp (firstThird scan path arr n x e (fold f a 0 x))
      (fun i m' _ => i = e ∧ Scanned f a arr n (third1 e n) m') m := by
  have he := ht.lo
  have hfirst := ht.first
  have hmid := ht.middle
  have hlast := ht.last
  simp only [firstThird, wp_bind, wp_rd, wp_ret]
  refine (scanBodies_wp h hx hxe (by omega)).mono ?_
  rintro _ m₁ _ ⟨_, h₁⟩
  rw [h₁.prev (by omega)]
  exact (hs.extend hsafe h₁ (by omega) hfirst.le (by omega) (by omega)
    (not_suffix_cons harr _)).mono fun _ m₂ _ h₂ => ⟨trivial, h₂.1⟩

/-- The downsweep and the last third, on top of the first. -/
theorem scanPar_wp (hs : ScanWp scan N) (hsafe : ScanSafe scan N) (hK : 1 ≤ K) {t1 t2 : ℤ}
    (h₀ : 1 ≤ t1) (h₁ : t1 < t2) (h₂ : t2 < n) (hN : n ≤ N) (harr : ¬ path <:+ arr.buf)
    (h : Scanned f a arr n t1 m) (hsums : ∀ c, 0 ≤ c → c < scan_chunks (t2 - t1) →
      m (Ptr.cell ⟨.call 1 :: path, 0⟩ c) =
        fold (fun k => m ((arr.add t1).cell k)) 1 0 (bound (t2 - t1) (c + 1))) :
    Wp (scanPar o K scan path ⟨.call 1 :: path, 0⟩ arr t1 t2 n)
      (fun _ m' _ => Scanned f a arr n n m') m := by
  set partials : Ptr := ⟨.call 1 :: path, 0⟩
  have hbuf : partials.buf ≠ arr.buf := fun h => harr (h ▸ List.suffix_cons _ _)
  have hcalls : ¬ Site.call 2 :: path <:+ partials.buf := not_suffix_sibling (by simp)
  simp only [scanPar, scanTail, wp_bind, wp_spawn, wp_rd, wp_ret]
  have hdown : Safe (downFoot (.call 2 :: path) partials (arr.add t1) (t2 - t1))
      (scan_downsweep o K scan (.call 2 :: path) partials (arr.add t1) (t2 - t1)) fun _ => True :=
    downsweep_safe hsafe hK (by omega) (by omega) (not_suffix_cons harr _) hcalls hbuf
  refine (h.extend_wp (by omega) h₁.le h₂.le (not_suffix_cons harr _) hdown subset_rfl ?_).mono ?_
  · have hprev : m ((arr.add t1).cell (-1)) = fold f a 0 t1 := by
      rw [Ptr.cell_add, ← sub_eq_add_neg, h.prev h₀]
    rw [← hprev]
    exact downsweep_wp hs hsafe hK (by omega) (by omega) (not_suffix_cons harr _) hcalls hbuf hsums
  · rintro _ m₁ _ ⟨hscan, hout⟩
    -- the middle third is scanned, and the partial sums are as they were
    have hsum12 : m₁ (partials.cell (lastPartial t1 t2)) = fold f 1 t1 t2 := by
      have hchunks := chunks_pos (n := t2 - t1) (by omega)
      rw [hout _ (fun h => hbuf h.1) hcalls, lastPartial_eq, hsums _ (by omega) (by omega),
        sub_add_cancel, bound_chunks (by omega),
        fold_congr 1 fun k h₃ h₄ => (by rw [Ptr.cell_add, h.todo _ (by omega) (by omega)] :
          m ((arr.add t1).cell k) = f (t1 + k)),
        fold_shift, add_zero, add_sub_cancel]
    have hfirst : m₁ (arr.cell (t1 - 1)) = fold f a 0 t1 := by
      rw [hscan.done _ (by omega) (by omega), sub_add_cancel]
    rw [hsum12, hfirst, mul_fold_one, fold_fold f a (by omega) h₁.le]
    exact (hs.extend hsafe hscan (by omega) h₂.le le_rfl (by omega) (not_suffix_cons harr _)).mono
      fun _ m₂ _ h => h.1

theorem afterSync_wp (hs : ScanWp scan N) (hsafe : ScanSafe scan N) (hK : 1 ≤ K) {e : ℤ}
    (ht : Thirds e n) (hN : n ≤ N) (harr : ¬ path <:+ arr.buf)
    (h : Scanned f a arr n (third1 e n) m) {up : Option (Option Ptr)}
    (hup : ∀ p, up = some (some p) → p = ⟨.call 1 :: path, 0⟩ ∧
      ∀ c, 0 ≤ c → c < scan_chunks (third2 e n - third1 e n) → m (p.cell c) =
        fold (fun k => m ((arr.add (third1 e n)).cell k)) 1 0
          (bound (third2 e n - third1 e n) (c + 1))) :
    Wp (afterSync o K scan path arr e n up) (fun _ m' _ => Scanned f a arr n n m') m := by
  have he := ht.lo
  have hfirst := ht.first
  have hmid := ht.middle
  have hlast := ht.last
  unfold afterSync
  split
  · next p =>
    obtain ⟨rfl, hsums⟩ := hup p rfl
    exact scanPar_wp hs hsafe hK (by omega) hmid hlast hN harr h hsums
  · rw [wp_rd, h.prev (by omega)]
    exact (hs.extend hsafe h (by omega) (by omega) le_rfl (by omega)
      (not_suffix_cons harr _)).mono fun _ _ _ h => h.1

end

/-- **What `scan` computes**, whatever the oracle says. -/
theorem scan_wp (o : Oracles) (hK : 1 ≤ K) (fuel : ℕ) :
    ScanWp (scan o K fuel : ScanCall A) fuel := by
  induction fuel with
  | zero => intro path a arr n h₀ hn; push_cast at hn; omega
  | succ fuel ih =>
    intro path a arr n h₀ hn harr m
    push_cast at hn
    have hsafe : ScanSafe (scan o K fuel : ScanCall A) fuel := scan_safe o hK fuel
    have hstart := scanned_zero m a arr n
    set f : ℤ → A := fun k => m (arr.cell k)
    cases hsplit : splitOf o path n with
    | none =>
      have hloop := scanBodies_wp hstart le_rfl h₀ le_rfl
      rw [fold_self] at hloop
      rw [scan_whole fuel h₀ hsplit, wp_bind]
      exact hloop.mono fun _ m' _ h => wp_ret.mpr h.2
    | some p =>
      obtain ⟨ht, ht1, ht2, x, hx, hxe, hrun⟩ := scan_split (A := A) (K := K) arr fuel h₀ hsplit
      rw [ht1, ht2] at hrun
      generalize p.prom_i = e at *
      have he := ht.lo
      have hlen := ht.middle_len
      obtain ⟨h₁, h₂, h₃⟩ := ht.eq
      have hloop := scanBodies_wp hstart le_rfl hx (by omega)
      rw [fold_self] at hloop
      rw [hrun, wp_bind]
      refine hloop.mono ?_
      rintro _ m₁ _ ⟨hb, hscan⟩
      subst hb
      have hown := firstThird_wp ih hsafe hx hxe ht (by omega) harr hscan
      dsimp only
      split
      · -- the upsweep reads what the owner does not write
        rw [wp_fork]
        refine hown.mono ?_
        rintro i m₂ _ ⟨hi, hscan₂⟩
        subst hi
        have hchunks := chunks_le (n := third2 i n - third1 i n) (by omega)
        have hcall : ¬ Site.call 1 :: path <:+ (arr.add (third1 i n)).buf := not_suffix_cons harr _
        refine ((upsweep_safe hsafe hK (by omega) (by omega) hcall).wp
          (upsweep_wp ih hK (by omega) (by omega) hcall)).mono ?_
        rintro up m₃ _ ⟨hsums, hptr, hframe⟩
        have hsame : ∀ k, m₃ (arr.cell k) = m₂ (arr.cell k) := fun k =>
          hframe _ fun h => harr (suffix_of_cons h)
        rw [if_pos (by omega)]
        refine afterSync_wp ih hsafe hK ht (by omega) harr
          (hscan₂.congr (by omega) (fun k _ _ => hsame k) (by omega)) fun p hp => ?_
        refine ⟨upBuf_of_some hptr hp, fun c h₄ h₅ => ?_⟩
        rw [hsums p (Option.some.inj hp) c h₄ h₅]
        exact fold_congr 1 fun k _ _ => by rw [Ptr.cell_add, hsame]
      · rw [wp_bind]
        refine hown.mono ?_
        rintro i m₂ _ ⟨hi, hscan₂⟩
        subst hi
        rw [if_pos (by omega)]
        exact afterSync_wp ih hsafe hK ht (by omega) harr hscan₂ fun p hp => by cases hp

end

/-- **`scan` is the inclusive scan.** For every choice of promotions, thefts and failed
allocations in this call and in those within, each schedule ends with the sums in place,
and changes no cell but those of the array and of the buffers the call allocates. -/
theorem scan_inclusive {A : Type} [Monoid A] (o : Oracles) {K : ℤ} (hK : 1 ≤ K)
    (path : List Site) (a : A) (arr : Ptr) (n : ℤ) (hn : 0 ≤ n) (harr : ¬ path <:+ arr.buf)
    (m : Loc → A) :
    AllRuns (fun _ m' _ =>
        (∀ k, 0 ≤ k → k < n →
          m' (arr.cell k) = a * ((Int.range 0 (k + 1)).map fun t => m (arr.cell t)).prod) ∧
        ∀ l, l ∉ block arr 0 n → l ∉ scope path → m' l = m l)
      m [] (scan o K (n.toNat + 1) path a arr n) := by
  have hfuel : n < ((n.toNat + 1 : ℕ) : ℤ) := by push_cast; omega
  have hsafe := scan_safe (A := A) o hK (n.toNat + 1) path a arr n hn hfuel harr
  have hwp := scan_wp (A := A) o hK (n.toNat + 1) path a arr n hn hfuel harr m
  refine (hsafe.allRuns (hsafe.wp hwp)).mono ?_
  rintro - m' - ⟨-, ⟨hscan, -, hframe⟩, -⟩
  refine ⟨hscan.done, fun l hl hl' => hframe l ?_⟩
  rintro (h | h)
  · exact hl h
  · exact hl' h

/-- The theorem at ten elements of the free monoid, promoted at once, every job stolen. -/
theorem scan_inclusive_ten :
    AllRuns (fun _ m' _ =>
        m' (Ptr.cell ⟨[], 0⟩ 9) = FreeMonoid.ofList [7, 0, 1, 2, 3, 4, 5, 6, 7, 8, 9])
      (fun l => FreeMonoid.of l.2) []
      (scan ⟨fun _ => ⟨some 0, true, false, true⟩, fun _ => ⟨none, fun _ => true⟩⟩ 1 11 [.call 0]
        (FreeMonoid.of 7) ⟨[], 0⟩ 10) :=
  (scan_inclusive _ le_rfl [.call 0] (FreeMonoid.of 7) ⟨[], 0⟩ 10 (by decide) (by decide) _).mono
    fun _ _ _ h => (h.1 9 (by decide) (by decide)).trans rfl

end Spork.Scan
