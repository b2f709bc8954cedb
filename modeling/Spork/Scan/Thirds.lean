import Spork.Scan.Code

/-!
# The promotion handler of `scan` in a machine type

The handler of `scan` reads the published index as a `sig_atomic_t`, adds 5 there,
converts the sum to the index type without a bound check, and computes the two thirds in
the index type. Near the limits of the type these wrap, and the test
`prom_i < t1 && t1 < t2 && t2 < n` is all that guards the split.

## Main definitions

* `prom_i`, `third1`, `third2`, `promotion` — the source, in fixed-width arithmetic.
* `resumes` — the test on which a promoted call goes on to join its job.
* `GenuineThirds` — a split that is one over the integers, and what the loop makes of it.
* `genuineThirds_iff`.
-/
namespace Spork.Scan.Thirds

open CInt Parfor

/-- `sig_safe_i + 5`, computed in `sig_atomic_t`. -/
def prom_i (ty : IntTy) (sig_safe_i : ℤ) : ℤ := ty.wrap (IntTy.int.wrap (sig_safe_i + 5))

/-- `i + ((j - i) / 5)`. -/
def third1 (ty : IntTy) (i j : ℤ) : ℤ := ty.wrap (i + (ty.wrap (j - i)).tdiv 5)

/-- `j - 2 * ((j - i) / 5)`. -/
def third2 (ty : IntTy) (i j : ℤ) : ℤ := ty.wrap (j - ty.wrap (2 * (ty.wrap (j - i)).tdiv 5))

/-- The promotion lambda. -/
def promotion (ty : IntTy) (n sig_safe_i : ℤ) : Option Split :=
  let prom := prom_i ty sig_safe_i
  let t1 := third1 ty prom n
  let t2 := third2 ty prom n
  if prom < t1 ∧ t1 < t2 ∧ t2 < n then some ⟨prom, t1, t2⟩ else none

/-- `promoted && i != n`: only then is the upsweep job joined. -/
def resumes (promoted : Bool) (i n : ℤ) : Bool := promoted && decide (i ≠ n)

/-- The index arithmetic of the loop, every operator wrapping. -/
def wrapping (ty : IntTy) : Arith :=
  ⟨fun x => some (ty.wrap x), ty.wrap, fun x => some (IntTy.int.wrap x), IntTy.int.wrap⟩

/-- Every split the handler makes when `s` is published is one over the integers. The loop,
wherever it is when it has published `s`, has not passed the new bound, and stops there; the
thirds computed from where it stopped are the handler's, and the job is joined. -/
structure GenuineThirds (ty : IntTy) (n s : ℤ) : Prop where
  exact : ∀ p, promotion ty n (IntTy.int.wrap s) = some p →
    p = ⟨s + 5, Scan.third1 (s + 5) n, Scan.third2 (s + 5) n⟩ ∧
      s + 5 < p.t1 ∧ p.t1 < p.t2 ∧ p.t2 < n
  stops : ∀ p, promotion ty n (IntTy.int.wrap s) = some p →
    ∀ t c, (Loop.enter (wrapping ty) 0 n).run (wrapping ty) t = some c → c.published = s →
      c.vars.i ≤ p.prom_i ∧
      ∃ t' c', Loop.run (wrapping ty) t'
          { c with vars := { c.vars with loop_end := p.prom_i } } = some c' ∧
        c'.pc = .done ∧ c'.vars.i = s + 5 ∧ s + 5 < n ∧
        third1 ty c'.vars.i n = p.t1 ∧ third2 ty c'.vars.i n = p.t2 ∧
        resumes true c'.vars.i n = true

section
variable {ty : IntTy} {n s i : ℤ}

theorem wrapping_faithfulOn (hb : ty.bits ≤ 32) {lo hi : ℤ} (hlo : ty.InRange lo)
    (hhi : ty.InRange hi) (hd : ty.InRange (hi - lo)) : (wrapping ty).FaithfulOn lo hi where
  op_index x h₁ h₂ := congrArg some <|
    IntTy.wrap_of_inRange (IntTy.inRange_of_between hlo hhi h₁ h₂)
  op_length x h₁ h₂ := congrArg some <|
    IntTy.wrap_of_inRange <|
      IntTy.inRange_of_between (ty.inRange_small le_rfl (by norm_num)) hd h₁ h₂
  conv_index x h₁ h₂ := IntTy.wrap_of_inRange (IntTy.inRange_of_between hlo hhi h₁ h₂)
  conv_sig x h₁ h₂ := IntTy.wrap_wrap_int hb (IntTy.inRange_of_between hlo hhi h₁ h₂)

/-! ## The thirds -/

/-- Between 0 and `n` the first third is exact. -/
theorem third1_eq (hn : ty.InRange n) (hi : 0 ≤ i) (hin : i ≤ n) :
    third1 ty i n = Scan.third1 i n := by
  have h₀ : ty.InRange 0 := ty.inRange_small le_rfl (by norm_num)
  have hlen : ty.wrap (n - i) = n - i :=
    IntTy.wrap_of_inRange (IntTy.inRange_of_between h₀ hn (by omega) (by omega))
  have hdiv : (n - i).tdiv 5 = (n - i) / 5 := Int.tdiv_eq_ediv_of_nonneg (by omega)
  rw [third1, Scan.third1, hlen, hdiv]
  exact IntTy.wrap_of_inRange (IntTy.inRange_of_between h₀ hn (by omega) (by omega))

/-- So is the second. -/
theorem third2_eq (hn : ty.InRange n) (hi : 0 ≤ i) (hin : i ≤ n) :
    third2 ty i n = Scan.third2 i n := by
  have h₀ : ty.InRange 0 := ty.inRange_small le_rfl (by norm_num)
  have hlen : ty.wrap (n - i) = n - i :=
    IntTy.wrap_of_inRange (IntTy.inRange_of_between h₀ hn (by omega) (by omega))
  have hdiv : (n - i).tdiv 5 = (n - i) / 5 := Int.tdiv_eq_ediv_of_nonneg (by omega)
  have hdouble : ty.wrap (2 * ((n - i) / 5)) = 2 * ((n - i) / 5) :=
    IntTy.wrap_of_inRange (IntTy.inRange_of_between h₀ hn (by omega) (by omega))
  rw [third2, Scan.third2, hlen, hdiv, hdouble]
  exact IntTy.wrap_of_inRange (IntTy.inRange_of_between h₀ hn (by omega) (by omega))

/-- The published index plus 5, or what it wraps to. -/
theorem prom_i_eq (hb : ty.bits = 32) (hs : 0 ≤ s) (hsn : ty.InRange s) :
    prom_i ty (IntTy.int.wrap s) = if s + 5 ≤ ty.max then s + 5 else s + 5 - 2 ^ 32 := by
  obtain ⟨bits, signed, hw⟩ := ty
  obtain rfl : bits = 32 := hb
  cases signed <;>
    simp only [prom_i, IntTy.InRange, IntTy.min, IntTy.max, IntTy.wrap, IntTy.int, if_true,
      Bool.false_eq_true, if_false] at hsn ⊢ <;> split <;> omega

/-- A position up to 5 past the end is not split. -/
theorem no_split_past_end (hb : ty.bits = 32) (hn : ty.InRange n) (hn₀ : 0 ≤ n) (hlt : n < i)
    (hle : i ≤ n + 5) (hmax : i ≤ ty.max) :
    ¬(i < third1 ty i n ∧ third1 ty i n < third2 ty i n ∧ third2 ty i n < n) := by
  obtain ⟨bits, signed, hw⟩ := ty
  obtain rfl : bits = 32 := hb
  cases signed
  · have hlen : IntTy.wrap ⟨32, false, hw⟩ (n - i) = n - i + 2 ^ 32 := by
      simp only [IntTy.wrap, Bool.false_eq_true, if_false]
      omega
    have hdiv : (n - i + 2 ^ 32).tdiv 5 = (n - i + 2 ^ 32) / 5 :=
      Int.tdiv_eq_ediv_of_nonneg (by omega)
    simp only [third1, third2, hlen, hdiv]
    simp only [IntTy.InRange, IntTy.min, IntTy.max, IntTy.wrap, Bool.false_eq_true, if_false]
      at hn hmax ⊢
    omega
  · have hlen : IntTy.wrap ⟨32, true, hw⟩ (n - i) = n - i :=
      IntTy.wrap_of_inRange (by
        simp only [IntTy.InRange, IntTy.min, IntTy.max, if_true] at hn hmax ⊢
        omega)
    have hdiv : (n - i).tdiv 5 ≤ 0 := by
      have := Int.tdiv_nonneg (a := i - n) (b := 5) (by omega) (by norm_num)
      rw [← Int.neg_sub, Int.neg_tdiv]
      omega
    have hdiv' : -1 ≤ (n - i).tdiv 5 := by
      rw [← Int.neg_sub, Int.neg_tdiv, Int.tdiv_eq_ediv_of_nonneg (by omega)]
      omega
    have hthird : third1 ⟨32, true, hw⟩ i n ≤ i := by
      rw [third1, hlen, IntTy.wrap_of_inRange]
      · omega
      · simp only [IntTy.InRange, IntTy.min, IntTy.max, if_true] at hn hmax ⊢
        omega
    omega

/-- A signed position that has wrapped is not split. -/
theorem no_split_signed_wrap (hb : ty.bits = 32) (hs : ty.signed) (hn : ty.InRange n)
    (hi : ty.max < i) (hin : i ≤ n + 5) :
    ¬(i - 2 ^ 32 < third1 ty (i - 2 ^ 32) n ∧
      third1 ty (i - 2 ^ 32) n < third2 ty (i - 2 ^ 32) n ∧ third2 ty (i - 2 ^ 32) n < n) := by
  obtain ⟨bits, signed, hw⟩ := ty
  obtain rfl : bits = 32 := hb
  obtain rfl : signed = true := hs
  simp only [IntTy.InRange, IntTy.min, IntTy.max, if_true] at hn hi
  have hlen : IntTy.wrap ⟨32, true, hw⟩ (n - (i - 2 ^ 32)) = n - i := by
    simp only [IntTy.wrap, if_true]
    omega
  have hdiv : (n - i).tdiv 5 = 0 ∨ (n - i).tdiv 5 = -1 := by
    rw [← Int.neg_sub, Int.neg_tdiv, Int.tdiv_eq_ediv_of_nonneg (by omega)]
    omega
  simp only [third1, third2, hlen]
  rcases hdiv with h | h <;> simp only [h, IntTy.wrap, if_true] <;> omega

/-- An unsigned position that has wrapped is split. -/
theorem split_unsigned_wrap (hb : ty.bits = 32) (hs : ¬ty.signed) (hn : ty.InRange n)
    (hi : ty.max < i) (hin : i ≤ n + 5) :
    i - 2 ^ 32 < third1 ty (i - 2 ^ 32) n ∧
      third1 ty (i - 2 ^ 32) n < third2 ty (i - 2 ^ 32) n ∧ third2 ty (i - 2 ^ 32) n < n := by
  obtain ⟨bits, signed, hw⟩ := ty
  obtain rfl : bits = 32 := hb
  cases signed
  · have hrange := hn
    simp only [IntTy.InRange, IntTy.min, IntTy.max, Bool.false_eq_true, if_false] at hn hi
    rw [third1_eq hrange (by omega) (by omega), third2_eq hrange (by omega) (by omega),
      Scan.third1, Scan.third2, Int.tdiv_eq_ediv_of_nonneg (by omega)]
    omega
  · simp at hs

/-! ## The loop after a split -/

/-- A loop that has published `s` has not passed `s + 5`, and stops there once that is its
bound. -/
theorem loop_stops (hb : ty.bits = 32) (hn : ty.InRange n) (hn₀ : 0 ≤ n) (hsn : s + 5 < n)
    {t : ℕ} {c : Loop}
    (hrun : (Loop.enter (wrapping ty) 0 n).run (wrapping ty) t = some c) (hs : c.published = s) :
    c.vars.i ≤ s + 5 ∧ ∃ t' c', Loop.run (wrapping ty) t'
        { c with vars := { c.vars with loop_end := s + 5 } } = some c' ∧
      c'.pc = .done ∧ c'.vars.i = s + 5 := by
  have h₀ : ty.InRange 0 := ty.inRange_small le_rfl (by norm_num)
  have hf : (wrapping ty).FaithfulOn 0 n :=
    wrapping_faithfulOn hb.le h₀ hn (by rwa [sub_zero])
  obtain ⟨c₁, hrun₁, hok, hend⟩ := Loop.run_spec hf t (Loop.ok_enter hn₀) le_rfl
  obtain rfl : c = c₁ := Option.some.inj (hrun.symm.trans hrun₁)
  have hend : c.vars.loop_end = n := hend
  have hlow := hok.lower (by norm_num : (1 : ℤ) ≤ 5) (by omega)
  rw [hs] at hlow
  refine ⟨?_, Loop.exists_done hf hlow ?_⟩
  · have : c.vars.i ≤ c.published + 1 := by
      rw [Loop.published]
      split <;> omega
    omega
  · show s + 5 ≤ n
    omega

/-- A split at `s + 5` is a genuine one. -/
theorem genuineThirds_of_exact (hb : ty.bits = 32) (hn : ty.InRange n) (hs : 0 ≤ s)
    (hsn : s ≤ n) (h : ∀ p, promotion ty n (IntTy.int.wrap s) = some p →
      prom_i ty (IntTy.int.wrap s) = s + 5 ∧ s + 5 ≤ n) : GenuineThirds ty n s := by
  have hsplit : ∀ p, promotion ty n (IntTy.int.wrap s) = some p →
      p = ⟨s + 5, Scan.third1 (s + 5) n, Scan.third2 (s + 5) n⟩ ∧
        s + 5 < p.t1 ∧ p.t1 < p.t2 ∧ p.t2 < n := by
    intro p hp
    obtain ⟨hprom, hle⟩ := h p hp
    simp only [promotion, hprom, third1_eq hn (by omega : 0 ≤ s + 5) hle,
      third2_eq hn (by omega : 0 ≤ s + 5) hle] at hp
    split at hp
    · next ht =>
      cases hp
      exact ⟨rfl, ht⟩
    · cases hp
  refine ⟨hsplit, ?_⟩
  intro p hp t c hrun hpub
  obtain ⟨rfl, h₁, h₂, h₃⟩ := hsplit p hp
  have hlt : s + 5 < n := by omega
  obtain ⟨hi, t', c', hrun', hdone, hi'⟩ := loop_stops hb hn (by omega) hlt hrun hpub
  refine ⟨hi, t', c', hrun', hdone, hi', hlt, ?_, ?_, ?_⟩
  · rw [hi', third1_eq hn (by omega) (by omega)]
  · rw [hi', third2_eq hn (by omega) (by omega)]
  · simp only [resumes, Bool.true_and, decide_eq_true_eq]
    omega

end

/-- **The handler of `scan` splits only on genuine thirds**, for every progress `s ≤ n`,
if and only if the index type is signed or `s + 5` is below `2 ^ 32`. -/
theorem genuineThirds_iff {ty : IntTy} {n s : ℤ} (hb : ty.bits = 32) (hn : ty.InRange n)
    (hs : 0 ≤ s) (hsn : s ≤ n) : GenuineThirds ty n s ↔ ty.signed ∨ s + 5 < 2 ^ 32 := by
  have h₀ : ty.InRange 0 := ty.inRange_small le_rfl (by norm_num)
  have hprom := prom_i_eq hb hs (IntTy.inRange_of_between h₀ hn hs hsn)
  have hmax : ¬ty.signed → ty.max = 2 ^ 32 - 1 := by
    intro hsg
    rw [IntTy.max, if_neg hsg, hb]
  constructor
  · intro h
    by_contra hcon
    rw [not_or] at hcon
    have hlt : ty.max < s + 5 := by
      rw [hmax hcon.1]
      omega
    rw [if_neg (by omega)] at hprom
    have hp := split_unsigned_wrap hb hcon.1 hn hlt (by omega)
    have := (h.exact ⟨_, _, _⟩ (by rw [promotion, hprom]; exact if_pos hp)).1
    rw [Split.mk.injEq] at this
    omega
  · intro h
    refine genuineThirds_of_exact hb hn hs hsn fun p hp => ?_
    by_cases hle : s + 5 ≤ ty.max
    · rw [if_pos hle] at hprom
      refine ⟨hprom, ?_⟩
      by_contra hgt
      rw [promotion, hprom] at hp
      simp only [no_split_past_end hb hn (by omega) (by omega) (by omega) hle, if_false] at hp
      cases hp
    · rw [if_neg hle] at hprom
      have hsg : ty.signed := by
        rcases h with h | h
        · exact h
        · by_contra hsg
          rw [hmax hsg] at hle
          omega
      rw [promotion, hprom] at hp
      simp only [no_split_signed_wrap hb hsg hn (by omega : ty.max < s + 5) (by omega),
        if_false] at hp
      cases hp

/-- Half way through a range of `int`. -/
theorem genuineThirds_int : GenuineThirds .int 2147483647 1073741823 :=
  Iff.mpr (genuineThirds_iff rfl (by decide) (by decide) (by decide)) (.inl rfl)

/-- A range of `uint32_t` of which all but the last 5 indices are done: `prom_i` wraps to
0, and the handler takes three fifths of what has been scanned already. -/
theorem genuineThirds_fails_at_uint32 :
    promotion .uint32 4294967295 (IntTy.int.wrap 4294967291) =
        some ⟨0, 858993459, 2576980377⟩ ∧
      ¬GenuineThirds .uint32 4294967295 4294967291 := by
  have hp : promotion .uint32 4294967295 (IntTy.int.wrap 4294967291) =
      some ⟨0, 858993459, 2576980377⟩ := by decide
  refine ⟨hp, fun h => ?_⟩
  have := (h.exact _ hp).1
  revert this
  decide

end Spork.Scan.Thirds
