import Spork.Lib.CInt
import Spork.Lib.IntRange
import Mathlib.Algebra.Order.Group.Multiset
import Mathlib.Algebra.BigOperators.Group.List.Basic
import Mathlib.Tactic.Ring

/-!
# The front end of `parfor` for 64-bit indices

`parfor_` needs an index that fits `sig_atomic_t`. For a wider index `parfor` moves the
range into 32 bits if it can, and otherwise runs a parallel loop over blocks of `2 ^ 30`
indices, itself a `parfor` on the wide type. A run is described by the multiset of
indices on which it calls the body; `parfor_` is a parameter.

The last block is recognised by `block == 1 + ((j - i - 1) >> 30)`, which is the number
of blocks and so no block. Every block therefore takes the length meant for the last
one, and the blocks overlap.

## Main definitions

* `Loop`, `RunsOnce` — a 32-bit loop and what is taken for granted of it.
* `parfor`, `blockBody` — the source.
* `parfor_calls` — what every branch calls.
* `parfor_coversOnce_iff`.
-/
namespace Spork.Parfor.Blocks

open CInt IntRange

/-- A loop on the indices of a type, which gathers the calls its body makes. -/
abbrev Loop := IntTy → ℤ → ℤ → (ℤ → Option (Multiset ℤ)) → Option (Multiset ℤ)

/-- The body runs once on each index of a 32-bit range. -/
def RunsOnce (parfor_ : Loop) : Prop :=
  ∀ ty : IntTy, ty.bits = 32 → ∀ i j, ty.InRange i → ty.InRange j →
    ∀ (body : ℤ → Option (Multiset ℤ)) (calls : ℤ → Multiset ℤ),
      (∀ k, i ≤ k → k < j → body k = some (calls k)) →
      parfor_ ty i j body = some ((Int.range i j).map calls).sum

/-- The loop body of the block branch: one block of the range `[i, j)`. -/
def blockBody (parfor_ : Loop) (ty : IntTy) (i j : ℤ) (body : ℤ → Option (Multiset ℤ))
    (block : ℤ) : Option (Multiset ℤ) := do
  let offset := ty.wrap (block <<< (30 : ℕ))
  let n ← ty.arith (j - i)
  let m ← ty.arith (n - 1)
  let last ← ty.arith ((1 : ℤ) + (m >>> (30 : ℕ)))
  let block_end ←
    if block = last then (fun b : ℤ => ty.wrap (b <<< (30 : ℕ))) <$> ty.arith (block + 1)
    else ty.arith (n - offset)
  let base ← ty.arith (i + offset)
  parfor_ .uint32 0 (IntTy.uint32.wrap block_end) fun k => do
    body (← ty.arith (base + ty.wrap k))

/-- `parfor`. `none` is undefined behaviour, or that the fuel for the recursion over
blocks has run out. -/
def parfor (parfor_ : Loop) (ty : IntTy) : ℕ → ℤ → ℤ → (ℤ → Option (Multiset ℤ)) →
    Option (Multiset ℤ)
  | 0, _, _, _ => none
  | fuel + 1, i, j, body =>
      if ty.bits ≤ IntTy.int.bits then parfor_ ty i j body
      else if i ≥ j then some 0
      else if ty.signed ∧ i ≥ IntTy.int.min ∧ j ≤ IntTy.int.max then
        parfor_ .int (IntTy.int.wrap i) (IntTy.int.wrap j) fun k => body (ty.wrap k)
      else if ¬ty.signed ∧ j ≤ 0xFFFFFFFF then
        parfor_ .uint32 (IntTy.uint32.wrap i) (IntTy.uint32.wrap j) fun k => body (ty.wrap k)
      else do
        let n ← ty.arith (j - i)
        if n ≤ 0xFFFFFFFF then
          parfor_ .uint32 0 (IntTy.uint32.wrap n) fun k => do
            body (← ty.arith (i + ty.wrap k))
        else
          let m ← ty.arith (n - 1)
          let num_blocks ← ty.arith ((1 : ℤ) + (m >>> (30 : ℕ)))
          parfor parfor_ ty fuel 0 num_blocks (blockBody parfor_ ty i j body)

/-- The body is called once for each index of `[i, j)` and for no other. Three rounds of
blocks are enough for 64 bits. -/
def CoversOnce (parfor_ : Loop) (ty : IntTy) (i j : ℤ) : Prop :=
  ∀ fuel, 3 ≤ fuel →
    parfor parfor_ ty fuel i j (fun k => some {k}) = some (Multiset.ofList (Int.range i j))

section
variable {parfor_ : Loop} {ty : IntTy} {i j : ℤ} {body : ℤ → Option (Multiset ℤ)}
  {calls : ℤ → Multiset ℤ}

/-- A loop whose body shifts its index covers the shifted range. -/
theorem RunsOnce.shifted (h : RunsOnce parfor_) (ty₁ : IntTy) (hty : ty₁.bits = 32) {a b d : ℤ}
    (ha : ty₁.InRange a) (hb : ty₁.InRange b) {f : ℤ → Option (Multiset ℤ)}
    {c : ℤ → Multiset ℤ} (hf : ∀ k, a ≤ k → k < b → f k = some (c (d + k))) :
    parfor_ ty₁ a b f = some ((Int.range (d + a) (d + b)).map c).sum := by
  rw [h ty₁ hty a b ha hb f (fun k => c (d + k)) hf]
  simp only [Int.range, add_sub_add_left_eq_sub, List.map_map]
  congr 3
  funext k
  simp only [Function.comp_apply, add_assoc]

/-! ## The branches -/

theorem wrap_uint32 {x : ℤ} (h₀ : 0 ≤ x) (h₁ : x ≤ 0xFFFFFFFF) : IntTy.uint32.wrap x = x :=
  IntTy.wrap_of_inRange ⟨h₀, h₁⟩

/-- The operator results of a range are exact between the ends of the range, and between
zero and its length. -/
structure Wide (ty : IntTy) (i j : ℤ) : Prop where
  bits : ty.bits = 64
  inRange_i : ty.InRange i
  inRange_j : ty.InRange j
  inRange_len : ty.InRange (j - i)

theorem Wide.index (hw : Wide ty i j) {x : ℤ} (h₁ : i ≤ x) (h₂ : x ≤ j) : ty.InRange x :=
  IntTy.inRange_of_between hw.inRange_i hw.inRange_j h₁ h₂

theorem Wide.length (hw : Wide ty i j) {x : ℤ} (h₁ : 0 ≤ x) (h₂ : x ≤ j - i) : ty.InRange x :=
  IntTy.inRange_of_between (ty.inRange_small le_rfl (by norm_num)) hw.inRange_len h₁ h₂

variable (body calls) in
/-- A range of fewer than `2 ^ 32` indices is covered once, whichever branch it takes. -/
theorem parfor_short (h : RunsOnce parfor_) (hw : Wide ty i j) (hn : j - i ≤ 0xFFFFFFFF)
    (hbody : ∀ k, i ≤ k → k < j → body k = some (calls k)) (fuel : ℕ) :
    parfor parfor_ ty (fuel + 1) i j body = some ((Int.range i j).map calls).sum := by
  have hbits : ¬ ty.bits ≤ IntTy.int.bits := by rw [hw.bits]; decide
  rw [parfor]
  rw [if_neg hbits]
  by_cases hij : i ≥ j
  · rw [if_pos hij, range_eq_nil hij]
    rfl
  rw [if_neg hij]
  have hcast : ∀ k, i ≤ k → k < j → body (ty.wrap k) = some (calls k) := by
    intro k h₁ h₂
    rw [IntTy.wrap_of_inRange (hw.index h₁ (by omega)), hbody k h₁ h₂]
  by_cases hs : ty.signed ∧ i ≥ IntTy.int.min ∧ j ≤ IntTy.int.max
  · rw [if_pos hs]
    obtain ⟨-, h₁, h₂⟩ := hs
    have hi : IntTy.int.InRange i := ⟨h₁, by omega⟩
    have hj : IntTy.int.InRange j := ⟨by omega, h₂⟩
    rw [IntTy.wrap_of_inRange hi, IntTy.wrap_of_inRange hj]
    exact h .int rfl i j hi hj _ calls hcast
  rw [if_neg hs]
  by_cases hu : ¬ty.signed ∧ j ≤ 0xFFFFFFFF
  · rw [if_pos hu]
    have hi₀ : 0 ≤ i := by simpa [IntTy.min, hu.1] using hw.inRange_i.1
    rw [wrap_uint32 hi₀ (by omega), wrap_uint32 (by omega) hu.2]
    exact h .uint32 rfl i j ⟨hi₀, by have := hu.2; show i ≤ 0xFFFFFFFF; omega⟩
      ⟨by show 0 ≤ j; omega, hu.2⟩ _ calls hcast
  rw [if_neg hu]
  have hlen : ty.arith (j - i) = some (j - i) := IntTy.arith_of_inRange hw.inRange_len
  simp only [hlen, Option.bind_eq_bind, Option.bind_some, if_pos hn]
  rw [wrap_uint32 (by omega) hn]
  have := h.shifted (c := calls) .uint32 rfl (a := 0) (b := j - i) (d := i)
    (f := fun k => (ty.arith (i + ty.wrap k)).bind body) (by decide) ⟨by show 0 ≤ j - i; omega, hn⟩
    (by
      intro k h₁ h₂
      rw [IntTy.wrap_of_inRange (hw.length h₁ (by omega)),
        IntTy.arith_of_inRange (hw.index (by omega) (by omega)), Option.bind_some,
        hbody _ (by omega) (by omega)])
  rwa [add_zero, add_sub_cancel] at this

/-! ## Blocks -/

/-- The number of blocks of a range of length `n`. -/
def numBlocks (n : ℤ) : ℤ := 1 + (n - 1) / 2 ^ 30

/-- The length a block is given: what remains of the range, truncated to 32 bits. -/
def blockEnd (n block : ℤ) : ℤ := (n - block * 2 ^ 30) % 2 ^ 32

/-- What one block calls. -/
def blockCalls (i n : ℤ) (calls : ℤ → Multiset ℤ) (block : ℤ) : Multiset ℤ :=
  ((Int.range (i + block * 2 ^ 30) (i + block * 2 ^ 30 + blockEnd n block)).map calls).sum

theorem Wide.numBlocks_eq (hw : Wide ty i j) (hij : i < j) :
    ty.arith ((1 : ℤ) + ((j - i - 1) >>> (30 : ℕ))) = some (numBlocks (j - i)) := by
  rw [Int.shiftRight_eq_div_pow]
  exact IntTy.arith_of_inRange (hw.length (by omega) (by omega))

/-- No block is the last one: each runs on what remains of the range, modulo `2 ^ 32`. -/
theorem blockBody_eq (h : RunsOnce parfor_) (hw : Wide ty i j)
    (hbody : ∀ k, i ≤ k → k < j → body k = some (calls k)) {block : ℤ} (h₀ : 0 ≤ block)
    (h₁ : block < numBlocks (j - i)) :
    blockBody parfor_ ty i j body block = some (blockCalls i (j - i) calls block) := by
  rw [numBlocks] at h₁
  have hoff : ty.wrap (block <<< (30 : ℕ)) = block * 2 ^ 30 := by
    rw [Int.shiftLeft_eq]
    exact IntTy.wrap_of_inRange (hw.length (by omega) (by omega))
  have hn : ty.arith (j - i) = some (j - i) := IntTy.arith_of_inRange hw.inRange_len
  have hm : ty.arith (j - i - 1) = some (j - i - 1) :=
    IntTy.arith_of_inRange (hw.length (by omega) (by omega))
  have hlast := hw.numBlocks_eq (by omega)
  have hend : ty.arith (j - i - block * 2 ^ 30) = some (j - i - block * 2 ^ 30) :=
    IntTy.arith_of_inRange (hw.length (by omega) (by omega))
  have hbase : ty.arith (i + block * 2 ^ 30) = some (i + block * 2 ^ 30) :=
    IntTy.arith_of_inRange (hw.index (by omega) (by omega))
  have hne : ¬ block = numBlocks (j - i) := by unfold numBlocks; omega
  have hwrap : IntTy.uint32.wrap (j - i - block * 2 ^ 30) = blockEnd (j - i) block := rfl
  rw [blockBody]
  simp only [hoff, hn, hm, hlast, hend, hbase, if_neg hne, hwrap, Option.bind_eq_bind,
    Option.bind_some]
  have hlen : 0 ≤ blockEnd (j - i) block ∧ blockEnd (j - i) block ≤ j - i - block * 2 ^ 30 ∧
      blockEnd (j - i) block ≤ 0xFFFFFFFF := by
    unfold blockEnd; omega
  have := h.shifted (c := calls) .uint32 rfl (a := 0) (b := blockEnd (j - i) block)
    (d := i + block * 2 ^ 30)
    (f := fun k => (ty.arith (i + block * 2 ^ 30 + ty.wrap k)).bind body) (by decide)
    ⟨hlen.1, hlen.2.2⟩
    (by
      intro k h₂ h₃
      rw [IntTy.wrap_of_inRange (hw.length h₂ (by omega)),
        IntTy.arith_of_inRange (hw.index (by omega) (by omega)), Option.bind_some,
        hbody _ (by omega) (by omega)])
  rwa [add_zero] at this

/-- A block of at most `2 ^ 31` remaining indices reaches the last index of the range. -/
theorem calls_le_blockCalls {n : ℤ} (block : ℤ) (h₁ : block * 2 ^ 30 < n)
    (h₂ : n ≤ block * 2 ^ 30 + 2 ^ 31) (calls : ℤ → Multiset ℤ) :
    calls (i + n - 1) ≤ blockCalls i n calls block := by
  have hend : blockEnd n block = n - block * 2 ^ 30 := by unfold blockEnd; omega
  have hrange : Int.range (i + block * 2 ^ 30) (i + block * 2 ^ 30 + blockEnd n block) =
      Int.range (i + block * 2 ^ 30) (i + n - 1) ++ [i + n - 1] := by
    rw [← range_succ (by omega), hend]
    congr 1
    omega
  rw [blockCalls]
  rw [hrange, List.map_append, List.sum_append, List.map_singleton, List.sum_singleton]
  exact Multiset.le_add_left _ _

/-- A longer range is a `parfor` over its blocks. -/
theorem parfor_blocks (hw : Wide ty i j) (hn : 0xFFFFFFFF < j - i) (fuel : ℕ) :
    parfor parfor_ ty (fuel + 1) i j body =
      parfor parfor_ ty fuel 0 (numBlocks (j - i)) (blockBody parfor_ ty i j body) := by
  have hbits : ¬ ty.bits ≤ IntTy.int.bits := by rw [hw.bits]; decide
  have hs : ¬(ty.signed ∧ i ≥ IntTy.int.min ∧ j ≤ IntTy.int.max) := by
    rintro ⟨-, h₁, h₂⟩
    have h₁ : -2 ^ 31 ≤ i := h₁
    have h₂ : j ≤ 2 ^ 31 - 1 := h₂
    omega
  have hu : ¬(¬ty.signed ∧ j ≤ 0xFFFFFFFF) := by
    rintro ⟨h₁, h₂⟩
    have hi₀ : 0 ≤ i := by simpa [IntTy.min, h₁] using hw.inRange_i.1
    omega
  have hlen : ty.arith (j - i) = some (j - i) := IntTy.arith_of_inRange hw.inRange_len
  have hm : ty.arith (j - i - 1) = some (j - i - 1) :=
    IntTy.arith_of_inRange (hw.length (by omega) (by omega))
  have hnum := hw.numBlocks_eq (by omega)
  conv_lhs => unfold parfor
  rw [if_neg hbits, if_neg (by omega : ¬ i ≥ j), if_neg hs, if_neg hu]
  simp only [hlen, hm, hnum, Option.bind_eq_bind, Option.bind_some,
    if_neg (by omega : ¬ j - i ≤ 0xFFFFFFFF)]

variable (body calls) in
/-- **What `parfor` calls.** With enough fuel every range is run without undefined
behaviour. A range of fewer than `2 ^ 32` indices is covered once; on a longer range the
last index is run at least twice. -/
theorem parfor_calls (h : RunsOnce parfor_) (fuel : ℕ) (hw : Wide ty i j)
    (hfuel : j - i ≤ 2 ^ (30 * fuel + 30))
    (hbody : ∀ k, i ≤ k → k < j → body k = some (calls k)) :
    ∃ total, parfor parfor_ ty (fuel + 1) i j body = some total ∧
      (j - i ≤ 0xFFFFFFFF → total = ((Int.range i j).map calls).sum) ∧
      (0xFFFFFFFF < j - i → calls (j - 1) + calls (j - 1) ≤ total) := by
  induction fuel generalizing i j body calls with
  | zero =>
    have hn : j - i ≤ 0xFFFFFFFF := by norm_num at hfuel; omega
    exact ⟨_, parfor_short body calls h hw hn hbody 0, fun _ => rfl, fun hn' => by omega⟩
  | succ fuel ih =>
    by_cases hn : j - i ≤ 0xFFFFFFFF
    · exact ⟨_, parfor_short body calls h hw hn hbody _, fun _ => rfl, fun hn' => by omega⟩
    have hB : numBlocks (j - i) = 1 + (j - i - 1) / 2 ^ 30 := rfl
    have hwB : Wide ty 0 (numBlocks (j - i)) :=
      ⟨hw.bits, ty.inRange_small le_rfl (by norm_num), hw.length (by omega) (by omega),
        hw.length (by omega) (by omega)⟩
    have hfuelB : numBlocks (j - i) - 0 ≤ 2 ^ (30 * fuel + 30) := by
      have hpow : (2 : ℤ) ^ (30 * (fuel + 1) + 30) = 2 ^ (30 * fuel + 30) * 2 ^ 30 := by ring
      have := Int.ediv_lt_of_lt_mul (by norm_num : (0 : ℤ) < 2 ^ 30)
        (by omega : j - i - 1 < 2 ^ (30 * fuel + 30) * 2 ^ 30)
      omega
    obtain ⟨total, hrun, hshort, hlong⟩ :=
      ih _ _ hwB hfuelB fun b h₀ h₁ => blockBody_eq h hw hbody h₀ h₁
    have hlast : i + (j - i) - 1 = j - 1 := by omega
    have h₁ := calls_le_blockCalls (i := i) (n := j - i) (numBlocks (j - i) - 1) (by omega)
      (by omega) calls
    have h₂ := calls_le_blockCalls (i := i) (n := j - i) (numBlocks (j - i) - 2) (by omega)
      (by omega) calls
    rw [hlast] at h₁ h₂
    refine ⟨total, by rw [parfor_blocks hw (by omega), hrun], fun hn' => by omega, fun _ => ?_⟩
    by_cases hnB : numBlocks (j - i) - 0 ≤ 0xFFFFFFFF
    · -- the last two blocks both reach the last index
      have hrange : Int.range 0 (numBlocks (j - i)) =
          Int.range 0 (numBlocks (j - i) - 2) ++
            [numBlocks (j - i) - 2, numBlocks (j - i) - 1] := by
        obtain ⟨m, hm⟩ : ∃ m, numBlocks (j - i) = m + 1 + 1 := ⟨numBlocks (j - i) - 2, by omega⟩
        rw [hm, range_succ (by omega), range_succ (by omega), List.append_assoc,
          show m + 1 + 1 - 2 = m by omega, show m + 1 + 1 - 1 = m + 1 by omega]
        rfl
      rw [hshort hnB, hrange, List.map_append, List.sum_append]
      simp only [List.map_cons, List.map_nil, List.sum_cons, List.sum_nil, add_zero]
      exact le_trans (add_le_add h₂ h₁) (Multiset.le_add_left _ _)
    · -- the last block is itself run twice
      exact le_trans (add_le_add h₁ h₁) (hlong (by omega))

/-- Three rounds of blocks are enough. -/
theorem Wide.fuel_le (hw : Wide ty i j) {fuel : ℕ} (hf : 2 ≤ fuel) :
    j - i ≤ 2 ^ (30 * fuel + 30) := by
  have hpow : (2 : ℤ) ^ 64 ≤ 2 ^ (30 * fuel + 30) := pow_le_pow_right₀ (by norm_num) (by omega)
  have hmax := hw.inRange_len.2
  rw [IntTy.max] at hmax
  rw [hw.bits] at hmax
  split at hmax <;> omega

/-- **When `parfor` covers its range once.** For a 64-bit index and a range whose length
does not overflow it, exactly when the range has fewer than `2 ^ 32` indices. -/
theorem parfor_coversOnce_iff (parfor_ : Loop) (h : RunsOnce parfor_) (ty : IntTy)
    (hbits : ty.bits = 64) (i j : ℤ) (hi : ty.InRange i) (hj : ty.InRange j)
    (hlen : ty.InRange (j - i)) : CoversOnce parfor_ ty i j ↔ j - i ≤ 0xFFFFFFFF := by
  have hw : Wide ty i j := ⟨hbits, hi, hj, hlen⟩
  have hsum : ((Int.range i j).map fun k => ({k} : Multiset ℤ)).sum = Int.range i j := by
    induction Int.range i j with
    | nil => rfl
    | cons k ks ih => rw [List.map_cons, List.sum_cons, ih]; rfl
  constructor
  · intro hc
    by_contra hn
    obtain ⟨total, hrun, -, hlong⟩ := parfor_calls (fun k => some {k}) (fun k => {k}) h 2 hw
      (hw.fuel_le le_rfl) fun _ _ _ => rfl
    have htwice := hlong (by omega)
    rw [hc 3 le_rfl, Option.some.injEq] at hrun
    subst hrun
    have hcount := Multiset.count_le_of_le (j - 1) htwice
    simp [count_range] at hcount
    split at hcount <;> omega
  · intro hn fuel hf
    obtain ⟨fuel, rfl⟩ : ∃ n, fuel = n + 1 := ⟨fuel - 1, by omega⟩
    rw [parfor_short _ (fun k => {k}) h hw hn (fun _ _ _ => rfl) fuel, hsum]

end

/-- The sequential loop. -/
def seqfor : Loop := fun _ i j body =>
  (Int.range i j).foldrM (fun k acc => do return (← body k) + acc) 0

theorem runsOnce_seqfor : RunsOnce seqfor := by
  intro ty _ i j _ _ body calls hbody
  have hmem : ∀ k ∈ Int.range i j, body k = some (calls k) := fun k hk =>
    have hk := Int.mem_range_iff.mp hk
    hbody k hk.1 hk.2
  rw [seqfor]
  generalize Int.range i j = ks at hmem ⊢
  induction ks with
  | nil => rfl
  | cons k ks ih =>
    rw [List.foldrM_cons, ih fun k' hk' => hmem k' (List.mem_cons_of_mem _ hk')]
    simp [hmem k List.mem_cons_self]

/-- A `long` range inside `sig_atomic_t`. -/
theorem parfor_coversOnce_iff_long : CoversOnce seqfor .long (-3) 5 :=
  (parfor_coversOnce_iff seqfor runsOnce_seqfor .long rfl (-3) 5 (by decide) (by decide)
    (by decide)).mpr (by decide)

/-- `parfor(0L, 1L << 32)`: the first block runs on nothing, the last index is run by
each of the other three. -/
theorem parfor_block_split : ¬CoversOnce seqfor .long 0 4294967296 := by
  intro hc
  have hwide : Wide .long 0 4294967296 := ⟨rfl, by decide, by decide, by decide⟩
  obtain ⟨total, hrun, -, hlong⟩ :=
    parfor_calls (fun k => some {k}) (fun k => {k}) runsOnce_seqfor 2 hwide (by decide)
      fun _ _ _ => rfl
  have hcount := Multiset.count_le_of_le 4294967295 (hlong (by decide))
  rw [hc 3 le_rfl, Option.some.injEq] at hrun
  subst hrun
  simp [count_range] at hcount

end Spork.Parfor.Blocks
