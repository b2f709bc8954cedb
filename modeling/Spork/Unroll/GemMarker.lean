import Spork.Unroll.MarkedLoops

/-!
# The loop a marker denotes in the other pass

The other pass does not walk. It looks at the successors of the block of the marker, and behind
those that end in an unconditional branch at one block more, for a loop that is entered there
through its preheader. Two different ones are none, and nothing is looked for behind the header of
the loop that has been found.

## Main definitions

* `BranchNest` — a loop nest with its unconditional branches and its preheaders.
* `consider`, `findMarkedLoop` — the source.
* `Heads`, `Denotes` — an edge into a loop, and the loops that are looked at.
* `findMarkedLoop_exact` — the loop is found if it is the only one.
-/
namespace Spork.Unroll.Gem

/-- A loop nest as `getLoopPreheader` and `UncondBrInst` see it. -/
structure BranchNest (B L T : Type) extends LoopNest B L T where
  /-- Where the block branches to, if that is unconditional. -/
  getUncondBr : B → Option B
  successors_uncondBr : ∀ b s, getUncondBr b = some s → successors b = [s]
  preheader_successors : ∀ l p, getLoopPreheader l = some p → successors p = [getHeader l]

variable {B L T : Type}

section
variable [DecidableEq B] [DecidableEq L] (f : BranchNest B L T)

/-- `Consider`: what has been found after the edge. Giving up has no result. -/
def consider (Preheader Header : B) (Found : Option L) : Option (Option L) :=
  match f.getLoopFor Header with
  | none => some Found
  | some l =>
      if f.getHeader l ≠ Header ∨ f.getLoopPreheader l ≠ some Preheader then some Found
      else if Found.any (· ≠ l) then none
      else some (some l)

/-- The loop body of `findMarkedLoop`. -/
def visitSuccessor (MarkerBlock : B) (Found : Option L) (Successor : B) : Option (Option L) := do
  let Found ← consider f MarkerBlock Successor Found
  -- behind the header of the loop there are only loops inside it
  if Found.any fun l => f.getHeader l = Successor then return Found
  match f.getUncondBr Successor with
  | none => return Found
  | some Header => consider f Successor Header Found

def findMarkedLoop (MarkerBlock : B) : Option L :=
  ((f.successors MarkerBlock).foldlM (visitSuccessor f MarkerBlock) none).join

end

/-! ## The loops that are looked at -/

section
variable (f : BranchNest B L T)

/-- The edge from `p` to `s` is the one into `l` from its preheader. -/
def Heads (p s : B) (l : L) : Prop := f.getHeader l = s ∧ f.getLoopPreheader l = some p

/-- The loops that are looked at for the successor `s`. -/
def SeenAt (b s : B) (l : L) : Prop :=
  Heads f b s l ∨ ∃ t, f.getUncondBr s = some t ∧ Heads f s t l

/-- The preheader of `l` is the block `b`, or a successor of it that branches to `l`. -/
def Denotes (b : B) (l : L) : Prop :=
  f.getLoopPreheader l = some b ∨
    ∃ s ∈ f.successors b, f.getUncondBr s = some (f.getHeader l) ∧ f.getLoopPreheader l = some s

/-- The loop `r` has been found among `A`, where `Found` was before. No other is left out, but for
those behind its header. -/
structure Finds (Found r : Option L) (A : L → Prop) : Prop where
  keep : ∀ l, Found = some l → r = some l
  of_found : ∀ l, r = some l → Found = some l ∨ A l
  all : ∀ l, A l → r = some l ∨ ∃ k, r = some k ∧ f.getLoopPreheader l = some (f.getHeader k)

variable {f} {p s b : B} {l l' : L} {Found r r' : Option L} {A A' : L → Prop}

/-- A block is the header of one loop. -/
theorem Heads.unique (h : Heads f p s l) {p' : B} (h' : Heads f p' s l') : l = l' := by
  have hl := f.getLoopFor_header l
  rw [h.1, ← h'.1, f.getLoopFor_header l'] at hl
  exact (Option.some.inj hl).symm

theorem denotes_iff : Denotes f b l ↔ ∃ s ∈ f.successors b, SeenAt f b s l := by
  constructor
  · rintro (hpre | ⟨s, hs, hbr, hpre⟩)
    · exact ⟨f.getHeader l, by simp [f.preheader_successors l b hpre], .inl ⟨rfl, hpre⟩⟩
    · exact ⟨s, hs, .inr ⟨_, hbr, rfl, hpre⟩⟩
  · rintro ⟨s, hs, ⟨-, hpre⟩ | ⟨t, hbr, rfl, hpre⟩⟩
    · exact .inl hpre
    · exact .inr ⟨s, hs, hbr, hpre⟩

theorem Finds.trans (h : Finds f Found r A) (h' : Finds f r r' A') :
    Finds f Found r' fun l => A l ∨ A' l where
  keep l hl := h'.keep l (h.keep l hl)
  of_found l hl := by
    rcases h'.of_found l hl with hl | hl
    · exact (h.of_found l hl).imp_right .inl
    · exact .inr (.inr hl)
  all l hl := by
    rcases hl with hl | hl
    · exact (h.all l hl).imp (h'.keep l) fun ⟨k, hk, hpre⟩ => ⟨k, h'.keep k hk, hpre⟩
    · exact h'.all l hl

end

section
variable [DecidableEq B] [DecidableEq L] {f : BranchNest B L T} {p s b : B} {l : L}
  {Found r : Option L}

/-! ## One edge -/

/-- An edge into a loop finds it, unless another one has been found. -/
theorem consider_heads (h : Heads f p s l) :
    consider f p s Found = if Found.any (· ≠ l) then none else some (some l) := by
  obtain ⟨rfl, hpre⟩ := h
  simp only [consider, f.getLoopFor_header l, hpre, ne_eq, not_true_eq_false, or_self, if_false]

/-- Any other edge finds nothing. -/
theorem consider_other (h : ∀ l, ¬ Heads f p s l) : consider f p s Found = some Found := by
  rw [consider]
  cases hl : f.getLoopFor s with
  | none => rfl
  | some l =>
    refine if_pos ?_
    by_contra hcon
    rw [not_or, not_ne_iff, not_ne_iff] at hcon
    exact h l hcon

theorem consider_finds (h : consider f p s Found = some r) : Finds f Found r (Heads f p s) := by
  by_cases hex : ∃ l, Heads f p s l
  · obtain ⟨l, hl⟩ := hex
    rw [consider_heads hl] at h
    split at h
    · cases h
    next hany =>
      obtain rfl : some l = r := Option.some.inj h
      refine ⟨fun l' hl' => ?_, fun l' hl' => ?_, fun l' hl' => .inl ?_⟩
      · have heq : l' = l := by simpa [hl'] using hany
        rw [heq]
      · cases hl'
        exact .inr hl
      · rw [hl.unique hl']
  · have hnone := not_exists.mp hex
    rw [consider_other hnone] at h
    cases h
    exact ⟨fun _ => id, fun _ => .inl, fun l hl => absurd hl (hnone l)⟩

/-- Where there is no other loop, no edge gives up. -/
theorem consider_isSome (hfound : ∀ l', Found = some l' → l' = l)
    (hheads : ∀ l', Heads f p s l' → l' = l) : (consider f p s Found).isSome := by
  by_cases hex : ∃ l', Heads f p s l'
  · obtain ⟨l', hl'⟩ := hex
    obtain rfl := hheads l' hl'
    rw [consider_heads hl', if_neg]
    · rfl
    · cases Found with
      | none => simp
      | some k => simpa using hfound k rfl
  · rw [consider_other (not_exists.mp hex)]
    rfl

/-! ## One successor -/

theorem visitSuccessor_finds (h : visitSuccessor f b Found s = some r) :
    Finds f Found r (SeenAt f b s) := by
  obtain ⟨r₁, hfirst, h⟩ := Option.bind_eq_some_iff.mp h
  have hfinds := consider_finds hfirst
  split at h
  · next hany =>
    obtain rfl : r₁ = r := Option.some.inj h
    refine ⟨hfinds.keep, fun l hl => (hfinds.of_found l hl).imp_right .inl, fun l hl => ?_⟩
    rcases hl with hl | ⟨t, -, hl⟩
    · exact hfinds.all l hl
    · cases r₁ with
      | none => cases hany
      | some k =>
        have hheader : f.getHeader k = s := of_decide_eq_true hany
        exact .inr ⟨k, rfl, hheader ▸ hl.2⟩
  · split at h
    · next hbr =>
      obtain rfl : r₁ = r := Option.some.inj h
      refine ⟨hfinds.keep, fun l hl => (hfinds.of_found l hl).imp_right .inl, fun l hl => ?_⟩
      rcases hl with hl | ⟨t, ht, -⟩
      · exact hfinds.all l hl
      · cases hbr.symm.trans ht
    next t hbr =>
      have hseen : SeenAt f b s = fun l => Heads f b s l ∨ Heads f s t l := by
        funext l
        simp [SeenAt, hbr]
      rw [hseen]
      exact hfinds.trans (consider_finds h)

theorem visitSuccessor_isSome (hfound : ∀ l', Found = some l' → l' = l)
    (hseen : ∀ l', SeenAt f b s l' → l' = l) : (visitSuccessor f b Found s).isSome := by
  obtain ⟨r₁, hfirst⟩ := Option.isSome_iff_exists.mp
    (consider_isSome hfound fun l' hl' => hseen l' (.inl hl'))
  rw [visitSuccessor, hfirst, Option.bind_eq_bind, Option.bind_some]
  split
  · rfl
  split
  · rfl
  next t hbr =>
    refine consider_isSome (fun l' hl' => ?_) fun l' hl' => hseen l' (.inr ⟨t, hbr, hl'⟩)
    rcases (consider_finds hfirst).of_found l' hl' with hl' | hl'
    · exact hfound l' hl'
    · exact hseen l' (.inl hl')

/-! ## All successors -/

theorem foldlM_finds {ss : List B} (h : ss.foldlM (visitSuccessor f b) Found = some r) :
    Finds f Found r fun l => ∃ s ∈ ss, SeenAt f b s l := by
  induction ss generalizing Found with
  | nil =>
    cases h
    exact ⟨fun _ => id, fun _ => .inl, by simp⟩
  | cons s ss ih =>
    rw [List.foldlM_cons] at h
    obtain ⟨r₁, hfirst, h⟩ := Option.bind_eq_some_iff.mp h
    simp only [List.exists_mem_cons_iff]
    exact (visitSuccessor_finds hfirst).trans (ih h)

theorem foldlM_isSome {ss : List B} (hfound : ∀ l', Found = some l' → l' = l)
    (hseen : ∀ s ∈ ss, ∀ l', SeenAt f b s l' → l' = l) :
    (ss.foldlM (visitSuccessor f b) Found).isSome := by
  induction ss generalizing Found with
  | nil => rfl
  | cons s ss ih =>
    have hs := hseen s (List.mem_cons_self ..)
    obtain ⟨r₁, hfirst⟩ := Option.isSome_iff_exists.mp (visitSuccessor_isSome hfound hs)
    rw [List.foldlM_cons, hfirst, Option.bind_eq_bind, Option.bind_some]
    refine ih (fun l' hl' => ?_) fun t ht => hseen t (List.mem_cons_of_mem s ht)
    exact ((visitSuccessor_finds hfirst).of_found l' hl').elim (hfound l') (hs l')

/-- **A marker denotes the one loop behind it.** What is found is a loop whose preheader is the
block of the marker or one hop behind it, and any other such loop is entered from its header. If
there is only one such loop, it is found. -/
theorem findMarkedLoop_exact (f : BranchNest B L T) (b : B) :
    (∀ l, findMarkedLoop f b = some l → Denotes f b l ∧
      ∀ l', Denotes f b l' → l' = l ∨ f.getLoopPreheader l' = some (f.getHeader l)) ∧
    ∀ l, Denotes f b l → (∀ l', Denotes f b l' → l' = l) → findMarkedLoop f b = some l := by
  constructor
  · intro l h
    have hfinds := foldlM_finds (Option.join_eq_some_iff.mp h)
    refine ⟨?_, fun l' hl' => ?_⟩
    · rcases hfinds.of_found l rfl with hl | hl
      · cases hl
      · exact denotes_iff.mpr hl
    · rcases hfinds.all l' (denotes_iff.mp hl') with hl' | ⟨k, hk, hpre⟩
      · exact .inl (Option.some.inj hl').symm
      · cases hk
        exact .inr hpre
  · intro l hl hunique
    have hsome : ((f.successors b).foldlM (visitSuccessor f b) none).isSome :=
      foldlM_isSome (l := l) (fun _ hnone => by cases hnone) fun s hs l' hl' =>
        hunique l' (denotes_iff.mpr ⟨s, hs, hl'⟩)
    obtain ⟨r, hr⟩ := Option.isSome_iff_exists.mp hsome
    have hfinds := foldlM_finds hr
    rw [findMarkedLoop, hr, Option.join_some]
    -- what has been found instead of `l` would be another loop
    rcases hfinds.all l (denotes_iff.mp hl) with hrl | ⟨k, hk, -⟩
    · exact hrl
    · rcases hfinds.of_found k hk with hnone | hseen
      · cases hnone
      · rw [hk, hunique k (denotes_iff.mpr hseen)]

end

/-- The blocks around a loop with a zero-trip guard, which is in the block of the marker. -/
inductive GuardBlock
  | marker
  | preheader
  | loop
  | rest
  deriving DecidableEq, Repr

def guarded : BranchNest GuardBlock Unit ℕ where
  getLoopFor
    | .loop => some ()
    | _ => none
  getHeader _ := .loop
  getParentLoop _ := none
  getLoopPreheader _ := some .preheader
  depth _ := 1
  depth_parent := by simp
  insts
    | .marker => [.marker (some 0)]
    | _ => [.other]
  successors
    | .marker => [.preheader, .rest]
    | .preheader => [.loop]
    | .loop => [.loop, .rest]
    | .rest => []
  getLoopFor_header _ := rfl
  getUncondBr
    | .preheader => some .loop
    | _ => none
  successors_uncondBr := by
    rintro ⟨⟩ s ⟨⟩
    rfl
  preheader_successors := by
    rintro - p ⟨⟩
    rfl

theorem findMarkedLoop_exact_guarded : Denotes guarded .marker () ∧
    findMarkedLoop guarded .marker = some () := by
  have h : Denotes guarded .marker () :=
    .inr ⟨.preheader, List.mem_cons_self .., rfl, rfl⟩
  exact ⟨h, (findMarkedLoop_exact guarded .marker).2 () h fun _ _ => rfl⟩

end Spork.Unroll.Gem
