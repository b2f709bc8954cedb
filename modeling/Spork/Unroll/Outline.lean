import Spork.Unroll.Probe
import Spork.Unroll.Refinement

/-!
# The outlined loop computes what the loop does

`buildProbe` outlines a sequential copy of an accepted loop. The copy counts its iterations from
zero and computes the induction from the count, it leaves when the count has reached the trip
count, and it returns the values that the code behind the loop uses. `transplantProbe` puts a call
of it in the place of the loop. As long as no flag of its arithmetic is violated, it computes what
the loop does for the bound that the call is given.

## Main definitions

* `liveOuts`, `loop`, `probe` — the outlined function.
* `spliced` — what the code behind the loop reads after the call.
* `Represents` — the induction is an integer.
* `probe_eq`, `spliced_eq` — the copy on the values of the protocol.
* `outlined_refines` — the copy against the runs of the loop.
-/
namespace Spork.Unroll.Outline

open LLVM
open FormBatchedLoop (LoopProtocol Operand)
open Probe (FlagsTruthful trips tripCount index nextIndex continues)

variable {w m : ℕ} {V M D X : Type} (P : LoopProtocol w m V M D X) (flags : Flags)

/-! ## The outlined function -/

section
variable [DecidableEq D] (exitPhis : List X)

def addLiveOut (LiveOuts : List D) (x : X) : List D :=
  match P.exitPhi x with
  | .inLoop d => if d ∈ LiveOuts then LiveOuts else LiveOuts ++ [d]
  | .outside _ => LiveOuts

/-- Values that flow out of the loop. -/
def liveOuts : List D := exitPhis.foldl (addLiveOut P) []

/-- What an exit phi is given in the place of its value from the latch, when the call has returned
the live-outs. -/
def spliced (returned : List V) (x : X) : Option V :=
  match P.exitPhi x with
  | .inLoop d => ((liveOuts P exitPhis).idxOf? d).bind (returned[·]?)
  | .outside v => some v

variable (ofIndex : BitVec w → V)

/-- The loop of the copy from the count `idx` on; `none` is poison, or that the fuel is spent. The
phi of the induction has been replaced by the sum of start and count. -/
def loop (n : BitVec w) : ℕ → BitVec w → (Fin m → V) → M → Option ((D → V) × M)
  | 0, _, _, _ => none
  | fuel + 1, idx, phis, mem => do
      let i ← index (.direct P.predicate flags) P.start idx
      let r := P.body (Function.update phis P.inductionIndex (ofIndex i)) mem
      let idxNext ← nextIndex idx
      if continues (.direct P.predicate flags) n idxNext then
        loop n fuel idxNext (fun k => (P.latchVal k).eval r.1) r.2
      else return r

/-- The outlined function, called with the bound. -/
def probe (fuel : ℕ) (mem : M) (bound : BitVec w) : Option (List V × M) := do
  let n ← tripCount (.direct P.predicate flags) P.start bound
  let r ← loop P flags ofIndex n fuel 0 P.init mem
  return ((liveOuts P exitPhis).map r.1, r.2)

end

/-! ## What the copy computes -/

/-- The induction is an integer, in the phi and at the end of an iteration. -/
structure Represents (ofIndex : BitVec w → V) : Prop where
  init_eq : P.init P.inductionIndex = ofIndex P.start
  next_eq : ∀ phis mem, (P.body phis mem).1 P.nextInduction =
    ofIndex (P.index (phis P.inductionIndex) + 1)

variable {P flags} {ofIndex : BitVec w → V} {mem : M} {bound : BitVec w}

theorem Represents.after (h : Represents P ofIndex) (mem : M) (k : ℕ) :
    (P.after mem k).1 P.inductionIndex = ofIndex (P.indexAt k) := by
  cases k with
  | zero => simpa [LoopProtocol.after, LoopProtocol.indexAt] using h.init_eq
  | succ k =>
    rw [P.after_succ]
    simp only [P.latch_induction, Operand.eval, LoopProtocol.defs, h.next_eq, P.index_after]
    rw [LoopProtocol.indexAt, LoopProtocol.indexAt, BitVec.ofNat_add, BitVec.add_assoc]
    rfl

/-- The trip count of a loop whose flags are truthful. -/
theorem tripCount_eq (hlt : P.predicate.lt P.start bound = true)
    (hflags : FlagsTruthful (.direct P.predicate flags) P.start bound) :
    tripCount (.direct P.predicate flags) P.start bound = some (bound - P.start) ∧
      P.predicate.val (bound - P.start) = trips P.predicate P.start bound := by
  obtain ⟨hmin, hmax⟩ := Probe.tripCount_isSome_iff.mp hflags.1
  have hlt' := (Pred.lt_iff _ _ _).mp hlt
  refine ⟨sub_eq_some hflags.1, ?_⟩
  rw [P.predicate.val_sub hmin hmax, trips]
  omega

/-- The copy goes on as long as the count is below the trip count. -/
theorem continues_iff (hlt : P.predicate.lt P.start bound = true)
    (hflags : FlagsTruthful (.direct P.predicate flags) P.start bound) {k : ℕ}
    (hk : k ≤ trips P.predicate P.start bound) :
    continues (.direct P.predicate flags) (bound - P.start) (BitVec.ofNat w k) = true ↔
      k < trips P.predicate P.start bound := by
  obtain ⟨-, hval⟩ := tripCount_eq hlt hflags
  have hmax := P.predicate.val_le_maxVal (bound - P.start)
  change P.predicate.lt (BitVec.ofNat w k) (bound - P.start) = true ↔ _
  rw [Pred.lt_iff, hval, P.predicate.val_ofNat (by omega)]
  omega

/-- One trip of the copy. -/
theorem loop_succ (hrep : Represents P ofIndex) (hlt : P.predicate.lt P.start bound = true)
    (hflags : FlagsTruthful (.direct P.predicate flags) P.start bound) {k : ℕ}
    (hk : k < trips P.predicate P.start bound) (fuel : ℕ) :
    loop P flags ofIndex (bound - P.start) (fuel + 1) (BitVec.ofNat w k) (P.after mem k).1
        (P.after mem k).2 =
      if k + 1 < trips P.predicate P.start bound then
        loop P flags ofIndex (bound - P.start) fuel (BitVec.ofNat w (k + 1))
          (P.after mem (k + 1)).1 (P.after mem (k + 1)).2
      else some (P.body (P.after mem k).1 (P.after mem k).2) := by
  have hindex : index (.direct P.predicate flags) P.start (BitVec.ofNat w k) =
      some (P.indexAt k) := add_eq_some (hflags.2 k hk).2
  have hnext : nextIndex (BitVec.ofNat w k) = some (BitVec.ofNat w (k + 1)) := by
    rw [BitVec.ofNat_add]
    exact add_eq_some (hflags.2 k hk).1
  have hphis : Function.update (P.after mem k).1 P.inductionIndex (ofIndex (P.indexAt k)) =
      (P.after mem k).1 := by
    rw [← hrep.after mem k, Function.update_eq_self]
  simp only [loop, hindex, hnext, hphis, Option.bind_eq_bind, Option.bind_some,
    continues_iff hlt hflags (Nat.succ_le_of_lt hk)]
  rfl

/-- The copy goes through the iterations that are left. -/
theorem loop_eq (hrep : Represents P ofIndex) (hlt : P.predicate.lt P.start bound = true)
    (hflags : FlagsTruthful (.direct P.predicate flags) P.start bound) (mem : M) (d : ℕ) :
    ∀ k fuel, k + d + 1 = trips P.predicate P.start bound → d + 1 ≤ fuel →
      loop P flags ofIndex (bound - P.start) fuel (BitVec.ofNat w k) (P.after mem k).1
        (P.after mem k).2 = some (P.body (P.after mem (k + d)).1 (P.after mem (k + d)).2) := by
  induction d with
  | zero =>
    intro k fuel hk hfuel
    obtain ⟨fuel, rfl⟩ : ∃ n, fuel = n + 1 := ⟨fuel - 1, by omega⟩
    rw [loop_succ hrep hlt hflags (by omega), if_neg (by omega)]
    rfl
  | succ d ih =>
    intro k fuel hk hfuel
    obtain ⟨fuel, rfl⟩ : ∃ n, fuel = n + 1 := ⟨fuel - 1, by omega⟩
    rw [loop_succ hrep hlt hflags (by omega), if_pos (by omega),
      ih (k + 1) fuel (by omega) (by omega)]
    rw [show k + 1 + d = k + (d + 1) by omega]

section
variable [DecidableEq D] {exitPhis : List X}

/-- **The copy** ends with the memory and the live-outs that the loop has when it has come to the
bound. -/
theorem probe_eq (hrep : Represents P ofIndex) (hlt : P.predicate.lt P.start bound = true)
    (hflags : FlagsTruthful (.direct P.predicate flags) P.start bound) (mem : M) {fuel : ℕ}
    (hfuel : trips P.predicate P.start bound ≤ fuel) :
    probe P flags exitPhis ofIndex fuel mem bound =
      some ((liveOuts P exitPhis).map (P.defs mem (trips P.predicate P.start bound - 1)),
        (P.after mem (trips P.predicate P.start bound)).2) := by
  obtain ⟨hcount, -⟩ := tripCount_eq hlt hflags
  have hlt' := (Pred.lt_iff _ _ _).mp hlt
  obtain ⟨d, hd⟩ : ∃ d, trips P.predicate P.start bound = d + 1 :=
    ⟨trips P.predicate P.start bound - 1, by rw [trips]; omega⟩
  have hloop := loop_eq hrep hlt hflags mem d 0 fuel (by omega) (by omega)
  rw [Nat.zero_add] at hloop
  rw [probe, hcount, Option.bind_eq_bind, Option.bind_some]
  change (loop P flags ofIndex (bound - P.start) fuel (BitVec.ofNat w 0) (P.after mem 0).1
    (P.after mem 0).2).bind _ = _
  rw [hloop, hd]
  rfl

/-! ## Live-outs -/

theorem subset_addLiveOut (l : List D) (x : X) : l ⊆ addLiveOut P l x := by
  rw [addLiveOut]
  split
  · split
    · exact List.Subset.refl l
    · exact List.subset_append_left l _
  · exact List.Subset.refl l

theorem mem_addLiveOut (l : List D) {x : X} {d : D} (h : P.exitPhi x = .inLoop d) :
    d ∈ addLiveOut P l x := by
  rw [addLiveOut]
  simp only [h]
  split
  · assumption
  · simp

theorem subset_foldl (l : List D) : l ⊆ exitPhis.foldl (addLiveOut P) l := by
  induction exitPhis generalizing l with
  | nil => exact List.Subset.refl l
  | cons x exitPhis ih => exact List.Subset.trans (subset_addLiveOut l x) (ih _)

theorem mem_liveOuts {x : X} (hx : x ∈ exitPhis) {d : D} (h : P.exitPhi x = .inLoop d) :
    d ∈ liveOuts P exitPhis := by
  obtain ⟨l₁, l₂, rfl⟩ := List.append_of_mem hx
  rw [liveOuts, List.foldl_append, List.foldl_cons]
  exact subset_foldl _ (mem_addLiveOut _ h)

/-- **An exit phi** reads after the call what it would have received from the latch. -/
theorem spliced_eq {x : X} (hx : x ∈ exitPhis) (dfn : D → V) :
    spliced P exitPhis ((liveOuts P exitPhis).map dfn) x = some ((P.exitPhi x).eval dfn) := by
  rw [spliced]
  cases h : P.exitPhi x with
  | outside v => rfl
  | inLoop d =>
    have hd := mem_liveOuts hx h
    obtain ⟨i, hi⟩ := Option.isSome_iff_exists.mp (List.isSome_idxOf?.mpr hd)
    obtain ⟨hlt, heq, -⟩ := List.idxOf?_eq_some_iff.mp hi
    simp [hi, hlt, heq, Operand.eval]

end

/-! ## The copy against the loop -/

section
open LoopIR MatchProtocol

variable {B I C A N : Type} [DecidableEq B] [DecidableEq I] [DecidableEq C] {F : Function B I C}
  {L : Loop F} {P : MatchProtocol.LoopProtocol B I C} {S : Semantics B I C A N}
  {body : (Fin P.Phis.length → Val A) → N → (I → Val A) × N} {s₀ : LoopIR.State B I A N}

theorem represents (h : Matched L P) (hunit : UnitSteps L S) (hbody : IsBody L P S s₀.env body)
    (hinit : ∃ x, eval S s₀.env (P.Phis.get ⟨P.InductionIndex, h.inductionIndex_lt⟩).Init =
      .int (width (phiTy F P.Induction)) x) :
    Represents (toProtocol h hunit hbody) (.int _) where
  init_eq := by
    obtain ⟨x, hx⟩ := hinit
    change eval S s₀.env (P.Phis.get ⟨P.InductionIndex, h.inductionIndex_lt⟩).Init = .int _
      (MatchProtocol.index _ (eval S s₀.env (P.Phis.get ⟨P.InductionIndex, _⟩).Init))
    rw [hx, index_int]
  next_eq := by
    intro phis mem
    obtain ⟨s, s', hplace, hphis, -, -, hwithin, hplace', hend⟩ := hbody phis mem
    have hnext := hunit P.Induction _ P.Latch _ h.unitAddRec (eq_int h.induction_integer) h.latch
      h.next_incoming s s' hplace hwithin hplace'
    change (body phis mem).1 P.NextInduction = .int _
      (MatchProtocol.index _ (phis ⟨P.InductionIndex, h.inductionIndex_lt⟩) + 1)
    rw [hend, ← hphis, h.inductionIndex_eq]
    exact hnext

/-- **The outlined loop computes what the loop does.** Where no flag is violated, the call that is
put in the place of an accepted loop returns, and some run of the loop reads the bound of the call
in every iteration, and leaves with the same memory and the same values for the code behind it. -/
theorem outlined_refines (hmatch : matchLoopProtocol L = .ok P) (hunit : UnitSteps L S)
    (hplace : s₀.place = ⟨P.Preheader, []⟩) (hbody : IsBody L P S s₀.env body)
    (hnext : P.NextCasts = []) (hcasts : P.BoundCasts = []) (hty : P.BoundTy = phiTy F P.Induction)
    (hinit : ∃ x, eval S s₀.env
      (P.Phis.get ⟨P.InductionIndex, (matched_of_ok hmatch).inductionIndex_lt⟩).Init =
        .int (width (phiTy F P.Induction)) x)
    {bound : BitVec (width (phiTy F P.Induction))}
    (hlt : P.Predicate.lt (toProtocol (matched_of_ok hmatch) hunit hbody).start bound = true)
    {flags : Flags} (hflags : FlagsTruthful (.direct P.Predicate flags)
      (toProtocol (matched_of_ok hmatch) hunit hbody).start bound) :
    ∃ returned mem s',
      (∃ fuel₀, ∀ fuel, fuel₀ ≤ fuel → probe (toProtocol (matched_of_ok hmatch) hunit hbody) flags
        (F.phis P.Exit).attach (.int _) fuel s₀.mem bound = some (returned, mem)) ∧
      Leaves (matched_of_ok hmatch) hunit hbody (fun _ => bound)
        (trips P.Predicate (toProtocol (matched_of_ok hmatch) hunit hbody).start bound) s' ∧
      s'.mem = mem ∧
      ∀ x, spliced (toProtocol (matched_of_ok hmatch) hunit hbody) (F.phis P.Exit).attach returned
        x = some (phiEnv S F P.Latch P.Exit s'.env x.1) := by
  set h := matched_of_ok hmatch
  set Q := toProtocol h hunit hbody
  have hrep := represents h hunit hbody hinit
  have hlt' := (Pred.lt_iff _ _ _).mp hlt
  obtain ⟨d, hd⟩ : ∃ d, trips P.Predicate Q.start bound = d + 1 :=
    ⟨trips P.Predicate Q.start bound - 1, by rw [trips]; omega⟩
  have hbound : P.Predicate.val bound = P.Predicate.val Q.start + (d + 1 : ℕ) := by
    rw [← hd, trips]
    omega
  have hval : ∀ k ≤ d + 1, P.Predicate.val (Q.indexAt k) = P.Predicate.val Q.start + k :=
    fun k hk => Q.val_indexAt (b := bound) (by
      change P.Predicate.val _ + _ ≤ P.Predicate.val _
      omega)
  obtain ⟨s', hs'⟩ := h.exists_leaves hunit hplace hbody hnext hcasts hty (fun _ => bound) (n := d)
    (fun k hk => by
      rw [Pred.lt_iff, hval (k + 1) (by omega), hbound]
      push_cast
      omega)
    (by
      rw [← Bool.not_eq_true, Pred.lt_iff, not_lt, hval (d + 1) le_rfl, hbound])
  refine ⟨_, _, s', ⟨_, fun fuel hfuel => probe_eq hrep hlt hflags s₀.mem hfuel⟩, hd ▸ hs', ?_,
    fun x => ?_⟩
  · rw [hs'.mem_eq]
    exact congrArg (fun n => (Q.after s₀.mem n).2) hd.symm
  · rw [spliced_eq (List.mem_attach _ x), hs'.exit_eq x]
    exact congrArg (fun n => some ((Q.exitPhi x).eval (Q.defs s₀.mem (n - 1)))) hd

/-- The sum from 5 up to 20, of increments that are `nuw`. -/
theorem outlined_refines_sumLoop : ∃ returned mem s',
    (∃ fuel₀, ∀ fuel, fuel₀ ≤ fuel →
      probe (toProtocol (matched_of_ok match_sumLoop) sum_unitSteps sum_isBody) ⟨true, false⟩
        (sumFunction.phis .exit).attach (.int 32) fuel () 20 = some (returned, mem)) ∧
      Leaves (matched_of_ok match_sumLoop) sum_unitSteps sum_isBody (fun _ => 20) 15 s' ∧
      s'.mem = mem ∧
      ∀ x, spliced (toProtocol (matched_of_ok match_sumLoop) sum_unitSteps sum_isBody)
        (sumFunction.phis .exit).attach returned x =
          some (phiEnv sumSemantics sumFunction .loop .exit s'.env x.1) :=
  outlined_refines match_sumLoop sum_unitSteps rfl sum_isBody rfl rfl rfl ⟨5, rfl⟩ (by decide)
    (Probe.probeFaithful_of_short (by decide) (show Pred.ult.lt (5 : BitVec 32) 20 = true by decide)
      (by unfold Probe.IncrementDefined; decide) (by decide)).1

end

end Spork.Unroll.Outline
