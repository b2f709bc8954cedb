import Spork.Unroll.ProtocolRuns

/-!
# Accepted loops follow the protocol

What `matchLoopProtocol` accepts is the loop that `formBatchedLoop` takes. An iteration is a
function of the header phis and the memory, whatever the bound it loads: two iterations from the
same values agree on everything but the exit condition, which only the latch branch uses. So the
loop runs through the values of its `FormBatchedLoop.LoopProtocol`, and what can be seen of a run
is that it publishes one index after the other and loads the bound, until the guard of one more
iteration fails.

## Main definitions

* `iterationEvents`, `Inv.latch` — the end of an iteration.
* `Same`, `Same.within` — two iterations from the same values.
* `exitTest` — the exit condition, as the batch guard takes it.
* `UnitSteps`, `IsBody` — what is asked of scalar evolution and of the body.
* `toProtocol`, `Follows` — the loop that has been found, and how a run follows it.
* `accepted_follows` — every run does.
-/
namespace Spork.Unroll.MatchProtocol

open LLVM SSA LoopIR

variable {B I C A M : Type} [DecidableEq B] [DecidableEq I] [DecidableEq C] {F : Function B I C}
  {L : Loop F} {P : LoopProtocol B I C} {S : Semantics B I C A M}

/-! ## The end of the latch -/

section
variable {α β : Type} [DecidableEq α]

omit [DecidableEq α] in
/-- What one element of a list makes of it. -/
theorem flatMap_one {l : List α} {b : α} (hnodup : l.Nodup) (hb : b ∈ l) {f : α → List β}
    (hf : ∀ i ∈ l, i ≠ b → f i = []) : l.flatMap f = f b := by
  obtain ⟨l₁, l₂, rfl⟩ := List.append_of_mem hb
  rw [List.nodup_middle, List.nodup_cons, List.mem_append, not_or] at hnodup
  have h₁ : l₁.flatMap f = [] := List.flatMap_eq_nil_iff.mpr fun i hi =>
    hf i (by simp [hi]) fun h => hnodup.1.1 (h ▸ hi)
  have h₂ : l₂.flatMap f = [] := List.flatMap_eq_nil_iff.mpr fun i hi =>
    hf i (by simp [hi]) fun h => hnodup.1.2 (h ▸ hi)
  rw [List.flatMap_append, List.flatMap_cons, h₁, h₂, List.nil_append, List.append_nil]

/-- What two elements of a list make of it. -/
theorem flatMap_two {l : List α} {a b : α} (hnodup : l.Nodup) (ha : a ∈ l) (hb : b ∈ l)
    (hne : a ≠ b) {f : α → List β} (hf : ∀ i ∈ l, i ≠ a → i ≠ b → f i = []) :
    l.flatMap f = if l.idxOf a < l.idxOf b then f a ++ f b else f b ++ f a := by
  induction l with
  | nil => cases ha
  | cons c l ih =>
    rw [List.nodup_cons] at hnodup
    rw [List.flatMap_cons]
    by_cases hca : c = a
    · subst hca
      have hb' : b ∈ l := (List.mem_cons.mp hb).resolve_left hne.symm
      have hrest := flatMap_one hnodup.2 hb' (f := f) fun i hi hib =>
        hf i (List.mem_cons_of_mem _ hi) (fun h => hnodup.1 (h ▸ hi)) hib
      rw [hrest, if_pos]
      rw [List.idxOf_cons_self, List.idxOf_cons_ne _ hne]
      exact Nat.succ_pos _
    · by_cases hcb : c = b
      · subst hcb
        have ha' : a ∈ l := (List.mem_cons.mp ha).resolve_left hne
        have hrest := flatMap_one hnodup.2 ha' (f := f) fun i hi hia =>
          hf i (List.mem_cons_of_mem _ hi) hia (fun h => hnodup.1 (h ▸ hi))
        rw [hrest, if_neg]
        rw [List.idxOf_cons_self]
        exact Nat.not_lt_zero _
      · rw [hf c List.mem_cons_self hca hcb, List.nil_append, List.idxOf_cons_ne _ hca,
          List.idxOf_cons_ne _ hcb, ih hnodup.2 ((List.mem_cons.mp ha).resolve_left (Ne.symm hca))
            ((List.mem_cons.mp hb).resolve_left (Ne.symm hcb)) fun i hi =>
              hf i (List.mem_cons_of_mem _ hi)]
        simp only [Nat.succ_lt_succ_iff]

end

/-- What can be seen of an iteration: the next induction is stored, and the bound is loaded. -/
def iterationEvents (F : Function B I C) (P : LoopProtocol B I C)
    (ptr boundPtr next bound : Val A) : List (Event B I A) :=
  let store := .store ptr (P.ProgressCasts.eval next)
  let load := .load boundPtr bound
  if (F.insts P.Latch).idxOf P.ProgressStore < (F.insts P.Latch).idxOf P.BoundLoad then
    [store, load]
  else [load, store]

/-- **At the end of the latch.** -/
theorem Inv.latch (h : Matched L P) {s₁ s : State B I A M} (hinv : Inv L P S s₁ s)
    (hplace : s.place = ⟨P.Latch, []⟩) :
    s.trace = s₁.trace ++ iterationEvents F P (eval S s₁.env P.ProgressPtr)
      (eval S s₁.env P.BoundPtr) (s.env P.NextInduction) (s.env P.BoundLoad) ∧
    Fits F P.BoundLoad (s.env P.BoundLoad) ∧
    target S F P.Latch s.env =
      some (if lessThan P.Predicate (P.NextCasts.eval (s.env P.NextInduction))
        (P.BoundCasts.eval (s.env P.BoundLoad)) then L.header else P.Exit) := by
  obtain ⟨σ, hreach⟩ := hinv.reach
  obtain ⟨l, hinsts, htrace, -, hfits⟩ := hinv.trace
  have hconsistent := hinv.consistent
  rw [hplace] at hinsts hreach hconsistent
  obtain rfl : F.insts P.Latch = l := by simpa using hinsts
  have hmem : P.Latch ∈ L.blocks := L.latch_mem _ h.latch
  refine ⟨?_, hfits h.boundLoad_mem, ?_⟩
  · have hnodup : (F.insts P.Latch).Nodup := Region.insts_nodup (G := L.region) P.Latch
    rw [htrace, flatMap_two hnodup h.progressStore_mem h.boundLoad_mem h.progressStore_ne
      fun i _ hstore hload => by rw [events, if_neg hstore, if_neg hload]]
    rw [events, events, if_pos rfl, if_neg h.progressStore_ne.symm, if_pos rfl,
      eval_outside h.progress_outside hinv.outside, eval_outside h.ptr_outside hinv.outside]
    rfl
  · obtain ⟨x, y, l, l', hcompare, hnext, hbound, hexit⟩ := h.compare
    have hcompareMem : P.ExitCompare ∈ P.ExitConditionInsts := by simp [hexit]
    have hparent := h.exitCondition_mem hcompareMem
    have hphi := h.exitCondition_not_phi hcompareMem
    have hdom : L.region.Dominates P.ExitCompare ⟨P.Latch, []⟩ :=
      L.ssa_term _ hmem _ (by simp [h.branch, Terminator.operands]) hparent
    have hnotphi : ∀ b, P.ExitCompare ∉ L.region.phis b := by
      intro b hb
      have := (F.isPHI_iff b _ (List.mem_append_left _ hb)).mpr hb
      simp [hphi] at this
    have hoperand : ∀ {r V l c}, CastPath F (.inst r) V l c → F.parent r ∈ L.blocks →
        V ∈ (F.instruction P.ExitCompare).operands → ∀ d, V = .inst d →
        L.region.Dominates d ⟨P.Latch, []⟩ := by
      intro r V l c hpath hr hV d hd
      obtain ⟨⟨j, rfl, hj⟩, -⟩ := hpath.mem_blocks h.isLCSSAForm hr
      cases hd
      exact (L.ssa _ d hV hphi hparent hj).dominates hdom hnotphi
    have hholds : Defines S F P.ExitCompare s.env := hconsistent _ hnotphi hdom
    rw [Defines, hcompare] at hholds
    have hload : F.parent P.BoundLoad ∈ L.blocks := h.load_parent ▸ hmem
    have hx := hnext.eval_eq h.isLCSSAForm h.next_mem hconsistent
      (hoperand hnext h.next_mem (by simp [hcompare, Instruction.operands]))
    have hy := hbound.eval_eq h.isLCSSAForm hload hconsistent
      (hoperand hbound hload (by simp [hcompare, Instruction.operands]))
    have hcond : s.env P.ExitCompare = ofBool (lessThan P.Predicate (P.NextCasts.eval
        (s.env P.NextInduction)) (P.BoundCasts.eval (s.env P.BoundLoad))) := by
      rw [← hx, ← hy]
      exact hholds
    simp only [target, h.branch, eval, hcond, isTrue_ofBool]

/-! ## Two iterations from the same values -/

variable (L P) in
/-- Two runs have come to the same place, with the same memory, and agree on what the loop has
computed, but for the exit condition. -/
structure Same (s s' : State B I A M) : Prop where
  reach : ∃ σ, L.region.Reach σ s.place
  place_eq : s.place = s'.place
  mem_eq : s.mem = s'.mem
  agrees : L.region.Agrees (· ∈ P.ExitConditionInsts) s.place s.env s'.env
  outside : ∀ i, F.parent i ∉ L.blocks → s.env i = s'.env i

namespace Same

variable {s s' : State B I A M}

omit [DecidableEq I] [DecidableEq C] in
/-- They agree on what is used, unless the exit condition uses it. -/
theorem eval_eq (hs : Same L P s s') {v : Value I C}
    (hexit : ∀ d, v = .inst d → d ∉ P.ExitConditionInsts)
    (hdom : ∀ d, v = .inst d → F.parent d ∈ L.blocks → L.region.Dominates d s.place) :
    eval S s.env v = eval S s'.env v := by
  refine eval_congr fun d hd => ?_
  by_cases hmem : F.parent d ∈ L.blocks
  · exact hs.agrees d (hexit d hd) (hdom d hd hmem)
  · exact hs.outside d hmem

theorem inst (h : Matched L P) (hs : Same L P s s') {b : B} {i : I} {rest : List I}
    {input input' : Val A} (hplace : s.place = ⟨b, i :: rest⟩) :
    Same L P (s.next S F b i rest input) (s'.next S F b i rest input') := by
  obtain ⟨σ, hreach⟩ := hs.reach
  rw [hplace] at hreach
  have hb : b ∈ L.blocks := Reach.mem_blocks hreach
  have hi : i ∈ F.insts b := hreach.suffix.mem List.mem_cons_self
  have hparent : F.parent i = b := F.parent_eq b i (List.mem_append_right _ hi)
  have hcheck := h.body b hb i (List.mem_append_right _ hi)
  have hphi : (F.instruction i).isPHI = false := by
    rw [← Bool.not_eq_true, F.isPHI_iff b i (List.mem_append_right _ hi)]
    exact fun hp => Region.not_mem_insts (G := L.region) hp hi
  have hexec : i ∉ P.ExitConditionInsts → ∀ mem,
      (exec S F input s.env mem i).1 = (exec S F input' s'.env mem i).1 ∧
        (exec S F input s.env mem i).2.1 = (exec S F input' s'.env mem i).2.1 := by
    intro hE mem
    have hload : i ≠ P.BoundLoad := fun heq => hE (heq ▸ h.boundLoad_exit)
    refine exec_congr hcheck hload hphi (fun v hv => hs.eval_eq (fun d hd hdE => hE ?_) ?_) ..
    · exact h.mem_of_operand hdE (L.blocks_subset (hparent ▸ hb)) (hd ▸ hv)
    · rintro d rfl hd
      exact hplace ▸ L.ssa i d hv hphi (hparent ▸ hb) hd b rest
  have hne : ∀ d, F.parent d ∉ L.blocks → d ≠ i := by
    rintro d hd rfl
    exact hd (hparent ▸ hb)
  refine ⟨⟨i :: σ, .inst hreach⟩, rfl, ?_, ?_, fun d hd => ?_⟩
  · rw [next_mem, next_mem, ← hs.mem_eq]
    by_cases hE : i ∈ P.ExitConditionInsts
    · rw [h.exec_mem hE, h.exec_mem hE]
    · exact (hexec hE s.mem).2
  · refine Region.Agrees.inst (by rw [← hplace]; exact hs.agrees)
      (fun d hd => next_env_of_ne _ _ _ _ _ hd) (fun d hd => next_env_of_ne _ _ _ _ _ hd)
      fun hE => ?_
    rw [next_env_self, next_env_self, ← hs.mem_eq]
    exact (hexec hE s.mem).1
  · rw [next_env_of_ne _ _ _ _ _ (hne d hd), next_env_of_ne _ _ _ _ _ (hne d hd), hs.outside d hd]

/-- A phi is no part of the exit condition, and uses none. -/
theorem incoming_eq (h : Matched L P) (hs : Same L P s s') {b : B} (hplace : s.place = ⟨b, []⟩)
    {c : I} {v : Value I C} (hc : F.parent c ∈ F.blocks)
    (hv : (b, v) ∈ (F.instruction c).incoming) : eval S s.env v = eval S s'.env v := by
  obtain ⟨σ, hreach⟩ := hs.reach
  have hb : b ∈ L.blocks := by simpa [hplace] using Reach.mem_blocks hreach
  have hphi : (F.instruction c).isPHI = true := by
    cases hk : F.instruction c <;> simp [hk, Instruction.incoming, Instruction.isPHI] at hv ⊢
  have hop : v ∈ (F.instruction c).operands := by
    cases hk : F.instruction c with
    | PHINode ty incoming =>
      rw [hk] at hv
      exact List.mem_map.mpr ⟨(b, v), hv, rfl⟩
    | _ => simp [hk, Instruction.incoming] at hv
  refine hs.eval_eq (fun d hd hdE => ?_) ?_
  · have := h.exitCondition_not_phi (h.mem_of_operand hdE hc (hd ▸ hop))
    simp [hphi] at this
  · rintro d rfl hd
    exact hplace ▸ L.ssa_phi c b hb d hv hd

/-- The values of the phis are the same. -/
theorem phiEnv_eq (h : Matched L P) (hs : Same L P s s') {b t : B}
    (hplace : s.place = ⟨b, []⟩) (ht : t ∈ F.blocks) (hnext : t ∈ (F.terminator b).successors)
    {c : I} (hc : c ∈ F.phis t) : phiEnv S F b t s.env c = phiEnv S F b t s'.env c := by
  obtain ⟨v, hv⟩ := F.incoming_covers b t hnext c hc
  rw [phiEnv, phiEnv, if_pos hc, if_pos hc]
  cases hincoming : (F.instruction c).getIncomingValueForBlock b with
  | none =>
    rw [Instruction.getIncomingValueForBlock, Option.map_eq_none_iff,
      List.find?_eq_none] at hincoming
    exact absurd (by simp) (hincoming _ hv)
  | some v' =>
    rw [Instruction.getIncomingValueForBlock, Option.map_eq_some_iff] at hincoming
    obtain ⟨⟨b', v''⟩, hfind, rfl⟩ := hincoming
    obtain rfl : b' = b := by simpa using List.find?_some hfind
    refine hs.incoming_eq h hplace ?_ (List.mem_of_find?_eq_some hfind)
    rw [F.parent_eq t c (List.mem_append_left _ hc)]
    exact ht

theorem edge (h : Matched L P) (hs : Same L P s s') {b t : B}
    (hplace : s.place = ⟨b, []⟩) (htarget : target S F b s.env = some t) (hmem : t ∈ L.blocks)
    (hne : t ≠ L.header) : Same L P (s.enter S F t) (s'.enter S F t) := by
  obtain ⟨σ, hreach⟩ := hs.reach
  have hplace' := hs.place_eq ▸ hplace
  rw [hplace] at hreach
  have hnext : L.region.next b t := ⟨target_mem htarget, hmem, hne⟩
  have henv : ∀ {s : State B I A M} {d}, d ∉ F.phis t → (s.enter S F t).env d = s.env d :=
    fun hd => phiEnv_of_not_mem _ hd
  refine ⟨⟨_, .edge hreach hnext⟩, rfl, hs.mem_eq, ?_, fun d hd => ?_⟩
  · refine Region.Agrees.edge (by rw [← hplace]; exact hs.agrees) hnext (fun d hd => henv hd)
      (fun d hd => henv hd) fun d hd => ?_
    rw [enter_env, enter_env, hplace, hplace']
    exact hs.phiEnv_eq h hplace (L.blocks_subset hmem) hnext.1 hd
  · have hphi : d ∉ F.phis t := fun hphi =>
      hd ((F.parent_eq t d (List.mem_append_left _ hphi)).symm ▸ hmem)
    rw [henv hphi, henv hphi, hs.outside d hd]

/-- The successor of a block, but for the latch, is the same. -/
theorem target_eq (h : Matched L P) (hs : Same L P s s') {b : B} (hplace : s.place = ⟨b, []⟩)
    (hlatch : b ≠ P.Latch) : target S F b s.env = target S F b s'.env := by
  obtain ⟨σ, hreach⟩ := hs.reach
  have hb : b ∈ L.blocks := by simpa [hplace] using Reach.mem_blocks hreach
  have hop : ∀ v ∈ (F.terminator b).operands, eval S s.env v = eval S s'.env v := by
    intro v hv
    refine hs.eval_eq (fun d hd hdE => ?_) ?_
    · rcases h.exitCondition_user hdE (mem_uses_term (L.blocks_subset hb) (hd ▸ hv)) with heq |
        ⟨j, -, heq⟩
      · cases heq
        exact hlatch rfl
      · cases heq
    · rintro d rfl hd
      exact hplace ▸ L.ssa_term b hb d hv hd
  unfold target
  cases hterm : F.terminator b with
  | UncondBrInst t => rfl
  | CondBrInst cond t f =>
    rw [hterm] at hop
    simp only [hop cond (by simp [Terminator.operands])]
  | other isCall mayThrow args successors =>
    rw [hterm] at hop
    have hargs : args.map (eval S s.env) = args.map (eval S s'.env) := List.map_congr_left hop
    simp only [hargs]

/-- One step in both. -/
theorem step (h : Matched L P) (hs : Same L P s s') {t t' : State B I A M}
    (hstep : L.Step S s t) (hstep' : L.Step S s' t') : Same L P t t' := by
  cases hstep with
  | inst hplace _ =>
    cases hstep' with
    | inst hplace' _ =>
      cases hplace.symm.trans (hs.place_eq.trans hplace')
      exact hs.inst h hplace
    | edge hplace' _ _ _ => cases hplace.symm.trans (hs.place_eq.trans hplace')
  | edge hplace htarget hmem hne =>
    cases hstep' with
    | inst hplace' _ => cases hplace.symm.trans (hs.place_eq.trans hplace')
    | edge hplace' htarget' _ _ =>
      cases hplace.symm.trans (hs.place_eq.trans hplace')
      have heq := hs.target_eq (S := S) h hplace (h.ne_latch htarget hmem hne)
      cases htarget.symm.trans (heq.trans htarget')
      exact hs.edge h hplace htarget hmem hne

/-- A step of the second is possible in the first. -/
theorem exists_step (h : Matched L P) (hs : Same L P s s') {t' : State B I A M}
    (hstep' : L.Step S s' t') : ∃ t, L.Step S s t ∧ Same L P t t' := by
  have hstep : ∃ t, L.Step S s t := by
    cases hstep' with
    | inst hplace' hfits => exact ⟨_, .inst (hs.place_eq.trans hplace') hfits⟩
    | edge hplace' htarget hmem hne =>
      have hplace := hs.place_eq.trans hplace'
      have heq := hs.target_eq (S := S) h hplace (h.ne_latch htarget hmem hne)
      exact ⟨_, .edge hplace (heq.trans htarget) hmem hne⟩
  obtain ⟨t, hstep⟩ := hstep
  exact ⟨t, hstep, hs.step h hstep hstep'⟩

theorem exists_within (h : Matched L P) (hs : Same L P s s') {t' : State B I A M}
    (hwithin' : L.Within S s' t') : ∃ t, L.Within S s t ∧ Same L P t t' := by
  induction hwithin' with
  | refl => exact ⟨s, .refl, hs⟩
  | tail _ hstep' ih =>
    obtain ⟨t, hwithin, hst⟩ := ih
    obtain ⟨t₁, hstep, hst'⟩ := hst.exists_step h hstep'
    exact ⟨t₁, hwithin.tail hstep, hst'⟩

end Same

/-- No step starts at the end of the latch. -/
theorem Matched.stuck (h : Matched L P) {s t : State B I A M} (hplace : s.place = ⟨P.Latch, []⟩) :
    ¬ L.Step S s t := by
  intro hstep
  cases hstep with
  | inst hplace' _ => cases hplace.symm.trans hplace'
  | edge hplace' htarget hmem hne =>
    cases hplace.symm.trans hplace'
    exact h.ne_latch htarget hmem hne rfl

/-- **Iterations from the same values** end in the same values. -/
theorem Same.within (h : Matched L P) {s s' t t' : State B I A M} (hs : Same L P s s')
    (hwithin : L.Within S s t) (hwithin' : L.Within S s' t') (hplace : t.place = ⟨P.Latch, []⟩)
    (hplace' : t'.place = ⟨P.Latch, []⟩) : Same L P t t' := by
  induction hwithin using Relation.ReflTransGen.head_induction_on generalizing s' with
  | refl =>
    rcases Relation.ReflTransGen.cases_head hwithin' with rfl | ⟨_, hstep', -⟩
    · exact hs
    · exact absurd hstep' (h.stuck (hs.place_eq ▸ hplace))
  | head hstep _ ih =>
    rcases Relation.ReflTransGen.cases_head hwithin' with rfl | ⟨_, hstep', hrest'⟩
    · exact absurd hstep (h.stuck (hs.place_eq.trans hplace'))
    · exact ih (hs.step h hstep hstep') hrest'

/-! ## The casts of the exit condition -/

/-- The width of an integer that has been cast. -/
def castWidth : Ty → ℕ → ℕ
  | .int w, _ => w
  | _, w => w

def castBits (op : CastOps) : (ty : Ty) → {w : ℕ} → BitVec w → BitVec (castWidth ty w)
  | .int w, _, x => match op with | .SExt => x.signExtend w | _ => x.setWidth w
  | .ptr, _, x => x
  | .other, _, x => x

def CastChain.width : CastChain → ℕ → ℕ
  | [], w => w
  | s :: c, w => CastChain.width c (castWidth s.2 w)

def CastChain.bits : (c : CastChain) → {w : ℕ} → BitVec w → BitVec (c.width w)
  | [], _, x => x
  | s :: c, _, x => CastChain.bits c (castBits s.1 s.2 x)

theorem castChain_eval (c : CastChain) {w : ℕ} (x : BitVec w) :
    c.eval (.int w x : Val A) = .int (c.width w) (c.bits x) := by
  induction c generalizing w with
  | nil => rfl
  | cons s c ih =>
    have hcast : castVal s.1 s.2 (.int w x : Val A) = .int _ (castBits s.1 s.2 x) := by
      obtain ⟨op, ty⟩ := s
      cases ty <;> rfl
    change CastChain.eval c (castVal s.1 s.2 (.int w x : Val A)) = _
    rw [hcast, ih]
    rfl

/-- Predicate and casts of the exit condition, on integers of two widths. -/
def exitTest (P : LoopProtocol B I C) (w bw : ℕ) : ExitTest w bw (P.NextCasts.width w) where
  predicate := P.Predicate
  nextCasts x := P.NextCasts.bits x
  boundCasts b := (P.BoundCasts.bits b).setWidth _

omit [DecidableEq B] [DecidableEq I] [DecidableEq C] in
/-- The loop goes on if the guard of one more iteration holds. -/
theorem lessThan_eq_guard (P : LoopProtocol B I C) {w bw : ℕ} (next : BitVec w) (b : BitVec bw) :
    lessThan P.Predicate (P.NextCasts.eval (.int w next : Val A)) (P.BoundCasts.eval (.int bw b)) =
      createBatchGuard (exitTest P w bw) next 1 b := by
  rw [castChain_eval, castChain_eval]
  rfl

/-! ## The loop that the matcher has found -/

/-- The width of an integer type. -/
def width : Ty → ℕ
  | .int w => w
  | _ => 0

theorem eq_int {ty : Ty} (h : ty.isIntegerTy = true) : ty = .int (width ty) := by
  cases ty <;> first | rfl | cases h

/-- A value read as an integer. -/
def index (w : ℕ) : Val A → BitVec w
  | .int _ x => x.setWidth w
  | .other _ => 0

@[simp] theorem index_int {w : ℕ} (x : BitVec w) : index w (.int w x : Val A) = x :=
  BitVec.setWidth_eq x

variable (L S) in
/-- What a phi receives from the latch. -/
def operand (env₀ : I → Val A) : Value I C → FormBatchedLoop.Operand I (Val A)
  | .inst i => if L.contains i then .inLoop i else .outside (env₀ i)
  | .const c => .outside (S.const c)

variable (L S) in
/-- What scalar evolution says of a phi: its next value is one more. -/
def UnitSteps : Prop :=
  ∀ c w Latch v, L.isUnitAddRec c = true → phiTy F c = .int w → L.getLoopLatch = some Latch →
    (F.instruction c).getIncomingValueForBlock Latch = some v →
    ∀ s s' : State B I A M, s.place = ⟨L.header, F.insts L.header⟩ → L.Within S s s' →
      s'.place = ⟨Latch, []⟩ → eval S s'.env v = .int w (index w (s.env c) + 1)

variable (L P S) in
/-- The body as a function: an iteration from each tuple of phis and each memory, with the values
of the function around the loop. -/
def IsBody (env₀ : I → Val A)
    (body : (Fin P.Phis.length → Val A) → M → (I → Val A) × M) : Prop :=
  ∀ phis mem, ∃ s s' : State B I A M, s.place = ⟨L.header, F.insts L.header⟩ ∧
    (∀ k, s.env (P.Phis.get k).PN = phis k) ∧ (∀ i, F.parent i ∉ L.blocks → s.env i = env₀ i) ∧
    s.mem = mem ∧ L.Within S s s' ∧ s'.place = ⟨P.Latch, []⟩ ∧ body phis mem = (s'.env, s'.mem)

section
variable {env₀ : I → Val A} {body : (Fin P.Phis.length → Val A) → M → (I → Val A) × M}

theorem Matched.inductionIndex_lt (h : Matched L P) : P.InductionIndex < P.Phis.length := by
  have hindex := h.inductionIndex
  cases hget : P.Phis[P.InductionIndex]? with
  | none => simp [hget] at hindex
  | some HP => exact (List.getElem?_eq_some_iff.mp hget).1

theorem Matched.inductionIndex_eq (h : Matched L P) :
    (P.Phis.get ⟨P.InductionIndex, h.inductionIndex_lt⟩).PN = P.Induction := by
  have hindex := h.inductionIndex
  rw [List.getElem?_eq_getElem h.inductionIndex_lt] at hindex
  exact Option.some.inj hindex

theorem Matched.next_latchVal (h : Matched L P) :
    (P.Phis.get ⟨P.InductionIndex, h.inductionIndex_lt⟩).LatchVal = .inst P.NextInduction := by
  have hlatch := (h.incoming _ (List.get_mem P.Phis ⟨_, h.inductionIndex_lt⟩)).2
  rw [h.inductionIndex_eq, h.next_incoming] at hlatch
  exact (Option.some.inj hlatch).symm

omit [DecidableEq I] [DecidableEq C] in
theorem operand_inLoop {v : Value I C} {d : I} (h : operand L S env₀ v = .inLoop d) :
    v = .inst d ∧ F.parent d ∈ L.blocks := by
  cases v with
  | const c => cases h
  | inst i =>
    rw [operand] at h
    split at h
    · next hi =>
      cases h
      exact ⟨rfl, of_decide_eq_true hi⟩
    · cases h

/-- **The loop that the matcher has found**, as the rewriting takes it. -/
def toProtocol (h : Matched L P) (hunit : UnitSteps L S) (hbody : IsBody L P S env₀ body) :
    FormBatchedLoop.LoopProtocol (width (phiTy F P.Induction)) P.Phis.length (Val A) M I
      {c : I // c ∈ F.phis P.Exit} where
  predicate := P.Predicate
  index := index _
  init k := eval S env₀ (P.Phis.get k).Init
  latchVal k := operand L S env₀ (P.Phis.get k).LatchVal
  inductionIndex := ⟨P.InductionIndex, h.inductionIndex_lt⟩
  nextInduction := P.NextInduction
  exitPhi x :=
    ((F.instruction x).getIncomingValueForBlock P.Latch).elim (.outside (env₀ x))
      (operand L S env₀)
  body := body
  latch_induction := by
    rw [h.next_latchVal, operand, Loop.contains, if_pos (by simpa using h.next_mem)]
  next_eq := by
    intro phis mem
    obtain ⟨s, s', hplace, hphis, -, -, hwithin, hplace', hbody⟩ := hbody phis mem
    have hnext := hunit P.Induction _ P.Latch _ h.unitAddRec (eq_int h.induction_integer) h.latch
      h.next_incoming s s' hplace hwithin hplace'
    rw [hbody, ← hphis, h.inductionIndex_eq]
    exact (congrArg (index _) hnext).trans (index_int _)
  exit_latch := by
    rintro ⟨x, hx⟩ d hd
    obtain ⟨V, hV, hphi⟩ := h.exitPhis x hx
    rw [hV] at hd
    obtain ⟨rfl, hmem⟩ := operand_inLoop hd
    obtain ⟨HP, hHP, hlatch⟩ := hphi (by simpa [definedInLoop, Loop.contains] using hmem)
    obtain ⟨k, rfl⟩ := List.get_of_mem hHP
    exact ⟨k, by rw [hlatch]; exact hd⟩

/-- How a run of the loop follows the protocol: where its values are after `n` iterations, which
bounds it has read, and what could be seen of it. -/
structure Follows (h : Matched L P) (hunit : UnitSteps L S) {s₀ : State B I A M}
    (hbody : IsBody L P S s₀.env body) (n : ℕ) (bounds : List (BitVec (width P.BoundTy)))
    (s : State B I A M) : Prop where
  length_eq : bounds.length = n
  place_eq : n ≠ 0 → s.place = ⟨P.Latch, []⟩
  outside : ∀ i, F.parent i ∉ L.blocks → s.env i = s₀.env i
  mem_eq : s.mem = ((toProtocol h hunit hbody).after s₀.mem n).2
  phis_eq : ∀ k, phiEnv S F s.place.block L.header s.env (P.Phis.get k).PN =
    ((toProtocol h hunit hbody).after s₀.mem n).1 k
  exit_eq : n ≠ 0 → ∀ x, phiEnv S F s.place.block P.Exit s.env x.1 =
    (toProtocol h hunit hbody).exitAfter s₀.mem n x
  trace_eq : s.trace = s₀.trace ++ (bounds.mapIdx fun k b =>
    iterationEvents F P (eval S s₀.env P.ProgressPtr) (eval S s₀.env P.BoundPtr)
      (.int _ ((toProtocol h hunit hbody).indexAt (k + 1))) (.int _ b)).flatten
  goes_on : ∀ k b, bounds[k]? = some b → k + 1 < n →
    createBatchGuard (exitTest P _ _) ((toProtocol h hunit hbody).indexAt (k + 1)) 1 b = true
  target_eq : ∀ b, bounds.getLast? = some b → target S F P.Latch s.env =
    some (if createBatchGuard (exitTest P _ _) ((toProtocol h hunit hbody).indexAt n) 1 b
      then L.header else P.Exit)

/-! ## Every run follows the protocol -/

/-- What a phi receives at the end of an iteration. -/
theorem Same.operand_eq (h : Matched L P) {s s' : State B I A M} (hs : Same L P s s')
    (hplace : s.place = ⟨P.Latch, []⟩) (houtside : ∀ i, F.parent i ∉ L.blocks → s.env i = env₀ i)
    {c : I} {v : Value I C} (hc : F.parent c ∈ F.blocks)
    (hv : (P.Latch, v) ∈ (F.instruction c).incoming) :
    eval S s.env v = (operand L S env₀ v).eval s'.env := by
  cases v with
  | const c => rfl
  | inst d =>
    rw [operand]
    by_cases hd : F.parent d ∈ L.blocks
    · rw [if_pos (by simpa [Loop.contains] using hd)]
      exact hs.incoming_eq (S := S) h hplace hc hv
    · rw [if_neg (by simpa [Loop.contains] using hd)]
      exact houtside d hd

omit [DecidableEq I] [DecidableEq C] in
theorem mem_incoming {c : I} {b : B} {v : Value I C}
    (h : (F.instruction c).getIncomingValueForBlock b = some v) :
    (b, v) ∈ (F.instruction c).incoming := by
  rw [Instruction.getIncomingValueForBlock, Option.map_eq_some_iff] at h
  obtain ⟨⟨b', v'⟩, hfind, rfl⟩ := h
  obtain rfl : b' = b := by simpa using List.find?_some hfind
  exact List.mem_of_find?_eq_some hfind

/-- A header phi is one of those the matcher has found. -/
theorem Matched.phi_mem (h : Matched L P) (k : Fin P.Phis.length) :
    (P.Phis.get k).PN ∈ F.phis L.header := by
  rw [← h.phis]
  exact List.mem_map_of_mem (List.get_mem P.Phis k)

theorem Follows.start (h : Matched L P) (hunit : UnitSteps L S) {s₀ : State B I A M}
    (hplace : s₀.place = ⟨P.Preheader, []⟩) (hbody : IsBody L P S s₀.env body) :
    Follows h hunit hbody 0 [] s₀ := by
  refine ⟨rfl, by simp, fun _ _ => rfl, rfl, fun k => ?_, by simp, by simp, by simp, by simp⟩
  rw [hplace, phiEnv, if_pos (h.phi_mem k), (h.incoming _ (List.get_mem P.Phis k)).1]
  rfl

/-- The next iteration starts from the values of the protocol. -/
theorem Follows.outside_enter (h : Matched L P) {hunit : UnitSteps L S} {s₀ s : State B I A M}
    {hbody : IsBody L P S s₀.env body} {n : ℕ} {bounds : List (BitVec (width P.BoundTy))}
    (hs : Follows h hunit hbody n bounds s) {i : I} (hi : F.parent i ∉ L.blocks) :
    (s.enter S F L.header).env i = s₀.env i := by
  rw [enter_env, phiEnv_of_not_mem _ fun hphi => hi ?_]
  · exact hs.outside i hi
  · rw [F.parent_eq L.header i (List.mem_append_left _ hphi)]
    exact L.header_mem

/-- The next iteration goes like the one that shows what the body does. -/
theorem Follows.exists_same (h : Matched L P) {hunit : UnitSteps L S} {s₀ s : State B I A M}
    {hbody : IsBody L P S s₀.env body} {n : ℕ} {bounds : List (BitVec (width P.BoundTy))}
    (hs : Follows h hunit hbody n bounds s) : ∃ t t' : State B I A M,
      Same L P (s.enter S F L.header) t ∧ L.Within S t t' ∧ t'.place = ⟨P.Latch, []⟩ ∧
      body ((toProtocol h hunit hbody).after s₀.mem n).1
        ((toProtocol h hunit hbody).after s₀.mem n).2 = (t'.env, t'.mem) := by
  obtain ⟨t, t', htplace, htphis, htoutside, htmem, htwithin, htplace', htbody⟩ :=
    hbody ((toProtocol h hunit hbody).after s₀.mem n).1
      ((toProtocol h hunit hbody).after s₀.mem n).2
  refine ⟨t, t', ⟨⟨_, .entry⟩, htplace.symm, hs.mem_eq.trans htmem.symm, fun c _ hdom => ?_,
    fun i hi => (hs.outside_enter h hi).trans (htoutside i hi).symm⟩, htwithin, htplace', htbody⟩
  have hc : c ∈ F.phis L.header := hdom _ .entry
  rw [← h.phis, List.mem_map] at hc
  obtain ⟨HP, hHP, rfl⟩ := hc
  obtain ⟨k, rfl⟩ := List.get_of_mem hHP
  exact (hs.phis_eq k).trans (htphis k).symm

/-- **One iteration.** -/
theorem Follows.next (h : Matched L P) (hunit : UnitSteps L S) {s₀ s s' : State B I A M}
    {hbody : IsBody L P S s₀.env body} {n : ℕ} {bounds : List (BitVec (width P.BoundTy))}
    (hs : Follows h hunit hbody n bounds s)
    (hquiet : (termEvents F s.place.block : List (Event B I A)) = [])
    (htarget : target S F s.place.block s.env = some L.header)
    (hwithin : L.Within S (s.enter S F L.header) s') (hplace : s'.place = ⟨P.Latch, []⟩) :
    ∃ b, s'.env P.BoundLoad = .int _ b ∧ Follows h hunit hbody (n + 1) (bounds ++ [b]) s' := by
  obtain ⟨t, t', hstart, htwithin, htplace', htbody⟩ := hs.exists_same h
  set Q := toProtocol h hunit hbody with hQ
  set s₁ := s.enter S F L.header with hs₁
  have hdefs : Q.defs s₀.mem n = t'.env := congrArg Prod.fst htbody
  have hafter : Q.after s₀.mem (n + 1) = (fun k => (Q.latchVal k).eval t'.env, t'.mem) := by
    rw [Q.after_succ, hdefs]
    exact congrArg (Prod.mk _) (congrArg Prod.snd htbody)
  have houtside₁ : ∀ i, F.parent i ∉ L.blocks → s₁.env i = s₀.env i := fun i hi =>
    hs.outside_enter h hi
  have hsame := hstart.within h hwithin htwithin hplace htplace'
  have hinv := Inv.within h rfl hwithin
  have houtside : ∀ i, F.parent i ∉ L.blocks → s'.env i = s₀.env i := fun i hi =>
    (hinv.outside i hi).trans (houtside₁ i hi)
  have hparent : ∀ k, F.parent (P.Phis.get k).PN ∈ F.blocks := by
    intro k
    rw [F.parent_eq L.header _ (List.mem_append_left _ (h.phi_mem k))]
    exact L.blocks_subset L.header_mem
  have hlatchVal : ∀ k, eval S s'.env (P.Phis.get k).LatchVal = (Q.latchVal k).eval t'.env :=
    fun k => hsame.operand_eq h hplace houtside (hparent k)
      (mem_incoming (h.incoming _ (List.get_mem P.Phis k)).2)
  obtain ⟨htrace, hfits, htarget'⟩ := hinv.latch h hplace
  obtain ⟨b, hb⟩ := hfits _ _ _ (h.load.trans (by rw [← eq_int h.integer]))
  have hnext : s'.env P.NextInduction = .int _ (Q.indexAt (n + 1)) := by
    have hone := hunit P.Induction _ P.Latch _ h.unitAddRec (eq_int h.induction_integer) h.latch
      h.next_incoming s₁ s' rfl hwithin hplace
    have hindex : s₁.env P.Induction = (Q.after s₀.mem n).1 Q.inductionIndex :=
      (congrArg s₁.env h.inductionIndex_eq.symm).trans (hs.phis_eq _)
    have hat : index _ (s₁.env P.Induction) = Q.indexAt n :=
      (congrArg (index _) hindex).trans (Q.index_after s₀.mem n)
    refine hone.trans ?_
    rw [hat, FormBatchedLoop.LoopProtocol.indexAt, FormBatchedLoop.LoopProtocol.indexAt,
      BitVec.ofNat_add, BitVec.add_assoc]
    rfl
  rw [hnext, hb] at htrace htarget'
  rw [lessThan_eq_guard] at htarget'
  refine ⟨b, hb, ?_, fun _ => hplace, houtside, ?_, fun k => ?_, fun _ x => ?_, ?_, ?_, ?_⟩
  · rw [List.length_append, hs.length_eq, List.length_singleton]
  · exact hsame.mem_eq.trans (congrArg Prod.snd hafter).symm
  · rw [hplace, phiEnv, if_pos (h.phi_mem k), (h.incoming _ (List.get_mem P.Phis k)).2]
    exact (hlatchVal k).trans (congrFun (congrArg Prod.fst hafter) k).symm
  · obtain ⟨V, hV, -⟩ := h.exitPhis x.1 x.2
    have hexit : Q.exitPhi x = operand L S s₀.env V := by
      simp only [hQ, toProtocol, hV, Option.elim_some]
    have hparentx : F.parent x.1 ∈ F.blocks := by
      rw [F.parent_eq P.Exit x.1 (List.mem_append_left _ x.2)]
      exact (L.exit_mem _ h.exit).1
    rw [hplace, phiEnv, if_pos x.2, hV, FormBatchedLoop.LoopProtocol.exitAfter, hexit,
      Nat.add_sub_cancel, hdefs]
    exact hsame.operand_eq h hplace houtside hparentx (mem_incoming hV)
  · rw [htrace, hs₁, enter_trace, hquiet, List.append_nil, hs.trace_eq, List.append_assoc,
      List.mapIdx_append, List.flatten_append, ← hs₁, eval_outside h.progress_outside houtside₁,
      eval_outside h.ptr_outside houtside₁]
    simp [hs.length_eq, ← hQ]
  · intro k b' hk hlt
    have hlt' : k < bounds.length := by rw [hs.length_eq]; omega
    rw [List.getElem?_append_left hlt'] at hk
    by_cases hlast : k + 1 < n
    · exact hs.goes_on k b' hk hlast
    · obtain rfl : n = k + 1 := by omega
      have hgetLast : bounds.getLast? = some b' := by
        rw [List.getLast?_eq_getElem?, hs.length_eq]
        exact hk
      have hback := hs.target_eq b' hgetLast
      rw [hs.place_eq (by simp)] at htarget
      by_contra hguard
      rw [if_neg hguard, htarget, Option.some.injEq] at hback
      exact h.exit_ne_header hback.symm
  · intro b' hb'
    rw [List.getLast?_concat, Option.some.injEq] at hb'
    rw [← hb']
    exact htarget'

/-- Nothing can be seen of the edges between iterations. -/
theorem Matched.termEvents_reaches (h : Matched L P) {s₀ s : State B I A M}
    (hplace : s₀.place = ⟨P.Preheader, []⟩) {n : ℕ} (hrun : L.Reaches S P.Latch s₀ n s) :
    (termEvents F s.place.block : List (Event B I A)) = [] := by
  cases hrun with
  | start =>
    obtain ⟨t, ht⟩ := h.entry
    simp [hplace, termEvents, ht]
  | next _ _ _ hplace =>
    rw [hplace]
    exact h.termEvents_eq (L.latch_mem _ h.latch)

theorem exists_follows (h : Matched L P) (hunit : UnitSteps L S) {s₀ s : State B I A M}
    (hplace : s₀.place = ⟨P.Preheader, []⟩) (hbody : IsBody L P S s₀.env body) {n : ℕ}
    (hrun : L.Reaches S P.Latch s₀ n s) : ∃ bounds, Follows h hunit hbody n bounds s := by
  induction hrun with
  | start => exact ⟨[], .start h hunit hplace hbody⟩
  | @next n s s' hrun htarget hwithin hplace' ih =>
    obtain ⟨bounds, hs⟩ := ih
    obtain ⟨b, -, hs'⟩ := hs.next h hunit (h.termEvents_reaches hplace hrun) htarget hwithin hplace'
    exact ⟨_, hs'⟩

end

/-! ## A loop that sums its index -/

inductive SumBlock
  | preheader
  | loop
  | exit
  deriving DecidableEq

inductive SumInst
  | progressSlot
  | boundSlot
  | index
  | sum
  | next
  | nextSum
  | store
  | bound
  | test
  | result
  deriving DecidableEq

def sumAccess : Access := ⟨true, 4, .NotAtomic, 1⟩

def sumInstruction : SumInst → Instruction SumBlock SumInst (BitVec 32)
  | .progressSlot => .AllocaInst
  | .boundSlot => .AllocaInst
  | .index => .PHINode (.int 32) [(.preheader, .const 5), (.loop, .inst .next)]
  | .sum => .PHINode (.int 32) [(.preheader, .const 0), (.loop, .inst .nextSum)]
  | .next => .other [.inst .index, .const 1]
  | .nextSum => .other [.inst .sum, .inst .index]
  | .store => .StoreInst sumAccess (.inst .next) (.inst .progressSlot)
  | .bound => .LoadInst (.int 32) sumAccess (.inst .boundSlot)
  | .test => .ICmpInst (some .ult) (.inst .next) (.inst .bound)
  | .result => .PHINode (.int 32) [(.loop, .inst .nextSum)]

def sumPhis : SumBlock → List SumInst
  | .preheader => []
  | .loop => [.index, .sum]
  | .exit => [.result]

def sumInsts : SumBlock → List SumInst
  | .preheader => [.progressSlot, .boundSlot]
  | .loop => [.next, .nextSum, .store, .bound, .test]
  | .exit => []

def sumTerminator : SumBlock → Terminator SumBlock SumInst (BitVec 32)
  | .preheader => .UncondBrInst .loop
  | .loop => .CondBrInst (.inst .test) .loop .exit
  | .exit => .other false false [] []

/-- Preheader, loop and exit. -/
def sumFunction : Function SumBlock SumInst (BitVec 32) where
  blocks := [.preheader, .loop, .exit]
  phis := sumPhis
  insts := sumInsts
  terminator := sumTerminator
  instruction := sumInstruction
  parent
    | .progressSlot => .preheader
    | .boundSlot => .preheader
    | .result => .exit
    | _ => .loop
  mayThrow _ := false
  stripPointerCasts := id
  mem_parent := by rintro ⟨⟩ <;> decide
  parent_eq := by rintro ⟨⟩ <;> decide
  nodup := by rintro ⟨⟩ <;> decide
  isPHI_iff := by rintro ⟨⟩ <;> decide
  incoming_covers b t ht c hc := by
    have h : ∀ b t, t ∈ (sumTerminator b).successors → ∀ c ∈ sumPhis t,
        ∃ e ∈ (sumInstruction c).incoming, e.1 = b := by
      rintro ⟨⟩ ⟨⟩ <;> decide
    obtain ⟨e, he, rfl⟩ := h b t ht c hc
    exact ⟨e.2, he⟩

def sumLoop : Loop sumFunction where
  header := .loop
  blocks := [.loop]
  isLoopSimplifyForm := true
  isLCSSAForm := true
  hasSubLoops := false
  getLoopPreheader := some .preheader
  getLoopLatch := some .loop
  getExitBlock := some .exit
  getExitingBlock := some .loop
  getInductionVariable := some .index
  isUnitAddRec c := c = .index
  dominatesMarker _ := false
  header_mem := by decide
  blocks_subset := by decide
  preheader_successors := by decide
  latch_mem := by decide
  latch_unique := by decide
  exiting_unique := by decide
  exit_mem := by decide
  induction_mem := by
    rintro i ⟨⟩
    decide
  lcssa := by rintro - ⟨⟩ ⟨⟩ <;> decide
  ssa c d huse hphi hc hd := by
    have h : ∀ c d, Value.inst d ∈ (sumInstruction c).operands ∧
        (sumInstruction c).isPHI = false ∧ sumFunction.parent d = .loop → c ∈ sumInsts .loop ∧
          d ∈ sumPhis .loop ++ (sumInsts .loop).takeWhile (· ≠ c) := by
      rintro ⟨⟩ ⟨⟩ <;> decide
    obtain ⟨hc', hd'⟩ := h c d ⟨huse, hphi, List.mem_singleton.mp hd⟩
    exact Region.precedes_of_mem (G := sumFunction.region .loop [.loop]) (b := .loop) hc' hd'
  ssa_term b hb d huse hd := by
    have h : ∀ b d, b ∈ [SumBlock.loop] → Value.inst d ∈ (sumTerminator b).operands →
        d ∈ sumPhis b ++ sumFunction.insts b := by
      rintro b ⟨⟩ <;> revert b <;> decide
    exact Region.dominates_of_executed (h b d hb huse) List.not_mem_nil
  ssa_phi c b hb d huse hd := by
    have h : ∀ c d b, b ∈ [SumBlock.loop] → (b, Value.inst d) ∈ (sumInstruction c).incoming →
        d ∈ sumPhis b ++ sumFunction.insts b := by
      rintro ⟨⟩ ⟨⟩ <;> decide
    exact Region.dominates_of_executed (h c d b hb huse) List.not_mem_nil

/-- What the matcher finds. -/
def sumProtocol : LoopProtocol SumBlock SumInst (BitVec 32) where
  Preheader := .preheader
  Header := .loop
  Latch := .loop
  Exit := .exit
  ProgressStore := .store
  ProgressCasts := []
  ProgressPtr := .inst .progressSlot
  ProgressAccess := sumAccess
  ExitCompare := .test
  Predicate := .ult
  NextCasts := []
  BoundCasts := []
  ExitConditionInsts := [.test, .bound]
  BoundLoad := .bound
  BoundTy := .int 32
  BoundPtr := .inst .boundSlot
  BoundAccess := sumAccess
  Induction := .index
  NextInduction := .next
  InductionIndex := 0
  Phis := [⟨.index, .const 5, .inst .next⟩, ⟨.sum, .const 0, .inst .nextSum⟩]

theorem match_sumLoop : matchLoopProtocol sumLoop = .ok sumProtocol := by rfl

/-- Additions, and the addresses of the slots. -/
def sumSemantics : Semantics SumBlock SumInst (BitVec 32) SumInst Unit where
  const c := .int 32 c
  load i _ _ := .other i
  store _ _ _ mem := mem
  op i args mem :=
    match args with
    | [x, y] => (.int 32 (index 32 x + index 32 y), mem)
    | _ => (.other i, mem)
  successor _ _ := 0


section
variable {B I C A M : Type} [DecidableEq B] [DecidableEq I] {F : Function B I C} {L : Loop F}
  {S : Semantics B I C A M}

/-- The next instruction of a run. -/
theorem within_cons {s s' : State B I A M} {b : B} {i : I} {rest : List I}
    (hplace : s.place = ⟨b, i :: rest⟩) (hwithin : L.Within S s s')
    (hplace' : s'.place.rest = []) :
    ∃ input, Fits F i input ∧ L.Within S (s.next S F b i rest input) s' := by
  rcases Relation.ReflTransGen.cases_head hwithin with rfl | ⟨t, hstep, hrest⟩
  · rw [hplace] at hplace'
    cases hplace'
  · cases hstep with
    | inst hplace₁ hfits =>
      cases hplace.symm.trans hplace₁
      exact ⟨_, hfits, hrest⟩
    | edge hplace₁ _ _ _ => cases hplace.symm.trans hplace₁

end

abbrev SumState := State SumBlock SumInst SumInst Unit

/-- An iteration that loads a bound. -/
def sumIteration (s : SumState) (b : BitVec 32) : SumState :=
  let none : Val SumInst := .other .bound
  let s := s.next sumSemantics sumFunction .loop .next [.nextSum, .store, .bound, .test] none
  let s := s.next sumSemantics sumFunction .loop .nextSum [.store, .bound, .test] none
  let s := s.next sumSemantics sumFunction .loop .store [.bound, .test] none
  let s := s.next sumSemantics sumFunction .loop .bound [.test] (.int 32 b)
  s.next sumSemantics sumFunction .loop .test [] none

theorem fits_of_ne {i : SumInst} (h : i ≠ .bound) (v : Val SumInst) : Fits sumFunction i v := by
  intro w a ptr hi
  cases i <;> first | exact absurd rfl h | cases hi

theorem sum_within (s : SumState) (hplace : s.place = ⟨.loop, sumFunction.insts .loop⟩)
    (b : BitVec 32) : sumLoop.Within sumSemantics s (sumIteration s b) := by
  have hfits : ∀ i : SumInst, i ≠ .bound → Fits sumFunction i (.other .bound : Val SumInst) :=
    fun _ h => fits_of_ne h _
  have hbound : Fits sumFunction .bound (.int 32 b : Val SumInst) := by
    rintro w a ptr ⟨⟩
    exact ⟨b, rfl⟩
  exact .tail (.tail (.tail (.tail (.single (.inst hplace (hfits .next (by decide))))
    (.inst rfl (hfits .nextSum (by decide)))) (.inst rfl (hfits .store (by decide))))
    (.inst rfl hbound)) (.inst rfl (hfits .test (by decide)))

theorem sum_unitSteps : UnitSteps sumLoop sumSemantics := by
  intro c w Latch v hunit hty hlatch hv s s' hplace hwithin hplace'
  obtain rfl : c = .index := of_decide_eq_true hunit
  cases hty
  cases hlatch
  cases hv
  have hrest : s'.place.rest = [] := by rw [hplace']
  obtain ⟨i₁, -, h₁⟩ := within_cons hplace hwithin hrest
  obtain ⟨i₂, -, h₂⟩ := within_cons rfl h₁ hrest
  obtain ⟨i₃, -, h₃⟩ := within_cons rfl h₂ hrest
  obtain ⟨i₄, -, h₄⟩ := within_cons rfl h₃ hrest
  obtain ⟨i₅, -, h₅⟩ := within_cons rfl h₄ hrest
  rcases Relation.ReflTransGen.cases_head h₅ with rfl | ⟨t, hstep, -⟩
  · rfl
  · exact absurd hstep ((matched_of_ok match_sumLoop).stuck rfl)

/-- The state at the end of the preheader. -/
def sumStart : SumState := ⟨⟨.preheader, []⟩, fun i => .other i, (), []⟩

/-- An iteration from the values of the phis. -/
def sumHeader (phis : Fin 2 → Val SumInst) : SumState where
  place := ⟨.loop, sumFunction.insts .loop⟩
  env := Function.update (Function.update sumStart.env .index (phis ⟨0, Nat.zero_lt_two⟩)) .sum
    (phis ⟨1, Nat.one_lt_two⟩)
  mem := ()
  trace := []

def sumBody (phis : Fin 2 → Val SumInst) (_ : Unit) : (SumInst → Val SumInst) × Unit :=
  ((sumIteration (sumHeader phis) 0).env, ())

theorem sum_isBody : IsBody sumLoop sumProtocol sumSemantics sumStart.env sumBody := by
  intro phis mem
  refine ⟨sumHeader phis, sumIteration (sumHeader phis) 0, rfl,
    Fin.forall_fin_two.mpr ⟨rfl, rfl⟩, fun i hi => ?_, rfl, sum_within _ rfl 0, rfl, rfl⟩
  cases i <;> first | rfl | exact absurd (by decide) hi

/-- Two iterations from 5, with the bound at 7. -/
def sumRun : SumState :=
  sumIteration ((sumIteration (sumStart.enter sumSemantics sumFunction .loop) 7).enter
    sumSemantics sumFunction .loop) 7

end Spork.Unroll.MatchProtocol
