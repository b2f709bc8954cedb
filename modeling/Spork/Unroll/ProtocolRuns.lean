import Spork.Unroll.FormBatchedLoop
import Spork.Unroll.MatchProtocol

/-!
# Iterations of accepted loops

An iteration of a loop that the matcher has accepted, from the header to the end of the latch.
The exit condition has no user but the latch branch; casts and comparisons keep to what they say
wherever they dominate; and of all the instructions only the progress store and the bound load
can be seen.

## Main definitions

* `Matched.exitCondition_user` — what the checks for single uses are for.
* `equations`, `CastPath.eval_eq` — the value at the end of a chain of casts.
* `events` — what can be seen of the latch.
* `Inv`, `Inv.within` — the invariant of an iteration.
-/
namespace Spork.Unroll.MatchProtocol

open LLVM SSA LoopIR

variable {B I C A M : Type} [DecidableEq B] [DecidableEq I] [DecidableEq C] {F : Function B I C}
  {L : Loop F} {P : LoopProtocol B I C}

/-! ## Uses -/

omit [DecidableEq B] [DecidableEq I] [DecidableEq C] in
theorem mem_uses {c : I} {v : Value I C} (hc : F.parent c ∈ F.blocks)
    (hv : v ∈ (F.instruction c).operands) : (.inst c, v) ∈ F.uses :=
  List.mem_flatMap.mpr ⟨F.parent c, hc, List.mem_append_left _
    (List.mem_flatMap.mpr ⟨c, F.mem_parent c, List.mem_map_of_mem hv⟩)⟩

omit [DecidableEq B] [DecidableEq I] [DecidableEq C] in
theorem mem_uses_term {b : B} {v : Value I C} (hb : b ∈ F.blocks)
    (hv : v ∈ (F.terminator b).operands) : (.term b, v) ∈ F.uses :=
  List.mem_flatMap.mpr ⟨b, hb, List.mem_append_right _ (List.mem_map_of_mem hv)⟩

omit [DecidableEq B] in
/-- A value with one use has one user. -/
theorem user_unique {i : I} (h : F.hasOneUse i = true) {u u' : User B I}
    (hu : (u, .inst i) ∈ F.uses) (hu' : (u', .inst i) ∈ F.uses) : u = u' := by
  have hcount := of_decide_eq_true h
  rw [List.countP_eq_length_filter] at hcount
  obtain ⟨e, he⟩ := List.length_eq_one_iff.mp hcount
  have hmem : ∀ u'' : User B I, (u'', Value.inst i) ∈ F.uses → (u'', Value.inst i) = e := by
    intro u'' h''
    have : (u'', Value.inst i) ∈ F.uses.filter fun u => u.2 = .inst i :=
      List.mem_filter.mpr ⟨h'', by simp⟩
    rwa [he, List.mem_singleton] at this
  exact congrArg Prod.fst ((hmem u hu).trans (hmem u' hu').symm)

omit [DecidableEq B] [DecidableEq I] [DecidableEq C] in
/-- A chain of casts from an instruction of the loop is in the loop. -/
theorem CastPath.mem_blocks (hlcssa : L.isLCSSAForm = true) {r : I} (hr : F.parent r ∈ L.blocks)
    {V : Value I C} {l : List I} {c : CastChain} (h : CastPath F (.inst r) V l c) :
    (∃ j, V = .inst j ∧ F.parent j ∈ L.blocks) ∧ ∀ i ∈ l, F.parent i ∈ L.blocks := by
  induction h with
  | root => exact ⟨⟨r, rfl, hr⟩, by simp⟩
  | @cast i op src dest v l c hi _ _ _ ih =>
    obtain ⟨⟨j, rfl, hj⟩, hall⟩ := ih
    have hmem := L.lcssa hlcssa i j (by simp [hi, Instruction.operands])
      (by simp [hi, Instruction.isPHI]) hj
    exact ⟨⟨i, rfl, hmem⟩, List.forall_mem_cons.mpr ⟨hmem, hall⟩⟩

omit [DecidableEq B] [DecidableEq I] [DecidableEq C] in
/-- A chain of casts is used along itself. -/
theorem CastPath.user {r : I} {V : Value I C} {l : List I} {c : CastChain}
    (h : CastPath F (.inst r) V l c) (hl : ∀ i ∈ l, F.parent i ∈ F.blocks) {j : I}
    (hj : (.inst j, V) ∈ F.uses) {i : I} (hi : i ∈ l ++ [r]) :
    ∃ j' ∈ j :: l, (.inst j', .inst i) ∈ F.uses := by
  induction h generalizing j with
  | root =>
    obtain rfl : i = r := by simpa using hi
    exact ⟨j, by simp, hj⟩
  | @cast i' op src dest v l c hi' _ _ _ ih =>
    rw [List.forall_mem_cons] at hl
    rcases List.mem_cons.mp hi with rfl | hi
    · exact ⟨j, by simp, hj⟩
    · obtain ⟨j', hj', huse⟩ :=
        ih hl.2 (mem_uses hl.1 (by simp [hi', Instruction.operands])) hi
      exact ⟨j', List.mem_cons_of_mem _ hj', huse⟩

namespace Matched

theorem exit_ne_header (h : Matched L P) : P.Exit ≠ L.header := fun he =>
  (L.exit_mem _ h.exit).2 (he ▸ L.header_mem)

/-- The exit condition is in the loop. -/
theorem exitCondition_mem (h : Matched L P) {i : I} (hi : i ∈ P.ExitConditionInsts) :
    F.parent i ∈ L.blocks := by
  obtain ⟨x, y, l, l', hcompare, hnext, hbound, hinsts⟩ := h.compare
  have hload : F.parent P.BoundLoad ∈ L.blocks := h.load_parent ▸ L.latch_mem _ h.latch
  obtain ⟨⟨j, rfl, hj⟩, hall⟩ := hbound.mem_blocks h.isLCSSAForm hload
  rw [hinsts] at hi
  simp only [List.cons_append, List.mem_cons, List.mem_append, List.not_mem_nil, or_false] at hi
  rcases hi with rfl | hi | rfl
  · exact L.lcssa h.isLCSSAForm _ j (by simp [hcompare, Instruction.operands])
      (by simp [hcompare, Instruction.isPHI]) hj
  · exact hall i hi
  · exact hload

/-- What the instructions of the exit condition are. -/
theorem exitCondition_kind (h : Matched L P) {i : I} (hi : i ∈ P.ExitConditionInsts) :
    (∃ op src dest v, F.instruction i = .CastInst op src dest v ∧
      (src.isIntegerTy && dest.isIntegerTy) = true) ∨
    (∃ p x y, F.instruction i = .ICmpInst (some p) x y) ∨
    ∃ ty a ptr, F.instruction i = .LoadInst ty a ptr ∧ a.isVolatile = true := by
  obtain ⟨x, y, l, l', hcompare, hnext, hbound, hinsts⟩ := h.compare
  have hcast : ∀ {V l c}, CastPath F (.inst P.BoundLoad) V l c → ∀ i ∈ l,
      ∃ op src dest v, F.instruction i = .CastInst op src dest v ∧
        (src.isIntegerTy && dest.isIntegerTy) = true := by
    intro V l c hpath
    induction hpath with
    | root => simp
    | cast hi hsrc hdest _ ih =>
      exact List.forall_mem_cons.mpr ⟨⟨_, _, _, _, hi, by rw [hsrc, hdest]; rfl⟩, ih⟩
  rw [hinsts] at hi
  simp only [List.cons_append, List.mem_cons, List.mem_append, List.not_mem_nil, or_false] at hi
  rcases hi with rfl | hi | rfl
  · exact .inr (.inl ⟨_, _, _, hcompare⟩)
  · exact .inl (hcast hbound i hi)
  · exact .inr (.inr ⟨_, _, _, h.load, h.volatile⟩)

theorem exitCondition_not_phi (h : Matched L P) {i : I} (hi : i ∈ P.ExitConditionInsts) :
    (F.instruction i).isPHI = false := by
  rcases h.exitCondition_kind hi with ⟨_, _, _, _, hk, -⟩ | ⟨_, _, _, hk⟩ | ⟨_, _, _, hk, -⟩ <;>
    rw [hk] <;> rfl

/-- **The exit condition is for the latch branch only.** -/
theorem exitCondition_user (h : Matched L P) {i : I} (hi : i ∈ P.ExitConditionInsts)
    {u : User B I} (hu : (u, .inst i) ∈ F.uses) :
    u = .term P.Latch ∨ ∃ j ∈ P.ExitConditionInsts, u = .inst j := by
  have hunique : ∀ u', (u', .inst i) ∈ F.uses → u = u' := fun _ =>
    user_unique (h.one_use i hi) hu
  have hsub := L.blocks_subset
  obtain ⟨x, y, l, l', hcompare, hnext, hbound, hinsts⟩ := h.compare
  have hmem : ∀ j ∈ P.ExitCompare :: l', j ∈ P.ExitConditionInsts := by
    intro j hj
    rw [hinsts]
    exact List.mem_append_left _ hj
  have hcase : i = P.ExitCompare ∨ i ∈ l' ++ [P.BoundLoad] := by
    rw [hinsts] at hi
    simpa using hi
  rcases hcase with rfl | hi'
  · refine .inl (hunique _ (mem_uses_term (hsub (L.latch_mem _ h.latch)) ?_))
    simp [h.branch, Terminator.operands]
  · have hy : (.inst P.ExitCompare, y) ∈ F.uses :=
      mem_uses (hsub (h.exitCondition_mem (hmem _ List.mem_cons_self)))
        (by simp [hcompare, Instruction.operands])
    obtain ⟨j, hj, huse⟩ := hbound.user (fun i hi =>
      hsub (h.exitCondition_mem (hmem i (List.mem_cons_of_mem _ hi)))) hy hi'
    exact .inr ⟨j, hmem j hj, hunique _ huse⟩

/-- Only the exit condition uses the exit condition. -/
theorem mem_of_operand (h : Matched L P) {i c : I} (hi : i ∈ P.ExitConditionInsts)
    (hc : F.parent c ∈ F.blocks) (hop : Value.inst i ∈ (F.instruction c).operands) :
    c ∈ P.ExitConditionInsts := by
  rcases h.exitCondition_user hi (mem_uses hc hop) with heq | ⟨j, hj, heq⟩
  · cases heq
  · cases heq
    exact hj

end Matched

/-! ## Equations -/

section
variable (S : Semantics B I C A M)

/-- What a cast or a comparison says about its value. -/
def Defines (F : Function B I C) (c : I) (env : I → Val A) : Prop :=
  match F.instruction c with
  | .CastInst op src dest v =>
      (src.isIntegerTy && dest.isIntegerTy) = true → env c = castVal op dest (eval S env v)
  | .ICmpInst (some p) x y => env c = ofBool (lessThan p (eval S env x) (eval S env y))
  | _ => True

variable {S}

omit [DecidableEq B] [DecidableEq I] [DecidableEq C] in
theorem eval_congr {env env' : I → Val A} {v : Value I C}
    (h : ∀ d, v = .inst d → env d = env' d) : eval S env v = eval S env' v := by
  cases v with
  | inst d => exact h d rfl
  | const c => rfl

omit [DecidableEq B] [DecidableEq I] [DecidableEq C] in
theorem Reach.mem_blocks {σ : List I} {p : Place B I} (h : L.region.Reach σ p) :
    p.block ∈ L.blocks := by
  induction h with
  | entry => exact L.header_mem
  | inst _ ih => exact ih
  | edge _ hnext _ => exact hnext.2.1

omit [DecidableEq B] [DecidableEq I] [DecidableEq C] in
theorem Occurs.mem_blocks {i : I} (h : L.region.Occurs i) : F.parent i ∈ L.blocks := by
  obtain ⟨σ, p, hreach, hi⟩ := h
  obtain ⟨σ', p', hreach', hafter, -⟩ := hreach.after hi
  have hparent : F.parent i = p'.block := by
    rcases hafter with ⟨hphi, -⟩ | hinst
    · exact Region.parent_phi hphi
    · exact Region.parent_inst (hinst.mem List.mem_cons_self)
  exact hparent ▸ Reach.mem_blocks hreach'

variable (L S) in
/-- The equations of an iteration. -/
def equations : L.region.Equations (Val A) where
  holds := Defines S F
  uses c d := Value.inst d ∈ (F.instruction c).operands ∧ (F.instruction c).isPHI = false
  ssa c d huse hc hd := L.ssa c d huse.1 huse.2 (Occurs.mem_blocks hc) (Occurs.mem_blocks hd)
  frame := by
    intro c env env' henv h
    have hop : (F.instruction c).isPHI = false → ∀ v ∈ (F.instruction c).operands,
        eval S env v = eval S env' v := by
      intro hphi v hv
      refine eval_congr fun d hd => henv d (.inr ⟨?_, hphi⟩)
      rw [← hd]
      exact hv
    rw [Defines] at h ⊢
    cases hc : F.instruction c with
    | CastInst op src dest v =>
      simp only [hc] at h ⊢
      rw [hc] at hop
      rw [← henv c (.inl rfl), ← hop rfl v (by simp [Instruction.operands])]
      exact h
    | ICmpInst p x y =>
      rw [hc] at hop
      cases p with
      | none => simp only
      | some p =>
        simp only [hc] at h ⊢
        rw [← henv c (.inl rfl), ← hop rfl x (by simp [Instruction.operands]),
          ← hop rfl y (by simp [Instruction.operands])]
        exact h
    | _ => simp only

omit [DecidableEq B] [DecidableEq I] [DecidableEq C] in
/-- A cast of a chain comes after what it casts. -/
theorem CastPath.operand (hlcssa : L.isLCSSAForm = true) {r : I} (hr : F.parent r ∈ L.blocks)
    {i : I} {op : CastOps} {src dest : Ty} {v : Value I C} {l : List I} {c : CastChain}
    (hi : F.instruction i = .CastInst op src dest v) (hv : CastPath F (.inst r) v l c) :
    (∃ j, v = .inst j ∧ L.region.Precedes j i) ∧ ∀ b, i ∉ L.region.phis b := by
  have hphi : (F.instruction i).isPHI = false := by simp [hi, Instruction.isPHI]
  obtain ⟨⟨j, rfl, hj⟩, -⟩ := hv.mem_blocks hlcssa hr
  have huse : Value.inst j ∈ (F.instruction i).operands := by simp [hi, Instruction.operands]
  refine ⟨⟨j, rfl, L.ssa i j huse hphi (L.lcssa hlcssa i j huse hphi hj) hj⟩, fun b hb => ?_⟩
  have := (F.isPHI_iff b i (List.mem_append_left _ hb)).mpr hb
  simp [hphi] at this

omit [DecidableEq B] [DecidableEq I] [DecidableEq C] in
/-- The root of a chain of casts dominates where its end does. -/
theorem CastPath.root_dominates (hlcssa : L.isLCSSAForm = true) {r : I}
    (hr : F.parent r ∈ L.blocks) {V : Value I C} {l : List I} {c : CastChain}
    (h : CastPath F (.inst r) V l c) {p : Place B I} {d : I} (hV : V = .inst d)
    (hd : L.region.Dominates d p) : L.region.Dominates r p := by
  induction h generalizing d with
  | root =>
    cases hV
    exact hd
  | cast hi hsrc hdest hv ih =>
    cases hV
    obtain ⟨⟨j, hj, hprec⟩, hphi⟩ := hv.operand hlcssa hr hi
    exact ih hj (hprec.dominates hd hphi)

omit [DecidableEq B] [DecidableEq I] [DecidableEq C] in
/-- What a chain of casts computes, wherever its end dominates. -/
theorem CastPath.eval_eq (hlcssa : L.isLCSSAForm = true) {r : I} (hr : F.parent r ∈ L.blocks)
    {V : Value I C} {l : List I} {c : CastChain} (h : CastPath F (.inst r) V l c)
    {p : Place B I} {env : I → Val A} (hc : (equations L S).Consistent p env)
    (hdom : ∀ d, V = .inst d → L.region.Dominates d p) :
    eval S env V = c.eval (env r) := by
  induction h with
  | root => rfl
  | @cast i op src dest v l c hi hsrc hdest hv ih =>
    obtain ⟨⟨j, hj, hprec⟩, hphi⟩ := hv.operand hlcssa hr hi
    have hholds : Defines S F i env := hc i hphi (hdom i rfl)
    rw [Defines, hi] at hholds
    have hvalue : env i = castVal op dest (eval S env v) := hholds (by rw [hsrc, hdest]; rfl)
    have hroot := ih fun d hd => by
      obtain rfl : j = d := by simpa [hj] using hd
      exact hprec.dominates (hdom i rfl) hphi
    rw [CastChain.eval, List.foldl_append]
    exact hvalue.trans (congrArg (castVal op dest) hroot)

end

/-! ## Single instructions -/

section
variable {S : Semantics B I C A M}

omit [DecidableEq B] [DecidableEq C] in
theorem checkInstruction_ok {BoundLoad ProgressStore i : I}
    (h : checkInstruction F BoundLoad ProgressStore i = .ok ()) :
    checkAccess F BoundLoad ProgressStore i = .ok () ∧ F.mayThrow i = false := by
  obtain ⟨_, haccess, h⟩ := bind_ok.mp h
  refine ⟨haccess, ?_⟩
  split at h
  · cases h
  · next hthrow => simpa using hthrow

omit [DecidableEq B] [DecidableEq C] in
/-- **Nothing but the protocol can be seen.** -/
theorem exec_quiet {BoundLoad ProgressStore i : I}
    (h : checkInstruction F BoundLoad ProgressStore i = .ok ()) (hload : i ≠ BoundLoad)
    (hstore : i ≠ ProgressStore) (input : Val A) (env : I → Val A) (mem : M) :
    (exec S F input env mem i).2.2 = [] := by
  obtain ⟨haccess, hthrow⟩ := checkInstruction_ok h
  unfold checkAccess at haccess
  simp only [exec, action, hthrow, Bool.false_eq_true, if_false]
  cases hi : F.instruction i with
  | ICmpInst p x y => cases p <;> rfl
  | CastInst op src dest v => simp only; split <;> rfl
  | LoadInst ty a ptr =>
    simp only [hi, hload, ne_eq, not_false_eq_true, decide_true, Bool.and_true, Bool.or_eq_true,
      ite_eq_right_iff, reduceCtorEq, imp_false, not_or, Bool.not_eq_true] at haccess
    simp [haccess.1, haccess.2]
  | StoreInst a val ptr =>
    simp only [hi, hstore, ne_eq, not_false_eq_true, decide_true, Bool.and_true, Bool.or_eq_true,
      ite_eq_right_iff, reduceCtorEq, imp_false, not_or, Bool.not_eq_true] at haccess
    simp [haccess.1, haccess.2]
  | CallBase isIntrinsic isAssumeLike mayReadOrWriteMemory args =>
    simp only [hi, Bool.not_eq_true', ite_eq_right_iff, reduceCtorEq, imp_false,
      Bool.not_eq_false] at haccess
    simp [haccess]
  | AtomicInst args => simp [hi] at haccess
  | _ => rfl

omit [DecidableEq B] [DecidableEq C] in
/-- An instruction of the body does the same in two runs that agree on its operands. -/
theorem exec_congr {BoundLoad ProgressStore i : I}
    (h : checkInstruction F BoundLoad ProgressStore i = .ok ()) (hload : i ≠ BoundLoad)
    (hphi : (F.instruction i).isPHI = false) {env env' : I → Val A}
    (henv : ∀ v ∈ (F.instruction i).operands, eval S env v = eval S env' v)
    (input input' : Val A) (mem : M) :
    (exec S F input env mem i).1 = (exec S F input' env' mem i).1 ∧
      (exec S F input env mem i).2.1 = (exec S F input' env' mem i).2.1 := by
  obtain ⟨haccess, -⟩ := checkInstruction_ok h
  unfold checkAccess at haccess
  simp only [exec, action]
  cases hi : F.instruction i with
  | PHINode ty incoming => simp [hi, Instruction.isPHI] at hphi
  | ICmpInst p x y =>
    simp only [hi, Instruction.operands, List.forall_mem_cons] at henv
    cases p <;> simp [henv.1, henv.2.1]
  | LoadInst ty a ptr =>
    simp only [hi, Instruction.operands, List.forall_mem_cons] at henv
    simp only [hi, hload, ne_eq, not_false_eq_true, decide_true, Bool.and_true, Bool.or_eq_true,
      ite_eq_right_iff, reduceCtorEq, imp_false, not_or, Bool.not_eq_true] at haccess
    simp [haccess.1, haccess.2, henv.1]
  | CallBase isIntrinsic isAssumeLike mayReadOrWriteMemory args =>
    simp only [hi, Bool.not_eq_true', ite_eq_right_iff, reduceCtorEq, imp_false,
      Bool.not_eq_false] at haccess
    simp only [hi, Instruction.operands] at henv
    simp [haccess, List.map_congr_left henv]
  | AtomicInst args => simp [hi] at haccess
  | AllocaInst => simp
  | GetElementPtrInst allZero ptr indices =>
    simp only [hi, Instruction.operands, List.forall_mem_cons] at henv
    simp [henv.1, List.map_congr_left henv.2]
  | CastInst op src dest v =>
    simp only [hi, Instruction.operands, List.forall_mem_cons] at henv
    simp only [henv.1, and_self]
  | StoreInst a val ptr =>
    simp only [hi, Instruction.operands, List.forall_mem_cons] at henv
    simp only [henv.1, henv.2.1, and_self]
  | other args =>
    simp only [hi, Instruction.operands] at henv
    simp [List.map_congr_left henv]

omit [DecidableEq B] [DecidableEq I] [DecidableEq C] in
/-- Integer casts and comparisons keep to their equations. -/
theorem exec_defines {i : I} {input : Val A} {env env' : I → Val A} {mem : M}
    (hself : env' i = (exec S F input env mem i).1)
    (henv : ∀ v ∈ (F.instruction i).operands, eval S env v = eval S env' v) :
    Defines S F i env' := by
  rw [Defines]
  simp only [exec, action] at hself
  cases hi : F.instruction i with
  | CastInst op src dest v =>
    simp only [hi, Instruction.operands, List.forall_mem_cons] at henv hself ⊢
    intro hty
    rw [hself, if_pos hty, henv.1]
  | ICmpInst p x y =>
    cases p with
    | none => simp only
    | some p =>
      simp only [hi, Instruction.operands, List.forall_mem_cons] at henv hself ⊢
      rw [hself, henv.1, henv.2.1]
  | _ => simp only

/-- The exit condition does not change memory. -/
theorem Matched.exec_mem (h : Matched L P) {i : I} (hi : i ∈ P.ExitConditionInsts) (input : Val A)
    (env : I → Val A) (mem : M) : (exec S F input env mem i).2.1 = mem := by
  simp only [exec, action]
  rcases h.exitCondition_kind hi with ⟨op, src, dest, v, hk, hty⟩ | ⟨p, x, y, hk⟩ |
    ⟨ty, a, ptr, hk, hvol⟩
  · simp only [hk, hty, if_true]
  · simp only [hk]
  · simp only [hk, hvol, if_true]

end

/-! ## One iteration -/

section
variable (S : Semantics B I C A M)

variable (P) in
/-- What can be seen of an instruction, in terms of the values at the end of the latch. -/
def events (env : I → Val A) (i : I) : List (Event B I A) :=
  if i = P.ProgressStore then
    [.store (eval S env P.ProgressPtr) (P.ProgressCasts.eval (env P.NextInduction))]
  else if i = P.BoundLoad then [.load (eval S env P.BoundPtr) (env P.BoundLoad)]
  else []

variable (L P) in
/-- What holds within the iteration that started from a state. -/
structure Inv (s₁ s : State B I A M) : Prop where
  reach : ∃ σ, L.region.Reach σ s.place
  consistent : (equations L S).Consistent s.place s.env
  outside : ∀ i, F.parent i ∉ L.blocks → s.env i = s₁.env i
  trace : ∃ l, F.insts s.place.block = l ++ s.place.rest ∧
    s.trace = s₁.trace ++ l.flatMap (events P S s.env) ∧
    (P.ProgressStore ∈ l → P.NextInduction ∉ s.place.rest) ∧
    (P.BoundLoad ∈ l → Fits F P.BoundLoad (s.env P.BoundLoad))

variable {S}

namespace Matched

theorem progressStore_mem (h : Matched L P) : P.ProgressStore ∈ F.insts P.Latch := by
  have hmem : P.ProgressStore ∈ (F.insts P.Latch).filter (isVolatileStore F) := by
    rw [h.stores]
    exact List.mem_singleton_self _
  exact (List.mem_filter.mp hmem).1

theorem progressStore_volatile (h : Matched L P) : P.ProgressAccess.isVolatile = true := by
  have hmem : P.ProgressStore ∈ (F.insts P.Latch).filter (isVolatileStore F) := by
    rw [h.stores]
    exact List.mem_singleton_self _
  obtain ⟨val, l, hstore, -⟩ := h.store
  simpa [isVolatileStore, hstore] using (List.mem_filter.mp hmem).2

theorem boundLoad_mem (h : Matched L P) : P.BoundLoad ∈ F.insts P.Latch := by
  have hmem := h.load_parent ▸ F.mem_parent P.BoundLoad
  refine (List.mem_append.mp hmem).resolve_left fun hphi => ?_
  simpa [h.load, Instruction.isPHI] using (F.isPHI_iff _ _ hmem).mpr hphi

theorem progressStore_ne (h : Matched L P) : P.ProgressStore ≠ P.BoundLoad := by
  obtain ⟨val, l, hstore, -⟩ := h.store
  intro heq
  rw [heq, h.load] at hstore
  cases hstore

theorem boundLoad_exit (h : Matched L P) : P.BoundLoad ∈ P.ExitConditionInsts := by
  obtain ⟨x, y, l, l', -, -, -, hinsts⟩ := h.compare
  simp [hinsts]

/-- The stored value is computed from the next induction before it is stored. -/
theorem stored_precedes (h : Matched L P) : ∃ d l,
    F.instruction P.ProgressStore = .StoreInst P.ProgressAccess (.inst d) P.ProgressPtr ∧
      CastPath F (.inst P.NextInduction) (.inst d) l P.ProgressCasts ∧
      L.region.Precedes d P.ProgressStore := by
  obtain ⟨val, l, hstore, hpath⟩ := h.store
  obtain ⟨⟨d, rfl, hd⟩, -⟩ := hpath.mem_blocks h.isLCSSAForm h.next_mem
  have hparent : F.parent P.ProgressStore ∈ L.blocks := by
    rw [F.parent_eq P.Latch _ (List.mem_append_right _ h.progressStore_mem)]
    exact L.latch_mem _ h.latch
  exact ⟨d, l, hstore, hpath, L.ssa P.ProgressStore d (by simp [hstore, Instruction.operands])
    (by simp [hstore, Instruction.isPHI]) hparent hd⟩

theorem next_precedes (h : Matched L P) :
    L.region.Precedes P.NextInduction P.ProgressStore := by
  obtain ⟨d, l, -, hpath, hprec⟩ := h.stored_precedes
  exact fun b rest => hpath.root_dominates h.isLCSSAForm h.next_mem rfl (hprec b rest)

/-- No edge of an iteration starts at its end. -/
theorem ne_latch (h : Matched L P) {b t : B} {env : I → Val A}
    (htarget : target S F b env = some t) (hmem : t ∈ L.blocks) (hne : t ≠ L.header) :
    b ≠ P.Latch := by
  rintro rfl
  simp only [target, h.branch, Option.some.injEq] at htarget
  split at htarget
  · exact hne htarget.symm
  · exact (L.exit_mem _ h.exit).2 (htarget ▸ hmem)

theorem termEvents_eq (h : Matched L P) {b : B} (hb : b ∈ L.blocks) :
    (termEvents F b : List (Event B I A)) = [] := by
  have hterm := h.terminators b hb
  unfold checkTerminator at hterm
  unfold termEvents
  split
  · next isCall mayThrow args successors hb' =>
    simp only [hb'] at hterm
    cases isCall <;> cases mayThrow <;> simp at hterm ⊢
  · rfl

end Matched

omit [DecidableEq B] [DecidableEq I] [DecidableEq C] in
theorem target_mem {b t : B} {env : I → Val A} (h : target S F b env = some t) :
    t ∈ (F.terminator b).successors := by
  unfold target at h
  split at h
  · next hb =>
    cases h
    simp [hb, Terminator.successors]
  · next hb =>
    rw [hb]
    cases h
    split <;> simp [Terminator.successors]
  · next hb =>
    rw [hb]
    exact List.mem_of_getElem? h

omit [DecidableEq I] [DecidableEq C] in
/-- An address that is not computed in the loop stays the same. -/
theorem eval_outside {v : Value I C} (hv : definedInLoop L v = false) {env env' : I → Val A}
    (henv : ∀ i, F.parent i ∉ L.blocks → env i = env' i) : eval S env v = eval S env' v := by
  refine eval_congr fun d hd => henv d ?_
  subst hd
  simpa [definedInLoop, Loop.contains] using hv

omit [DecidableEq B] [DecidableEq C] in
/-- An iteration starts. -/
theorem Inv.start {s₁ : State B I A M} (hplace : s₁.place = ⟨L.header, F.insts L.header⟩) :
    Inv L P S s₁ s₁ := by
  refine ⟨⟨F.phis L.header, ?_⟩, ?_, fun _ _ => rfl, [], ?_, ?_, ?_, ?_⟩
  · rw [hplace]
    exact .entry
  · rw [hplace]
    exact Region.Equations.consistent_entry _
  · simp [hplace]
  all_goals simp

/-- The value that is stored. -/
theorem Matched.eval_stored (h : Matched L P) {s₁ s : State B I A M} (hinv : Inv L P S s₁ s)
    {b : B} {rest : List I} (hplace : s.place = ⟨b, P.ProgressStore :: rest⟩) :
    ∃ val, F.instruction P.ProgressStore = .StoreInst P.ProgressAccess val P.ProgressPtr ∧
      eval S s.env val = P.ProgressCasts.eval (s.env P.NextInduction) := by
  obtain ⟨d, l, hstore, hpath, hprec⟩ := h.stored_precedes
  refine ⟨.inst d, hstore, hpath.eval_eq h.isLCSSAForm h.next_mem hinv.consistent fun d' hd => ?_⟩
  cases hd
  exact hplace ▸ hprec b rest

/-- What can be seen of an instruction is what the protocol says. -/
theorem Matched.exec_events (h : Matched L P) {s₁ s : State B I A M} (hinv : Inv L P S s₁ s)
    {b : B} {i : I} {rest : List I} (hplace : s.place = ⟨b, i :: rest⟩) {input : Val A}
    {env' : I → Val A} (henv : ∀ d, d ≠ i → s.env d = env' d)
    (hself : env' i = (exec S F input s.env s.mem i).1) :
    (exec S F input s.env s.mem i).2.2 = events P S env' i := by
  obtain ⟨σ, hreach⟩ := hinv.reach
  rw [hplace] at hreach
  have hb : b ∈ L.blocks := Reach.mem_blocks hreach
  have hi : i ∈ F.insts b := hreach.suffix.mem List.mem_cons_self
  have hparent : F.parent i = b := F.parent_eq b i (List.mem_append_right _ hi)
  have houtside : ∀ d, F.parent d ∉ L.blocks → s.env d = env' d := by
    intro d hd
    refine henv d ?_
    rintro rfl
    exact hd (hparent ▸ hb)
  have hcheck := h.body b hb i (List.mem_append_right _ hi)
  have hthrow := (checkInstruction_ok hcheck).2
  by_cases hstore : i = P.ProgressStore
  · subst hstore
    obtain ⟨val, hval, hstored⟩ := h.eval_stored hinv hplace
    have hnext := henv P.NextInduction (h.next_precedes.ne hreach)
    rw [events, if_pos rfl, ← eval_outside h.progress_outside houtside, ← hnext, ← hstored]
    simp [exec, action, hthrow, hval, h.progressStore_volatile]
  · by_cases hload : i = P.BoundLoad
    · subst hload
      rw [events, if_neg hstore, if_pos rfl, ← eval_outside h.ptr_outside houtside, hself]
      simp [exec, action, hthrow, h.load, h.volatile]
    · rw [exec_quiet hcheck hload hstore, events, if_neg hstore, if_neg hload]

/-- One instruction keeps the invariant. -/
theorem Inv.inst (h : Matched L P) {s₁ s : State B I A M} (hinv : Inv L P S s₁ s) {b : B} {i : I}
    {rest : List I} {input : Val A} (hplace : s.place = ⟨b, i :: rest⟩)
    (hfits : Fits F i input) : Inv L P S s₁ (s.next S F b i rest input) := by
  obtain ⟨σ, hreach⟩ := hinv.reach
  obtain ⟨l, hinsts, htrace, hsettled, hfit⟩ := hinv.trace
  rw [hplace] at hreach hinsts hsettled
  have hb : b ∈ L.blocks := Reach.mem_blocks hreach
  have hi : i ∈ F.insts b := hreach.suffix.mem List.mem_cons_self
  have hparent : F.parent i = b := F.parent_eq b i (List.mem_append_right _ hi)
  set s' := s.next S F b i rest input
  have henv : ∀ d, d ≠ i → s.env d = s'.env d := fun d hd => (next_env_of_ne _ _ _ _ _ hd).symm
  have hself : s'.env i = (exec S F input s.env s.mem i).1 := next_env_self ..
  have houtside : ∀ d, F.parent d ∉ L.blocks → s.env d = s'.env d := by
    intro d hd
    refine henv d ?_
    rintro rfl
    exact hd (hparent ▸ hb)
  have hnodup : i ∉ l := by
    have := Region.insts_nodup (G := L.region) b
    change (F.insts b).Nodup at this
    rw [hinsts, List.nodup_append] at this
    exact fun hil => this.2.2 i hil i List.mem_cons_self rfl
  have hphi : (F.instruction i).isPHI = false := by
    rw [← Bool.not_eq_true, F.isPHI_iff b i (List.mem_append_right _ hi)]
    exact fun hp => Region.not_mem_insts (G := L.region) hp hi
  refine ⟨⟨i :: σ, .inst hreach⟩, ?_, fun d hd => (houtside d hd).symm.trans (hinv.outside d hd),
    l ++ [i], ?_, ?_, ?_, ?_⟩
  · refine Region.Equations.Consistent.inst (by rw [← hplace]; exact hinv.consistent) hreach henv
      (exec_defines hself fun v hv => eval_congr fun d hd => ?_)
    -- an instruction does not use itself
    subst hd
    refine henv d ?_
    by_cases hd : F.parent d ∈ L.blocks
    · exact (L.ssa i d hv hphi (hparent ▸ hb) hd).ne hreach
    · rintro rfl
      exact hd (hparent ▸ hb)
  · rw [next_place, hinsts, List.append_assoc, List.singleton_append]
  · have hold : l.flatMap (events P S s.env) = l.flatMap (events P S s'.env) := by
      refine List.flatMap_congr fun j hj => ?_
      rw [events, events]
      split_ifs with hstore hload
      · have hne : P.NextInduction ≠ i := fun heq =>
          hsettled (hstore ▸ hj) (heq ▸ List.mem_cons_self)
        rw [eval_outside h.progress_outside houtside, henv _ hne]
      · have hne : P.BoundLoad ≠ i := by
          rintro rfl
          exact hnodup (hload ▸ hj)
        rw [eval_outside h.ptr_outside houtside, henv _ hne]
      · rfl
    have hnew := h.exec_events hinv hplace henv hself
    rw [next_trace, htrace, hold, hnew, List.flatMap_append, List.append_assoc,
      List.flatMap_singleton]
  · intro hstore hnext
    rcases List.mem_append.mp hstore with hstore | hstore
    · exact hsettled hstore (List.mem_cons_of_mem _ hnext)
    · obtain rfl := List.mem_singleton.mp hstore
      exact h.next_precedes.not_mem hreach hnext
  · intro hload
    by_cases hne : P.BoundLoad = i
    · subst hne
      have hvalue : s'.env P.BoundLoad = input := by
        simp [hself, exec, action, h.load, h.volatile]
      rw [hvalue]
      exact hfits
    · rw [← henv _ hne]
      refine hfit ((List.mem_append.mp hload).resolve_right fun hi => hne ?_)
      exact List.mem_singleton.mp hi

/-- One edge keeps the invariant. -/
theorem Inv.edge (h : Matched L P) {s₁ s : State B I A M} (hinv : Inv L P S s₁ s) {b t : B}
    (hplace : s.place = ⟨b, []⟩) (htarget : target S F b s.env = some t) (hmem : t ∈ L.blocks)
    (hne : t ≠ L.header) : Inv L P S s₁ (s.enter S F t) := by
  obtain ⟨σ, hreach⟩ := hinv.reach
  obtain ⟨l, hinsts, htrace, -, -⟩ := hinv.trace
  rw [hplace] at hreach hinsts
  have hb : b ∈ L.blocks := Reach.mem_blocks hreach
  have hlatch := h.ne_latch htarget hmem hne
  have hnext : L.region.next b t := ⟨target_mem htarget, hmem, hne⟩
  have hquiet : l.flatMap (events P S s.env) = [] := by
    rw [List.flatMap_eq_nil_iff]
    intro j hj
    have hparent : F.parent j = b := by
      refine F.parent_eq b j (List.mem_append_right _ ?_)
      rw [hinsts]
      exact List.mem_append_left _ hj
    have hstore : j ≠ P.ProgressStore := by
      rintro rfl
      rw [F.parent_eq P.Latch _ (List.mem_append_right _ h.progressStore_mem)] at hparent
      exact hlatch hparent.symm
    have hload : j ≠ P.BoundLoad := by
      rintro rfl
      exact hlatch (hparent.symm.trans h.load_parent)
    rw [events, if_neg hstore, if_neg hload]
  have henv : ∀ d, d ∉ F.phis t → s.env d = (s.enter S F t).env d := fun d hd =>
    (phiEnv_of_not_mem _ hd).symm
  refine ⟨⟨F.phis t ++ σ, .edge hreach hnext⟩, ?_, fun d hd => ?_, [], rfl, ?_, ?_, ?_⟩
  · exact Region.Equations.Consistent.edge (by rw [← hplace]; exact hinv.consistent) hreach hnext
      henv
  · rw [← henv d fun hphi => hd ?_]
    · exact hinv.outside d hd
    · rw [F.parent_eq t d (List.mem_append_left _ hphi)]
      exact hmem
  · rw [enter_trace, htrace, hquiet, hplace, h.termEvents_eq hb]
    simp
  all_goals simp

/-- **Within an iteration.** -/
theorem Inv.within (h : Matched L P) {s₁ s : State B I A M}
    (hplace : s₁.place = ⟨L.header, F.insts L.header⟩) (hwithin : L.Within S s₁ s) :
    Inv L P S s₁ s := by
  induction hwithin with
  | refl => exact .start hplace
  | tail _ hstep ih =>
    cases hstep with
    | inst hplace hfits => exact ih.inst h hplace hfits
    | edge hplace htarget hmem hne => exact ih.edge h hplace htarget hmem hne

end

end Spork.Unroll.MatchProtocol
