import Spork.Unroll.LoopIR
import Mathlib.Data.List.Forall2

/-!
# The protocol matcher

`matchLoopProtocol` accepts a marked loop or says why it does not. Everything that the rewriting
relies on is established here: the loop leaves only at its latch, on a comparison of the next
induction with a volatile load of the bound; the latch publishes the next induction by a volatile
store; nothing else in the loop can be seen from outside; and the values the exit needs can be
had between any two iterations.

## Main definitions

* `CastChain`, `capture` — the casts between two values.
* `LoopProtocol`, `matchLoopProtocol` — the source.
* `Matched` — what is known of a loop that has been accepted.
-/
namespace Spork.Unroll.MatchProtocol

open LLVM SSA LoopIR

variable {B I C A : Type}

/-- Opcodes and destination types, from the root outwards. -/
abbrev CastChain := List (CastOps × Ty)

/-- What a replay of the chain computes. -/
def CastChain.eval (c : CastChain) (v : Val A) : Val A := c.foldl (fun v s => castVal s.1 s.2 v) v

structure HeaderPhi (I C : Type) where
  PN : I
  Init : Value I C
  LatchVal : Value I C

/-- The blocks of the loop. -/
structure Shape (B : Type) where
  Preheader : B
  Header : B
  Latch : B
  Exit : B

/-- The store that publishes the next induction. -/
structure Progress (I C : Type) where
  ProgressStore : I
  ProgressCasts : CastChain
  ProgressPtr : Value I C
  ProgressAccess : Access

/-- The comparison that decides whether the loop goes on. -/
structure ExitCondition (I C : Type) where
  ExitCompare : I
  Predicate : Pred
  NextCasts : CastChain
  BoundCasts : CastChain
  ExitConditionInsts : List I
  BoundLoad : I
  BoundTy : Ty
  BoundPtr : Value I C
  BoundAccess : Access

structure LoopProtocol (B I C : Type) extends Shape B, Progress I C, ExitCondition I C where
  Induction : I
  NextInduction : I
  InductionIndex : ℕ
  Phis : List (HeaderPhi I C)

section
variable (F : Function B I C)

/-- The type of a phi. -/
def phiTy (i : I) : Ty :=
  match F.instruction i with
  | .PHINode ty _ => ty
  | _ => .other

def isCast (i : I) : Bool :=
  match F.instruction i with
  | .CastInst _ _ _ _ => true
  | _ => false

def isVolatileStore (i : I) : Bool :=
  match F.instruction i with
  | .StoreInst a _ _ => a.isVolatile
  | _ => false

def isLoad (i : I) : Bool :=
  match F.instruction i with
  | .LoadInst _ _ _ => true
  | _ => false

def stripIntegerCasts : ℕ → Value I C → Value I C
  | fuel + 1, .inst i =>
      match F.instruction i with
      | .CastInst _ src dest v =>
          if src.isIntegerTy && dest.isIntegerTy then stripIntegerCasts fuel v else .inst i
      | _ => .inst i
  | _, V => V

section
variable [DecidableEq B] [DecidableEq I] [DecidableEq C]

/-- `CastChain::capture`. The steps that have been found are kept in their final order. -/
def captureFrom : ℕ → Value I C → Value I C → CastChain → Option CastChain
  | 0, _, _, _ => none
  | fuel + 1, V, Root, Steps =>
      if V = Root then some Steps
      else
        match V with
        | .inst i =>
            match F.instruction i with
            | .CastInst op src dest v =>
                if src.isIntegerTy && dest.isIntegerTy then
                  captureFrom fuel v Root ((op, dest) :: Steps)
                else none
            | _ => none
        | .const _ => none

/-- Casts form no cycle, so that no chain is longer than there are instructions. -/
def capture (Template Root : Value I C) : Option CastChain :=
  captureFrom F (F.size + 1) Template Root []

/-- The loop that walks from the compare to the bound. -/
def walkBound : ℕ → Value I C → List I → Except String (List I × Value I C)
  | 0, _, _ => .error "bound cast chain has extra uses"
  | fuel + 1, V, ExitConditionInsts =>
      match V with
      | .inst i =>
          match F.instruction i with
          | .CastInst _ src dest v =>
              if !F.hasOneUse i || !src.isIntegerTy || !dest.isIntegerTy then
                .error "bound cast chain has extra uses"
              else walkBound fuel v (ExitConditionInsts ++ [i])
          | _ => .ok (ExitConditionInsts, V)
      | .const _ => .ok (ExitConditionInsts, V)

/-- `resolveAlloca`, with the values it has visited. -/
def resolveAllocaFrom : ℕ → List (Value I C) → Value I C → Option I
  | 0, _, _ => none
  | fuel + 1, Visited, V =>
      if V ∈ Visited then none
      else
        match F.stripPointerCasts V with
        | .inst i =>
            match F.instruction i with
            | .AllocaInst => some i
            | .GetElementPtrInst true ptr _ => resolveAllocaFrom fuel (V :: Visited) ptr
            | _ => none
        | .const _ => none

def resolveAlloca (V : Value I C) : Option I := resolveAllocaFrom F (F.size + 1) [] V

/-- The loads among the users of a slot. -/
def readers (slot : I) : List I :=
  (F.blocks.flatMap F.insts).filter fun i =>
    isLoad F i && decide (.inst slot ∈ (F.instruction i).operands)

end

end

section
variable [DecidableEq B] [DecidableEq I] [DecidableEq C] {F : Function B I C} (L : Loop F)

def definedInLoop : Value I C → Bool
  | .inst i => L.contains i
  | .const _ => false

/-- The blocks, and the condition of the latch branch. -/
def matchShape : Except String (Shape B × Value I C) :=
  if !L.isLoopSimplifyForm || !L.isLCSSAForm || L.hasSubLoops then
    .error "not in loop-simplify/LCSSA form or has nested loops"
  else
    match L.getLoopPreheader, L.getLoopLatch, L.getExitBlock with
    | some Preheader, some Latch, some Exit =>
        if L.getExitingBlock ≠ some Latch then
          .error "needs a unique latch that is the only exiting block and a unique exit"
        else
          match F.terminator Preheader with
          | .UncondBrInst _ =>
              match F.terminator Latch with
              | .CondBrInst cond t f =>
                  if t ≠ L.header ∨ f ≠ Exit then
                    .error "latch branch is not 'continue-to-header else exit'"
                  else .ok (⟨Preheader, L.header, Latch, Exit⟩, cond)
              | _ => .error "latch branch is not 'continue-to-header else exit'"
          | _ => .error "preheader does not end in an unconditional branch"
    | _, _, _ => .error "needs a unique latch that is the only exiting block and a unique exit"

/-- The induction and its next value. -/
def matchInduction (Latch : B) : Except String (I × I) :=
  match L.getInductionVariable with
  | none => .error "no LLVM-recognized integer induction variable"
  | some Induction =>
      if !(phiTy F Induction).isIntegerTy then
        .error "no LLVM-recognized integer induction variable"
      else if !L.isUnitAddRec Induction then .error "induction step is not +1"
      else
        match (F.instruction Induction).getIncomingValueForBlock Latch with
        | some (.inst NextInduction) =>
            if !L.contains NextInduction || isCast F NextInduction then
              .error "next induction value is not a plain in-loop instruction"
            else .ok (Induction, NextInduction)
        | _ => .error "next induction value is not a plain in-loop instruction"

variable (F) in
def matchPhi (s : Shape B) (PN : I) : Except String (HeaderPhi I C) :=
  match (F.instruction PN).getIncomingValueForBlock s.Preheader,
    (F.instruction PN).getIncomingValueForBlock s.Latch with
  | some Init, some LatchVal => .ok ⟨PN, Init, LatchVal⟩
  | _, _ => .error "header PHI lacks preheader or latch input"

/-- Exactly one volatile store in the latch, storing the next induction value. -/
def matchProgress (Latch : B) (NextInduction : I) : Except String (Progress I C) :=
  match (F.insts Latch).filter (isVolatileStore F) with
  | [] => .error "latch volatile store does not publish the next induction value"
  | [ProgressStore] =>
      match F.instruction ProgressStore with
      | .StoreInst a val ptr =>
          if stripIntegerCasts F F.size val ≠ .inst NextInduction ∨ definedInLoop L ptr then
            .error "latch volatile store does not publish the next induction value"
          else
            match capture F val (.inst NextInduction) with
            | none => .error "stored progress value is not a cast chain of the next induction"
            | some ProgressCasts => .ok ⟨ProgressStore, ProgressCasts, ptr, a⟩
      | _ => .error "latch volatile store does not publish the next induction value"
  | _ => .error "more than one volatile store in the latch"

/-- The load of the bound, once the walk has come to it. -/
def matchBoundLoad (Latch : B) (V : Value I C) : Except String (I × Ty × Value I C × Access) :=
  match V with
  | .inst BoundLoad =>
      match F.instruction BoundLoad with
      | .LoadInst ty a ptr =>
          if !a.isVolatile || !F.hasOneUse BoundLoad || !ty.isIntegerTy ||
              F.parent BoundLoad ≠ Latch || definedInLoop L ptr then
            .error "bound is not a single-use volatile integer load in the latch"
          else .ok (BoundLoad, ty, ptr, a)
      | _ => .error "bound is not a single-use volatile integer load in the latch"
  | .const _ => .error "bound is not a single-use volatile integer load in the latch"

/-- The exit condition: casts(next) <s/u casts(volatile load bound). -/
def matchExitCondition (Latch : B) (NextInduction : I) (cond : Value I C) :
    Except String (ExitCondition I C) :=
  match cond with
  | .inst ExitCompare =>
      match F.instruction ExitCompare with
      | .ICmpInst predicate x y =>
          if !F.hasOneUse ExitCompare then .error "latch condition is not a single-use icmp"
          else
            match predicate with
            | none => .error "latch condition is not signed/unsigned less-than"
            | some Predicate =>
                match capture F x (.inst NextInduction) with
                | none => .error "compare operand is not a cast chain of the next induction"
                | some NextCasts => do
                    let (ExitConditionInsts, V) ← walkBound F (F.size + 1) y [ExitCompare]
                    let (BoundLoad, BoundTy, BoundPtr, BoundAccess) ← matchBoundLoad L Latch V
                    -- the walk has seen that there are only casts in between
                    let BoundCasts := (capture F y (.inst BoundLoad)).getD []
                    .ok ⟨ExitCompare, Predicate, NextCasts, BoundCasts,
                      ExitConditionInsts ++ [BoundLoad], BoundLoad, BoundTy, BoundPtr, BoundAccess⟩
      | _ => .error "latch condition is not a single-use icmp"
  | .const _ => .error "latch condition is not a single-use icmp"

/-- Progress and bound are distinct stack slots, and ordinary code does not read the first. -/
def matchSlots (ProgressPtr BoundPtr : Value I C) : Except String Unit :=
  match resolveAlloca F ProgressPtr with
  | none => .error "progress/bound slots are not distinct stack slots"
  | some ProgressSlot =>
      if resolveAlloca F BoundPtr = some ProgressSlot then
        .error "progress/bound slots are not distinct stack slots"
      else if (readers F ProgressSlot).any fun LI => L.contains LI || !L.dominatesMarker LI then
        .error "progress slot is read by ordinary code in or after the loop"
      else .ok ()

variable (F) in
/-- What an instruction of the body may not be. -/
def checkAccess (BoundLoad ProgressStore i : I) : Except String Unit :=
  match F.instruction i with
  | .LoadInst _ a _ =>
      if (a.isVolatile || a.isAtomic) && i ≠ BoundLoad then
        .error "body contains another volatile/atomic load"
      else .ok ()
  | .StoreInst a _ _ =>
      if (a.isVolatile || a.isAtomic) && i ≠ ProgressStore then
        .error "body contains another volatile/atomic store"
      else .ok ()
  | .CallBase isIntrinsic isAssumeLike mayReadOrWriteMemory _ =>
      if !isHarmlessCall isIntrinsic isAssumeLike mayReadOrWriteMemory then
        .error "body contains a call"
      else .ok ()
  | .AtomicInst _ => .error "body contains an atomic/fence"
  | _ => .ok ()

variable (F) in
def checkInstruction (BoundLoad ProgressStore i : I) : Except String Unit := do
  checkAccess F BoundLoad ProgressStore i
  if F.mayThrow i then .error "body contains an instruction that may throw" else .ok ()

variable (F) in
def checkTerminator (b : B) : Except String Unit :=
  match F.terminator b with
  | .other isCall mayThrow _ _ =>
      if isCall then .error "body contains a call"
      else if mayThrow then .error "body contains an instruction that may throw"
      else .ok ()
  | _ => .ok ()

def matchBody (BoundLoad ProgressStore : I) : Except String Unit :=
  L.blocks.forM fun b => do
    (F.phis b ++ F.insts b).forM (checkInstruction F BoundLoad ProgressStore)
    checkTerminator F b

/-- The values of the exit are there at a batch boundary. -/
def matchExitPhi (Latch : B) (Phis : List (HeaderPhi I C)) (PN : I) : Except String Unit :=
  match (F.instruction PN).getIncomingValueForBlock Latch with
  | none => .error "exit PHI lacks a latch input"
  | some V =>
      if definedInLoop L V && Phis.all (fun HP => HP.LatchVal ≠ V) then
        .error "exit PHI uses a loop value that is not a header PHI's latch value"
      else .ok ()

/-- `matchLoopProtocol`. -/
def matchLoopProtocol : Except String (LoopProtocol B I C) := do
  let (shape, cond) ← matchShape L
  let (Induction, NextInduction) ← matchInduction L shape.Latch
  let Phis ← (F.phis L.header).mapM (matchPhi F shape)
  let progress ← matchProgress L shape.Latch NextInduction
  let exit ← matchExitCondition L shape.Latch NextInduction cond
  matchSlots L progress.ProgressPtr exit.BoundPtr
  matchBody L exit.BoundLoad progress.ProgressStore
  (F.phis shape.Exit).forM (matchExitPhi L shape.Latch Phis)
  .ok { toShape := shape
        toProgress := progress
        toExitCondition := exit
        Induction := Induction
        NextInduction := NextInduction
        InductionIndex := (Phis.findIdx? fun HP => HP.PN = Induction).getD 0
        Phis := Phis }

end

/-! ## Checks that succeed -/

section
variable {ε α β : Type}

theorem bind_ok {x : Except ε α} {f : α → Except ε β} {b : β} :
    (x >>= f) = .ok b ↔ ∃ a, x = .ok a ∧ f a = .ok b := by
  cases x <;> simp [bind, Except.bind]

theorem forM_ok {f : α → Except ε Unit} {l : List α} :
    l.forM f = .ok () ↔ ∀ a ∈ l, f a = .ok () := by
  induction l with
  | nil => simp [pure, Except.pure]
  | cons a l ih =>
    change (f a >>= fun _ => l.forM f) = .ok () ↔ _
    rw [bind_ok, List.forall_mem_cons, ← ih]
    exact ⟨fun ⟨_, h⟩ => h, fun h => ⟨(), h⟩⟩

theorem forall₂_of_mapM {f : α → Except ε β} {l : List α} {r : List β} (h : l.mapM f = .ok r) :
    List.Forall₂ (fun a b => f a = .ok b) l r := by
  induction l generalizing r with
  | nil =>
    cases h
    exact .nil
  | cons a l ih =>
    rw [List.mapM_cons] at h
    obtain ⟨b, hb, h⟩ := bind_ok.mp h
    obtain ⟨r', hr, h⟩ := bind_ok.mp h
    cases h
    exact .cons hb (ih hr)

theorem exists_of_mem_right {R : α → β → Prop} {l : List α} {r : List β}
    (h : List.Forall₂ R l r) {b : β} (hb : b ∈ r) : ∃ a ∈ l, R a b := by
  induction h with
  | nil => cases hb
  | cons hab _ ih =>
    rcases List.mem_cons.mp hb with rfl | hb
    · exact ⟨_, List.mem_cons_self, hab⟩
    · obtain ⟨a, ha, hR⟩ := ih hb
      exact ⟨a, List.mem_cons_of_mem _ ha, hR⟩

end

/-! ## Chains of casts -/

section
variable (F : Function B I C)

/-- The integer casts from a root to a value, with the instructions. -/
inductive CastPath (Root : Value I C) : Value I C → List I → CastChain → Prop
  | root : CastPath Root Root [] []
  | cast {i : I} {op : CastOps} {src dest : Ty} {v : Value I C} {l : List I} {c : CastChain}
      (hi : F.instruction i = .CastInst op src dest v) (hsrc : src.isIntegerTy = true)
      (hdest : dest.isIntegerTy = true) (hv : CastPath Root v l c) :
      CastPath Root (.inst i) (i :: l) (c ++ [(op, dest)])

variable {F} [DecidableEq I] [DecidableEq C]

theorem castPath_of_captureFrom {fuel : ℕ} {V Root : Value I C} {Steps c : CastChain}
    (h : captureFrom F fuel V Root Steps = some c) :
    ∃ l c', CastPath F Root V l c' ∧ c = c' ++ Steps := by
  induction fuel generalizing V Steps with
  | zero => cases h
  | succ fuel ih =>
    unfold captureFrom at h
    split at h
    · next hroot =>
      cases h
      exact ⟨[], [], hroot ▸ .root, rfl⟩
    · split at h
      · next i hne =>
        split at h
        · next op src dest v hi =>
          split at h
          · next hty =>
            rw [Bool.and_eq_true] at hty
            obtain ⟨l, c', hpath, rfl⟩ := ih h
            exact ⟨i :: l, c' ++ [(op, dest)], .cast hi hty.1 hty.2 hpath, by simp⟩
          · cases h
        · cases h
      · cases h

theorem castPath_of_capture {V Root : Value I C} {c : CastChain} (h : capture F V Root = some c) :
    ∃ l, CastPath F Root V l c := by
  obtain ⟨l, c', hpath, rfl⟩ := castPath_of_captureFrom h
  exact ⟨l, by simpa using hpath⟩

/-- The walk to the bound has seen the casts that are captured after it. -/
theorem walkBound_ok {fuel : ℕ} {V : Value I C} {r : I} {insts insts' : List I}
    (h : walkBound F fuel V insts = .ok (insts', .inst r)) (hr : isCast F r = false)
    (Steps : CastChain) :
    ∃ l c, CastPath F (.inst r) V l c ∧ captureFrom F fuel V (.inst r) Steps = some (c ++ Steps) ∧
      insts' = insts ++ l ∧ ∀ i ∈ l, F.hasOneUse i = true := by
  induction fuel generalizing V insts Steps with
  | zero => cases h
  | succ fuel ih =>
    unfold walkBound at h
    split at h
    · next i =>
      split at h
      · next op src dest v hi =>
        split at h
        · cases h
        · next hok =>
          simp only [Bool.or_eq_true, Bool.not_eq_true', not_or, Bool.not_eq_false] at hok
          obtain ⟨⟨hone, hsrc⟩, hdest⟩ := hok
          obtain ⟨l, c, hpath, hcapture, rfl, hall⟩ := ih h ((op, dest) :: Steps)
          refine ⟨i :: l, c ++ [(op, dest)], .cast hi hsrc hdest hpath, ?_, by simp, ?_⟩
          · have hne : (Value.inst i : Value I C) ≠ .inst r := by
              rintro heq
              cases heq
              simp [isCast, hi] at hr
            rw [captureFrom, if_neg hne]
            simp [hi, hsrc, hdest, hcapture]
          · exact List.forall_mem_cons.mpr ⟨hone, hall⟩
      · cases h
        refine ⟨[], [], .root, ?_, by simp, by simp⟩
        simp [captureFrom]
    · cases h

end

/-! ## What is known of an accepted loop -/

section
variable [DecidableEq B] [DecidableEq I] [DecidableEq C] {F : Function B I C} {L : Loop F}

omit [DecidableEq I] [DecidableEq C] in
theorem matchShape_ok {s : Shape B} {cond : Value I C} (h : matchShape L = .ok (s, cond)) :
    L.isLCSSAForm = true ∧ L.getLoopPreheader = some s.Preheader ∧
      L.getLoopLatch = some s.Latch ∧ L.getExitBlock = some s.Exit ∧
      L.getExitingBlock = some s.Latch ∧ (∃ t, F.terminator s.Preheader = .UncondBrInst t) ∧
      F.terminator s.Latch = .CondBrInst cond L.header s.Exit := by
  unfold matchShape at h
  split at h
  · cases h
  · next hform =>
    simp only [Bool.or_eq_true, Bool.not_eq_true', not_or, Bool.not_eq_false] at hform
    split at h
    · next Preheader Latch Exit hpre hlatch hexit =>
      split at h
      · cases h
      · next hexiting =>
        split at h
        · next t₀ hterm₀ =>
          split at h
          · next c t f hterm =>
            split at h
            · cases h
            · next hsucc =>
              cases h
              obtain ⟨rfl, rfl⟩ := not_or.mp hsucc |>.imp not_not.mp not_not.mp
              exact ⟨hform.1.2, hpre, hlatch, hexit, not_not.mp hexiting, ⟨t₀, hterm₀⟩, hterm⟩
          · cases h
        · cases h
    · cases h

omit [DecidableEq I] [DecidableEq C] in
theorem matchInduction_ok {Latch : B} {Induction NextInduction : I}
    (h : matchInduction L Latch = .ok (Induction, NextInduction)) :
    L.getInductionVariable = some Induction ∧ (phiTy F Induction).isIntegerTy = true ∧
      L.isUnitAddRec Induction = true ∧
      (F.instruction Induction).getIncomingValueForBlock Latch = some (.inst NextInduction) ∧
      F.parent NextInduction ∈ L.blocks ∧ isCast F NextInduction = false := by
  unfold matchInduction at h
  split at h
  · cases h
  · next i hi =>
    split at h
    · cases h
    · next hty =>
      split at h
      · cases h
      · next hunit =>
        split at h
        · next n hn =>
          split at h
          · cases h
          · next hok =>
            cases h
            simp only [Bool.or_eq_true, Bool.not_eq_true', not_or, Bool.not_eq_false,
              Bool.not_eq_true] at hok hty hunit
            exact ⟨hi, hty, hunit, hn, of_decide_eq_true hok.1, hok.2⟩
        · cases h

omit [DecidableEq I] [DecidableEq C] in
theorem matchPhi_ok {s : Shape B} {PN : I} {HP : HeaderPhi I C} (h : matchPhi F s PN = .ok HP) :
    HP.PN = PN ∧ (F.instruction PN).getIncomingValueForBlock s.Preheader = some HP.Init ∧
      (F.instruction PN).getIncomingValueForBlock s.Latch = some HP.LatchVal := by
  unfold matchPhi at h
  split at h
  · next Init LatchVal hinit hlatch =>
    cases h
    exact ⟨rfl, hinit, hlatch⟩
  · cases h

theorem matchProgress_ok {Latch : B} {NextInduction : I} {p : Progress I C}
    (h : matchProgress L Latch NextInduction = .ok p) :
    (F.insts Latch).filter (isVolatileStore F) = [p.ProgressStore] ∧
      definedInLoop L p.ProgressPtr = false ∧
      ∃ val l, F.instruction p.ProgressStore = .StoreInst p.ProgressAccess val p.ProgressPtr ∧
        CastPath F (.inst NextInduction) val l p.ProgressCasts := by
  unfold matchProgress at h
  split at h
  · cases h
  · next i hstores =>
    split at h
    · next a val ptr hi =>
      split at h
      · cases h
      · next hok =>
        split at h
        · cases h
        · next c hc =>
          cases h
          obtain ⟨l, hpath⟩ := castPath_of_capture hc
          exact ⟨hstores, by simpa using (not_or.mp hok).2, val, l, hi, hpath⟩
    · cases h
  · cases h

theorem matchBoundLoad_ok {Latch : B} {V : Value I C} {r : I × Ty × Value I C × Access}
    (h : matchBoundLoad L Latch V = .ok r) :
    V = .inst r.1 ∧ F.instruction r.1 = .LoadInst r.2.1 r.2.2.2 r.2.2.1 ∧
      r.2.2.2.isVolatile = true ∧ F.hasOneUse r.1 = true ∧ r.2.1.isIntegerTy = true ∧
      F.parent r.1 = Latch ∧ definedInLoop L r.2.2.1 = false := by
  unfold matchBoundLoad at h
  split at h
  · next i =>
    split at h
    · next ty a ptr hi =>
      split at h
      · cases h
      · next hok =>
        cases h
        simp only [Bool.or_eq_true, Bool.not_eq_true', not_or, Bool.not_eq_false,
          decide_eq_true_eq, not_not, Bool.not_eq_true] at hok
        obtain ⟨⟨⟨⟨hvol, hone⟩, hty⟩, hparent⟩, hptr⟩ := hok
        exact ⟨rfl, hi, hvol, hone, hty, hparent, hptr⟩
    · cases h
  · cases h

/-- What is known of the exit condition. -/
structure ExitMatched (L : Loop F) (Latch : B) (NextInduction : I) (e : ExitCondition I C) :
    Prop where
  compare : ∃ x y l l', F.instruction e.ExitCompare = .ICmpInst (some e.Predicate) x y ∧
    CastPath F (.inst NextInduction) x l e.NextCasts ∧
    CastPath F (.inst e.BoundLoad) y l' e.BoundCasts ∧
    e.ExitConditionInsts = e.ExitCompare :: l' ++ [e.BoundLoad]
  one_use : ∀ i ∈ e.ExitConditionInsts, F.hasOneUse i = true
  load : F.instruction e.BoundLoad = .LoadInst e.BoundTy e.BoundAccess e.BoundPtr
  volatile : e.BoundAccess.isVolatile = true
  integer : e.BoundTy.isIntegerTy = true
  load_parent : F.parent e.BoundLoad = Latch
  ptr_outside : definedInLoop L e.BoundPtr = false

theorem matchExitCondition_ok {Latch : B} {NextInduction : I} {cond : Value I C}
    {e : ExitCondition I C} (h : matchExitCondition L Latch NextInduction cond = .ok e) :
    cond = .inst e.ExitCompare ∧ ExitMatched L Latch NextInduction e := by
  unfold matchExitCondition at h
  split at h
  · next i =>
    split at h
    · next predicate x y hi =>
      split at h
      · cases h
      · next hone =>
        split at h
        · cases h
        · next Predicate =>
          split at h
          · cases h
          · next c hc =>
            simp only [bind_ok, Prod.exists] at h
            obtain ⟨insts, V, hwalk, r, ty, ptr, a, hload, h⟩ := h
            obtain ⟨rfl, hr, hvol, hone', hty, hparent, hptr⟩ := matchBoundLoad_ok hload
            obtain ⟨l, hnext⟩ := castPath_of_capture hc
            obtain ⟨l', c', hbound, hcapture, rfl, hall⟩ :=
              walkBound_ok hwalk (by simp [isCast, hr]) []
            simp only [capture, hcapture, List.append_nil, Option.getD_some] at h
            cases h
            refine ⟨rfl, ⟨x, y, l, l', hi, hnext, hbound, rfl⟩, ?_, hr, hvol, hty, hparent, hptr⟩
            intro j hj
            simp only [List.cons_append, List.nil_append, List.mem_cons, List.mem_append,
              List.not_mem_nil, or_false] at hj
            rcases hj with rfl | hj | rfl
            · simpa using hone
            · exact hall j hj
            · exact hone'
    · cases h
  · cases h

omit [DecidableEq B] [DecidableEq C] in
theorem matchBody_ok {BoundLoad ProgressStore : I}
    (h : matchBody L BoundLoad ProgressStore = .ok ()) :
    (∀ b ∈ L.blocks, ∀ i ∈ F.phis b ++ F.insts b,
      checkInstruction F BoundLoad ProgressStore i = .ok ()) ∧
      ∀ b ∈ L.blocks, checkTerminator F b = .ok () := by
  have hall := forM_ok.mp h
  refine ⟨fun b hb => ?_, fun b hb => ?_⟩
  · obtain ⟨_, hinsts, -⟩ := bind_ok.mp (hall b hb)
    exact forM_ok.mp hinsts
  · obtain ⟨_, -, hterm⟩ := bind_ok.mp (hall b hb)
    exact hterm

theorem matchExitPhi_ok {Latch : B} {Phis : List (HeaderPhi I C)} {PN : I}
    (h : matchExitPhi L Latch Phis PN = .ok ()) :
    ∃ V, (F.instruction PN).getIncomingValueForBlock Latch = some V ∧
      (definedInLoop L V = true → ∃ HP ∈ Phis, HP.LatchVal = V) := by
  unfold matchExitPhi at h
  split at h
  · cases h
  · next V hV =>
    split at h
    · cases h
    · next hok =>
      refine ⟨V, hV, fun hin => ?_⟩
      simpa [hin] using hok

/-- What is known of a loop that has been accepted. -/
structure Matched (L : Loop F) (P : LoopProtocol B I C) : Prop
    extends ExitMatched L P.Latch P.NextInduction P.toExitCondition where
  isLCSSAForm : L.isLCSSAForm = true
  preheader : L.getLoopPreheader = some P.Preheader
  latch : L.getLoopLatch = some P.Latch
  exit : L.getExitBlock = some P.Exit
  exiting : L.getExitingBlock = some P.Latch
  entry : ∃ t, F.terminator P.Preheader = .UncondBrInst t
  branch : F.terminator P.Latch = .CondBrInst (.inst P.ExitCompare) L.header P.Exit
  induction_integer : (phiTy F P.Induction).isIntegerTy = true
  unitAddRec : L.isUnitAddRec P.Induction = true
  next_incoming :
    (F.instruction P.Induction).getIncomingValueForBlock P.Latch = some (.inst P.NextInduction)
  next_mem : F.parent P.NextInduction ∈ L.blocks
  phis : P.Phis.map HeaderPhi.PN = F.phis L.header
  incoming : ∀ HP ∈ P.Phis,
    (F.instruction HP.PN).getIncomingValueForBlock P.Preheader = some HP.Init ∧
      (F.instruction HP.PN).getIncomingValueForBlock P.Latch = some HP.LatchVal
  inductionIndex : (P.Phis[P.InductionIndex]?).map HeaderPhi.PN = some P.Induction
  stores : (F.insts P.Latch).filter (isVolatileStore F) = [P.ProgressStore]
  store : ∃ val l, F.instruction P.ProgressStore = .StoreInst P.ProgressAccess val P.ProgressPtr ∧
    CastPath F (.inst P.NextInduction) val l P.ProgressCasts
  progress_outside : definedInLoop L P.ProgressPtr = false
  body : ∀ b ∈ L.blocks, ∀ i ∈ F.phis b ++ F.insts b,
    checkInstruction F P.BoundLoad P.ProgressStore i = .ok ()
  terminators : ∀ b ∈ L.blocks, checkTerminator F b = .ok ()
  exitPhis : ∀ PN ∈ F.phis P.Exit, ∃ V,
    (F.instruction PN).getIncomingValueForBlock P.Latch = some V ∧
      (definedInLoop L V = true → ∃ HP ∈ P.Phis, HP.LatchVal = V)

theorem matched_of_ok {P : LoopProtocol B I C} (h : matchLoopProtocol L = .ok P) : Matched L P := by
  obtain ⟨⟨s, cond⟩, hshape, h⟩ := bind_ok.mp h
  obtain ⟨⟨Induction, NextInduction⟩, hinduction, h⟩ := bind_ok.mp h
  obtain ⟨Phis, hphis, h⟩ := bind_ok.mp h
  obtain ⟨p, hprogress, h⟩ := bind_ok.mp h
  obtain ⟨e, hexit, h⟩ := bind_ok.mp h
  obtain ⟨_, -, h⟩ := bind_ok.mp h
  obtain ⟨_, hbody, h⟩ := bind_ok.mp h
  obtain ⟨_, hexitPhis, h⟩ := bind_ok.mp h
  cases h
  obtain ⟨hlcssa, hpre, hlatch, hexitBlock, hexiting, hentry, hbranch⟩ := matchShape_ok hshape
  obtain ⟨hind, hint, hunit, hnext, hnextmem, -⟩ := matchInduction_ok hinduction
  obtain ⟨rfl, hexitMatched⟩ := matchExitCondition_ok hexit
  obtain ⟨hstores, hptr, hstore⟩ := matchProgress_ok hprogress
  have hforall := (forall₂_of_mapM hphis).imp fun _ _ => matchPhi_ok
  have hPN : F.phis L.header = Phis.map HeaderPhi.PN :=
    List.forall₂_eq_eq_eq ▸ List.forall₂_map_right_iff.mpr (hforall.imp fun _ _ h => h.1.symm)
  exact {
    toExitMatched := hexitMatched
    isLCSSAForm := hlcssa
    preheader := hpre
    latch := hlatch
    exit := hexitBlock
    exiting := hexiting
    entry := hentry
    branch := hbranch
    induction_integer := hint
    unitAddRec := hunit
    next_incoming := hnext
    next_mem := hnextmem
    phis := hPN.symm
    incoming := by
      intro HP hHP
      obtain ⟨PN, -, rfl, hincoming⟩ := exists_of_mem_right hforall hHP
      exact hincoming
    inductionIndex := by
      have hmem := L.induction_mem Induction hind
      rw [hPN, List.mem_map] at hmem
      obtain ⟨HP, hHP, hPN'⟩ := hmem
      cases hfind : Phis.findIdx? fun HP => HP.PN = Induction with
      | none => simpa [hPN'] using List.findIdx?_eq_none_iff.mp hfind HP hHP
      | some k =>
        obtain ⟨hk, hk', -⟩ := List.findIdx?_eq_some_iff_getElem.mp hfind
        simpa [hk] using hk'
    stores := hstores
    store := hstore
    progress_outside := hptr
    body := (matchBody_ok hbody).1
    terminators := (matchBody_ok hbody).2
    exitPhis := fun PN hPN => matchExitPhi_ok (forM_ok.mp hexitPhis PN hPN) }

end

end Spork.Unroll.MatchProtocol
