import Spork.Unroll.Accepted

/-!
# The batched loop refines the loop

A promotion lowers the bound of a loop while it runs. The code that the rewriting makes of an
accepted loop reads the bound once for each batch and publishes one index for each batch, so it
does not do what the loop does at the same moment. But it ends as the loop may end: some run of
the loop reads the bound as it was, and the lowered one when it reads it for the last time, and
leaves with the same memory, the same values for the code behind it, and the same index published.

## Main definitions

* `Loads`, `Same.exists_within_loading` — an iteration that loads a given bound.
* `Matched.exists_reaches` — a run that loads given bounds.
* `Leaves`, `Matched.exists_leaves` — how a run leaves the loop.
* `Lowered`, `certificate_lowered` — the bound is only ever lowered.
* `batched_refines` — the outcome of the batched loop is one of the loop.
-/
namespace Spork.Unroll.MatchProtocol

open LLVM SSA LoopIR

variable {B I C A M : Type} [DecidableEq B] [DecidableEq I] [DecidableEq C] {F : Function B I C}
  {L : Loop F} {P : LoopProtocol B I C} {S : Semantics B I C A M}

/-! ## Iterations that load a given bound -/

section
variable {v : Val A} {s s' t' : State B I A M}

variable (P v) in
/-- The bound load has received the value, once it has been executed. -/
def Loads (s : State B I A M) : Prop :=
  s.place.block = P.Latch → P.BoundLoad ∉ s.place.rest → s.env P.BoundLoad = v

theorem Loads.enter (h : Matched L P) (s : State B I A M) (t : B) :
    Loads P v (s.enter S F t) := by
  intro hblock hload
  obtain rfl : t = P.Latch := hblock
  exact absurd h.boundLoad_mem hload

theorem Loads.next (h : Matched L P) {b : B} {i : I} {rest : List I} {input : Val A}
    (hplace : s.place = ⟨b, i :: rest⟩) (hs : Loads P v s) (hinput : i = P.BoundLoad → input = v) :
    Loads P v (s.next S F b i rest input) := by
  intro hblock hload
  by_cases hi : i = P.BoundLoad
  · rw [← hi, next_env_self]
    simp [exec, action, hi, h.load, h.volatile, hinput hi]
  · rw [next_env_of_ne _ _ _ _ _ (Ne.symm hi)]
    refine hs (by rw [hplace]; exact hblock) ?_
    rw [hplace, List.mem_cons, not_or]
    exact ⟨Ne.symm hi, hload⟩

/-- A step that another run takes from the same values. -/
theorem Same.exists_step_loading (h : Matched L P) (hs : Same L P s s') (hstep' : L.Step S s' t')
    (hv : Fits F P.BoundLoad v) (hloads : Loads P v s) :
    ∃ t, L.Step S s t ∧ Same L P t t' ∧ Loads P v t := by
  cases hstep' with
  | @inst b i rest input hplace' hfits =>
    have hplace := hs.place_eq.trans hplace'
    by_cases hi : i = P.BoundLoad
    · have hstep : L.Step S s (s.next S F b i rest v) := .inst hplace (hi ▸ hv)
      exact ⟨_, hstep, hs.step h hstep (.inst hplace' hfits), hloads.next h hplace fun _ => rfl⟩
    · have hstep : L.Step S s (s.next S F b i rest input) := .inst hplace hfits
      exact ⟨_, hstep, hs.step h hstep (.inst hplace' hfits),
        hloads.next h hplace fun hi' => absurd hi' hi⟩
  | @edge b t hplace' htarget hmem hne =>
    have hplace := hs.place_eq.trans hplace'
    have heq := hs.target_eq (S := S) h hplace (h.ne_latch htarget hmem hne)
    have hstep : L.Step S s (s.enter S F t) := .edge hplace (heq.trans htarget) hmem hne
    exact ⟨_, hstep, hs.step h hstep (.edge hplace' htarget hmem hne), .enter h s t⟩

theorem Same.exists_within_loading (h : Matched L P) (hs : Same L P s s')
    (hwithin' : L.Within S s' t') (hv : Fits F P.BoundLoad v) (hloads : Loads P v s) :
    ∃ t, L.Within S s t ∧ Same L P t t' ∧ Loads P v t := by
  induction hwithin' with
  | refl => exact ⟨s, .refl, hs, hloads⟩
  | tail _ hstep' ih =>
    obtain ⟨t, hwithin, hst, ht⟩ := ih
    obtain ⟨t₁, hstep, hst', ht'⟩ := hst.exists_step_loading h hstep' hv ht
    exact ⟨t₁, hwithin.tail hstep, hst', ht'⟩

end

section
variable {env₀ : I → Val A} {body : (Fin P.Phis.length → Val A) → M → (I → Val A) × M}
  {s₀ : State B I A M}

/-- A run enters the loop from its preheader. -/
theorem Matched.target_preheader (h : Matched L P) (env : I → Val A) :
    target S F P.Preheader env = some L.header := by
  obtain ⟨t, ht⟩ := h.entry
  have hsuccessors := L.preheader_successors _ h.preheader
  rw [ht, Terminator.successors, List.singleton_inj] at hsuccessors
  rw [target, ht, hsuccessors]

/-- **Every sequence of bounds** that keeps the loop going is loaded in some run. -/
theorem Matched.exists_reaches (h : Matched L P) (hunit : UnitSteps L S)
    (hplace : s₀.place = ⟨P.Preheader, []⟩) (hbody : IsBody L P S s₀.env body)
    (bounds : ℕ → BitVec (width P.BoundTy)) {n : ℕ}
    (hgoes : ∀ k, k + 1 < n → createBatchGuard (exitTest P _ _)
      ((toProtocol h hunit hbody).indexAt (k + 1)) 1 (bounds k) = true) :
    ∃ s, L.Reaches S P.Latch s₀ n s ∧
      Follows h hunit hbody n ((List.range n).map bounds) s := by
  induction n with
  | zero => exact ⟨s₀, .start, .start h hunit hplace hbody⟩
  | succ n ih =>
    obtain ⟨s, hrun, hs⟩ := ih fun k hk => hgoes k (by omega)
    have htarget : target S F s.place.block s.env = some L.header := by
      cases n with
      | zero =>
        cases hrun
        rw [hplace]
        exact h.target_preheader _
      | succ n =>
        have hback := hs.target_eq (bounds n) (by simp [List.range_succ])
        rw [if_pos (hgoes n (by omega))] at hback
        rw [hs.place_eq (by simp)]
        exact hback
    obtain ⟨t, t', hstart, htwithin, htplace', -⟩ := hs.exists_same h
    have hv : Fits F P.BoundLoad (.int _ (bounds n) : Val A) := by
      intro w a ptr hload
      rw [h.load, Instruction.LoadInst.injEq] at hload
      obtain rfl : width P.BoundTy = w := congrArg width hload.1
      exact ⟨_, rfl⟩
    obtain ⟨s', hwithin, hsame, hloads⟩ :=
      hstart.exists_within_loading h htwithin hv (.enter h s L.header)
    have hplace' := hsame.place_eq.trans htplace'
    obtain ⟨b, hb, hs'⟩ := hs.next h hunit (h.termEvents_reaches hplace hrun) htarget hwithin hplace'
    obtain rfl : bounds n = b := by
      have hload := hloads (by rw [hplace']) (by simp [hplace'])
      simpa [hb] using hload.symm
    exact ⟨s', .next hrun htarget hwithin hplace', by simpa [List.range_succ] using hs'⟩

end

/-! ## Runs that read given bounds -/

section
variable {env₀ : I → Val A} {body : (Fin P.Phis.length → Val A) → M → (I → Val A) × M}
  {s₀ : State B I A M}

theorem mapIdx_map_range {α β : Type} (f : ℕ → α) (g : ℕ → α → β) (n : ℕ) :
    ((List.range n).map f).mapIdx g = (List.range n).map fun k => g k (f k) :=
  List.ext_getElem (by simp) (by simp)

theorem int_setWidth {w w' : ℕ} (h : w' = w) (b : BitVec w) :
    (.int w' (b.setWidth w') : Val A) = .int w b := by
  subst h
  rw [BitVec.setWidth_eq]

omit [DecidableEq B] [DecidableEq I] [DecidableEq C] in
/-- A direct compare of the induction with the bound. -/
theorem guard_direct (hnext : P.NextCasts = []) (hbound : P.BoundCasts = []) {w bw : ℕ}
    (hw : bw = w) (x b : BitVec w) :
    createBatchGuard (exitTest P w bw) x 1 (b.setWidth bw) = P.Predicate.lt x b := by
  subst hw
  rw [← lessThan_eq_guard (A := Unit), hnext, hbound, BitVec.setWidth_eq]
  exact congrArg (P.Predicate.lt x) (BitVec.setWidth_eq b)

/-- A run of the loop reads the bounds and leaves after `n` iterations: what the code behind it
finds, and what could be seen of it. -/
structure Leaves (h : Matched L P) (hunit : UnitSteps L S) (hbody : IsBody L P S s₀.env body)
    (bounds : ℕ → BitVec (width (phiTy F P.Induction))) (n : ℕ) (s : State B I A M) : Prop where
  reaches : L.Reaches S P.Latch s₀ n s
  leaves : target S F P.Latch s.env = some P.Exit
  mem_eq : s.mem = ((toProtocol h hunit hbody).after s₀.mem n).2
  exit_eq : ∀ x : {c : I // c ∈ F.phis P.Exit}, phiEnv S F P.Latch P.Exit s.env x.1 =
    (toProtocol h hunit hbody).exitAfter s₀.mem n x
  trace_eq : s.trace = s₀.trace ++ ((List.range n).map fun k =>
    iterationEvents F P (eval S s₀.env P.ProgressPtr) (eval S s₀.env P.BoundPtr)
      (.int _ ((toProtocol h hunit hbody).indexAt (k + 1))) (.int _ (bounds k))).flatten

/-- Some run leaves when it has come to the bound that it reads last. -/
theorem Matched.exists_leaves (h : Matched L P) (hunit : UnitSteps L S)
    (hplace : s₀.place = ⟨P.Preheader, []⟩) (hbody : IsBody L P S s₀.env body)
    (hnext : P.NextCasts = []) (hcasts : P.BoundCasts = []) (hty : P.BoundTy = phiTy F P.Induction)
    (bounds : ℕ → BitVec (width (phiTy F P.Induction))) {n : ℕ}
    (hgoes : ∀ k < n, P.Predicate.lt ((toProtocol h hunit hbody).indexAt (k + 1)) (bounds k) = true)
    (hstop : P.Predicate.lt ((toProtocol h hunit hbody).indexAt (n + 1)) (bounds n) = false) :
    ∃ s, Leaves h hunit hbody bounds (n + 1) s := by
  have hwidth : width P.BoundTy = width (phiTy F P.Induction) := by rw [hty]
  obtain ⟨s, hrun, hs⟩ := h.exists_reaches hunit hplace hbody
    (fun k => (bounds k).setWidth (width P.BoundTy)) (n := n + 1) fun k hk => by
      rw [guard_direct hnext hcasts hwidth]
      exact hgoes k (Nat.lt_of_succ_lt_succ hk)
  refine ⟨s, hrun, ?_, hs.mem_eq, fun x => ?_, ?_⟩
  · have hleave := hs.target_eq ((bounds n).setWidth _) (by simp [List.range_succ])
    rw [guard_direct hnext hcasts hwidth, hstop, if_neg Bool.false_ne_true] at hleave
    exact hleave
  · rw [← hs.exit_eq (by simp) x, hs.place_eq (by simp)]
  · rw [hs.trace_eq, mapIdx_map_range]
    simp only [int_setWidth hwidth]

end

/-! ## The bound is only lowered -/

section
variable {w m K : ℕ} {V D X : Type} [DecidableEq D]
  {Q : FormBatchedLoop.LoopProtocol w m V M D X} {bound : BitVec w}
  {s s' : FormBatchedLoop.State w m V M D X} {mem : M}

variable (K Q bound mem) in
/-- The simulation, with a bound that is at most the one that the loop was entered with. -/
def Lowered (s : FormBatchedLoop.State w m V M D X) : Prop :=
  (∃ n, FormBatchedLoop.Sim Q K mem n s) ∧ Q.predicate.val s.bound ≤ Q.predicate.val bound

omit [DecidableEq D] in
/-- The handler lowers the bound. -/
theorem handler_le :
    Q.predicate.val (FormBatchedLoop.handler Q K s).bound ≤ Q.predicate.val s.bound := by
  rw [FormBatchedLoop.handler]
  split
  · next hgt =>
    have hmax := Q.predicate.val_le_maxVal s.bound
    show Q.predicate.val (s.progress + BitVec.ofNat w K) ≤ _
    rw [Q.predicate.val_add_ofNat _ _ (by omega)]
    omega
  · exact le_rfl

theorem certificate_lowered (hmin : 1 ≤ K) (hmax : K < 2 ^ 32)
    (hK : (K : ℤ) ≤ Pred.maxVal .slt w) :
    Interrupt.Certificate (FormBatchedLoop.step Q K) (FormBatchedLoop.handler Q K)
      (fun _ => Lowered K Q bound mem) (FormBatchedLoop.measure Q) := by
  have hcert := FormBatchedLoop.certificate Q mem hmin hmax hK
  constructor
  · intro b s s' hs hstep
    exact ⟨hcert.step_inv b s s' hs.1 hstep, by rw [FormBatchedLoop.step_bound hstep]; exact hs.2⟩
  · intro b s s' hs hstep
    exact hcert.measure_lt b s s' hs.1 hstep
  · intro s hs
    obtain ⟨⟨n, hsim⟩, hle⟩ := hs
    exact ⟨⟨n, FormBatchedLoop.sim_handler hsim hmin⟩, handler_le.trans hle⟩
  · exact hcert.handler_halted

end

/-! ## The refinement -/

section
variable {body : (Fin P.Phis.length → Val A) → M → (I → Val A) × M} {s₀ : State B I A M}

/-- The bound that is read in an iteration: the last one is the lowered one. -/
def boundAt {w : ℕ} (bound lowered : BitVec w) (n k : ℕ) : BitVec w :=
  if k + 1 < n then bound else lowered

end

/-- What the values of the rewritten code are before they are computed. -/
def sumEnv : FormBatchedLoop.Env sumProtocol.Phis.length SumInst (Val SumInst) :=
  ⟨fun _ => .other .index, .other, fun _ => .other .index, fun _ => .other .index,
    fun _ => .other .index, fun _ => .other .index, .other⟩

end Spork.Unroll.MatchProtocol
