import Spork.Lib.Descent
import Spork.Scheduler.Invariant

/-!
# What is left to do

The debts of a call are the code it may yet run: the turn of its loop, the iterations beyond,
the jobs it may yet enqueue and what follows its slot. A step of the call pays one debt with
lesser ones. A promotion of `parfor_` pays the iterations left to the loop with fewer, and
with two jobs over what remains; each of them is shorter, because the loop keeps as many
iterations as the unroll factor says.

## Main definitions

* `Debt`, `Debt.Lt` — what there is to do, and what is less.
* `Code.Positive`, `acc_code` — code whose loops keep at least one iteration.
* `Call.loop`, `Call.turn`, `Call.spawns`, `Call.rest` — the debts of a call.
* `Call.Linked` — the loop publishes the iterations it has done.
-/
namespace Spork.Scheduler

open CInt Descent Parfor

variable {W V : Type}

/-- What there is to do. -/
inductive Debt (V : Type) : Type 1
  /-- A step of the library. -/
  | tick
  | code (c : Code V)
  /-- One of a family of sequences of operations. -/
  | tails {ι : Type} (g : ι → List (Op V))
  /-- A loop that has published `i`, and may yet be promoted. -/
  | loop (factor i j : ℤ) (body : ℤ → Code V) (binop : Half → Code V)

/-- A number of steps of the library. -/
def ticks (n : ℕ) : Multiset (Debt V) := Multiset.replicate n .tick

@[simp] theorem ticks_zero : (ticks 0 : Multiset (Debt V)) = 0 := rfl

/-- Code out of a family. -/
def Debt.any {ι : Type} (g : ι → Code V) : Debt V := .tails fun x => [.call .body (g x)]

/-- The debts of operations. Whatever a `sync` finds, what follows it is less. -/
def opsDebts : List (Op V) → Multiset (Debt V)
  | [] => 0
  | .call _ c :: ops => {.code c} + ticks 1 + opsDebts ops
  | .sync _ _ :: ops => {.tails fun _ : V => ops} + ticks 4
  | .sync_is_stolen _ unstolen stolen :: ops =>
      {.tails fun sr => .call (stolen sr).1 (stolen sr).2 :: ops} +
        {.tails fun _ : V => .call unstolen.1 unstolen.2 :: ops} + ticks 4

namespace Call

/-- The iterations that the loop of the call has not published. -/
def loop : Call V → Multiset (Debt V)
  | parfor factor _ body binop c _ =>
      {.loop factor c.vars.sig_safe_i c.vars.loop_end body binop}
  | scan n body _ _ _ c => {.loop 1 c.vars.sig_safe_i n body fun _ => body 0}
  | _ => 0

/-- The rest of the turn of a loop. -/
def turnOf (body : ℤ → Code V) (c : Loop) : Multiset (Debt V) :=
  match c.pc with
  | .test => {.any body} + ticks 1
  | .body => {.any body}
  | .incr => ticks 1
  | .publish | .done => 0

/-- The rest of the turn of the call. -/
def turn : Call V → Multiset (Debt V)
  | par lamL _ => {.code lamL}
  | spork body _ _ _ _ _ => {.code body}
  | parfor _ _ body _ c _ => turnOf body c
  | scan _ body _ _ _ c => turnOf body c

/-- The same while the body runs. -/
def turnInside : Call V → Multiset (Debt V)
  | parfor _ _ _ _ _ _ | scan _ _ _ _ _ _ => ticks 1
  | _ => 0

/-- The jobs that the call enqueues if it is promoted. The halves of `parfor_` are part of
its loop. -/
def spawns : Call V → Multiset (Debt V)
  | par _ lamR => {.code lamR} + ticks 4
  | spork _ spwn _ _ _ _ => {.code spwn} + ticks 4
  | parfor _ _ _ _ _ _ => 0
  | scan _ _ _ up _ _ => {.any up}

/-- What may follow the slot. -/
def rest : Call V → Debt V
  | par _ lamR => .tails fun promoted : Bool =>
      if promoted then [.sync .jp false] else [.call .lamR lamR]
  | spork _ _ unpr unst prom _ => .tails fun p : Bool × V =>
      if p.1 then
        [.sync_is_stolen .jp (.unst p.2, unst p.2) fun sr => (.prom p.2 sr, prom p.2 sr)]
      else [.call (.unpr p.2) (unpr p.2)]
  | parfor _ _ _ binop _ _ => .tails fun p : Promotion => parforJoins binop p
  | scan _ _ first _ rest _ => .tails fun i : ℤ =>
      [.call .first (first i), .sync_is_stolen .up (.rest, rest none i)
        fun up => (.rest, rest (some up) i)]

/-- All debts of a call that begins. -/
def debts (call : Call V) (k : V → Code V) : Multiset (Debt V) :=
  call.turn + call.loop + call.spawns + {call.rest} + {.any k}

end Call

/-- What pays a debt. -/
inductive Debt.Lt [Inhabited V] : Debt V → Debt V → Prop
  | tick (c : Code V) : Lt .tick (.code c)
  | choose (k : ℕ → Code V) (n : ℕ) : Lt (.code (k n)) (.code (.choose k))
  | enter {c : Code V} {call : Call V} {k : V → Code V} {d : Debt V}
      (h : Call.enter c = some (call, k)) (hd : d ∈ call.debts k) : Lt d (.code c)
  | tails {ι : Type} (g : ι → List (Op V)) (x : ι) {d : Debt V} (hd : d ∈ opsDebts (g x)) :
      Lt d (.tails g)
  | step (factor i j : ℤ) (body : ℤ → Code V) (binop : Half → Code V) :
      Lt .tick (.loop factor i j body binop)
  | turn (factor i j : ℤ) (body : ℤ → Code V) (binop : Half → Code V) :
      Lt (.any body) (.loop factor i j body binop)
  | shorter {factor i j a b : ℤ} (body : ℤ → Code V) (binop : Half → Code V)
      (h : factor < 1 ∨ (b - a).toNat < (j - i).toNat) :
      Lt (.loop factor a b body binop) (.loop factor i j body binop)
  | half {factor i j a b : ℤ} (body : ℤ → Code V) (binop : Half → Code V)
      (h : factor < 1 ∨ (b - a).toNat < (j - i).toNat) :
      Lt (.code (.parfor factor a b body binop (.ret default))) (.loop factor i j body binop)

/-! ## No debt can be lessened for ever -/

section
variable [Inhabited V]

theorem acc_tick : Acc Debt.Lt (.tick : Debt V) := ⟨_, fun _ h => nomatch h⟩

theorem acc_ret (v : V) : Acc Debt.Lt (.code (.ret v) : Debt V) := by
  refine ⟨_, fun d h => ?_⟩
  cases h with
  | tick => exact acc_tick
  | enter h => cases h

theorem acc_of_mem_ticks {n : ℕ} {d : Debt V} (hd : d ∈ ticks n) : Acc Debt.Lt d :=
  Multiset.eq_of_mem_replicate hd ▸ acc_tick

/-- No code of the operation can be lessened for ever. -/
def Op.Bounded : Op V → Prop
  | .call _ c => Acc Debt.Lt (.code c)
  | .sync _ _ => True
  | .sync_is_stolen _ unstolen stolen =>
      Acc Debt.Lt (.code unstolen.2) ∧ ∀ sr, Acc Debt.Lt (.code (stolen sr).2)

theorem acc_tails {ι : Type} {g : ι → List (Op V)}
    (h : ∀ x, ∀ d ∈ opsDebts (g x), Acc Debt.Lt d) : Acc Debt.Lt (.tails g) := by
  refine ⟨_, fun d hd => ?_⟩
  cases hd with
  | tails g x hd => exact h x d hd

theorem acc_ops {ops : List (Op V)} (h : ∀ op ∈ ops, op.Bounded) :
    ∀ d ∈ opsDebts ops, Acc Debt.Lt d := by
  induction ops with
  | nil => exact fun d hd => absurd hd (Multiset.notMem_zero d)
  | cons op ops ih =>
    have hop := h op List.mem_cons_self
    have hops := ih fun op' hop' => h op' (List.mem_cons_of_mem _ hop')
    have hcall : ∀ (e : Entry V) (c : Code V), Acc Debt.Lt (.code c) →
        ∀ d ∈ opsDebts (.call e c :: ops), Acc Debt.Lt d := by
      intro e c hc d hd
      rcases Multiset.mem_add.mp hd with hd | hd
      · rcases Multiset.mem_add.mp hd with hd | hd
        · exact Multiset.mem_singleton.mp hd ▸ hc
        · exact acc_of_mem_ticks hd
      · exact hops d hd
    cases op with
    | call e c => exact hcall e c hop
    | sync J b =>
      intro d hd
      rcases Multiset.mem_add.mp hd with hd | hd
      · exact Multiset.mem_singleton.mp hd ▸ acc_tails fun _ => hops
      · exact acc_of_mem_ticks hd
    | sync_is_stolen J unstolen stolen =>
      intro d hd
      rcases Multiset.mem_add.mp hd with hd | hd
      · rcases Multiset.mem_add.mp hd with hd | hd
        · exact Multiset.mem_singleton.mp hd ▸ acc_tails fun sr => hcall _ _ (hop.2 sr)
        · exact Multiset.mem_singleton.mp hd ▸ acc_tails fun _ => hcall _ _ hop.1
      · exact acc_of_mem_ticks hd

theorem acc_any {ι : Type} {g : ι → Code V} (h : ∀ x, Acc Debt.Lt (.code (g x))) :
    Acc Debt.Lt (.any g) :=
  acc_tails fun x => acc_ops (List.forall_mem_singleton.mpr (h x))

theorem acc_parforJoins {binop : Half → Code V} (h : ∀ n, Acc Debt.Lt (.code (binop n)))
    (p : Promotion) : ∀ d ∈ opsDebts (parforJoins binop p), Acc Debt.Lt d := by
  refine acc_ops fun op hop => ?_
  rw [parforJoins, List.mem_append] at hop
  rcases hop with hop | hop <;> split_ifs at hop <;> simp only [List.mem_cons, List.not_mem_nil,
    or_false] at hop <;> rcases hop with rfl | rfl <;> first | trivial | exact h _

/-- Each promotion shortens a loop that keeps at least one iteration. -/
theorem acc_loop {factor : ℤ} {body : ℤ → Code V} {binop : Half → Code V} (hf : 1 ≤ factor)
    (hbody : ∀ n, Acc Debt.Lt (.code (body n))) (hbinop : ∀ n, Acc Debt.Lt (.code (binop n)))
    (i j : ℤ) : Acc Debt.Lt (.loop factor i j body binop) := by
  induction hn : (j - i).toNat using Nat.strong_induction_on generalizing i j with
  | _ n ih =>
    have hshort : ∀ {a b : ℤ}, factor < 1 ∨ (b - a).toNat < (j - i).toNat →
        Acc Debt.Lt (.loop factor a b body binop) := by
      intro a b h
      exact ih _ (hn ▸ h.resolve_left (not_lt.mpr hf)) a b rfl
    refine ⟨_, fun d hd => ?_⟩
    cases hd with
    | step => exact acc_tick
    | turn => exact acc_any hbody
    | shorter _ _ h => exact hshort h
    | @half _ _ _ a b _ _ h =>
      refine ⟨_, fun d hd => ?_⟩
      cases hd with
      | tick => exact acc_tick
      | enter henter hd =>
        cases henter
        simp only [Call.debts, Call.turn, Call.turnOf, Loop.enter, Call.loop, Call.spawns,
          Multiset.mem_add, Multiset.mem_singleton, Multiset.notMem_zero, or_false] at hd
        rcases hd with (((hd | hd) | hd) | hd) | hd
        · exact hd ▸ acc_any hbody
        · exact acc_of_mem_ticks hd
        · exact hd ▸ hshort h
        · exact hd ▸ acc_tails fun p => acc_parforJoins hbinop p
        · exact hd ▸ acc_any fun _ => acc_ret _

end

/-- The loops of the code are unrolled by at least one. -/
def Code.Positive : Code V → Prop
  | .ret _ => True
  | .choose k => ∀ n, (k n).Positive
  | .par lamL lamR k => lamL.Positive ∧ lamR.Positive ∧ k.Positive
  | .spork body spwn unpr unst prom k => body.Positive ∧ spwn.Positive ∧
      (∀ v, (unpr v).Positive) ∧ (∀ v, (unst v).Positive) ∧
      (∀ v sr, (prom v sr).Positive) ∧ ∀ v, (k v).Positive
  | .parfor factor _ _ body binop k => 1 ≤ factor ∧ (∀ n, (body n).Positive) ∧
      (∀ n, (binop n).Positive) ∧ k.Positive
  | .scan _ body first up rest k => (∀ n, (body n).Positive) ∧ (∀ n, (first n).Positive) ∧
      (∀ p, (up p).Positive) ∧ (∀ v n, (rest v n).Positive) ∧ k.Positive

/-- Such code cannot be lessened for ever. -/
theorem acc_code [Inhabited V] {c : Code V} (hc : c.Positive) : Acc Debt.Lt (.code c) := by
  induction c with
  | ret v => exact acc_ret v
  | choose k ih =>
    refine ⟨_, fun d hd => ?_⟩
    cases hd with
    | tick => exact acc_tick
    | choose k n => exact ih n (hc n)
    | enter h => cases h
  | par lamL lamR k ihL ihR ihk =>
    obtain ⟨hL, hR, hk⟩ := hc
    refine ⟨_, fun d hd => ?_⟩
    cases hd with
    | tick => exact acc_tick
    | enter henter hd =>
      cases henter
      simp only [Call.debts, Call.turn, Call.loop, Call.spawns, add_zero, Multiset.mem_add,
        Multiset.mem_singleton] at hd
      rcases hd with ((hd | hd | hd) | hd) | hd
      · exact hd ▸ ihL hL
      · exact hd ▸ ihR hR
      · exact acc_of_mem_ticks hd
      · refine hd ▸ acc_tails fun promoted => acc_ops ?_
        cases promoted
        · exact List.forall_mem_singleton.mpr (ihR hR)
        · exact List.forall_mem_singleton.mpr trivial
      · exact hd ▸ acc_any fun _ => ihk hk
  | spork body spwn unpr unst prom k ihbody ihspwn ihunpr ihunst ihprom ihk =>
    obtain ⟨hbody, hspwn, hunpr, hunst, hprom, hk⟩ := hc
    refine ⟨_, fun d hd => ?_⟩
    cases hd with
    | tick => exact acc_tick
    | enter henter hd =>
      cases henter
      simp only [Call.debts, Call.turn, Call.loop, Call.spawns, add_zero, Multiset.mem_add,
        Multiset.mem_singleton] at hd
      rcases hd with ((hd | hd | hd) | hd) | hd
      · exact hd ▸ ihbody hbody
      · exact hd ▸ ihspwn hspwn
      · exact acc_of_mem_ticks hd
      · refine hd ▸ acc_tails fun p => acc_ops ?_
        obtain ⟨promoted, br⟩ := p
        cases promoted
        · exact List.forall_mem_singleton.mpr (ihunpr br (hunpr br))
        · exact List.forall_mem_singleton.mpr
            ⟨ihunst br (hunst br), fun sr => ihprom br sr (hprom br sr)⟩
      · exact hd ▸ acc_any fun v => ihk v (hk v)
  | parfor factor i j body binop k ihbody ihbinop ihk =>
    obtain ⟨hf, hbody, hbinop, hk⟩ := hc
    have hb := fun n => ihbody n (hbody n)
    have ho := fun n => ihbinop n (hbinop n)
    refine ⟨_, fun d hd => ?_⟩
    cases hd with
    | tick => exact acc_tick
    | enter henter hd =>
      cases henter
      simp only [Call.debts, Call.turn, Call.turnOf, Loop.enter, Call.loop, Call.spawns,
        Multiset.mem_add, Multiset.mem_singleton, Multiset.notMem_zero, or_false] at hd
      rcases hd with (((hd | hd) | hd) | hd) | hd
      · exact hd ▸ acc_any hb
      · exact acc_of_mem_ticks hd
      · exact hd ▸ acc_loop hf hb ho _ _
      · exact hd ▸ acc_tails fun p => acc_parforJoins ho p
      · exact hd ▸ acc_any fun _ => ihk hk
  | scan n body first up rest k ihbody ihfirst ihup ihrest ihk =>
    obtain ⟨hbody, hfirst, hup, hrest, hk⟩ := hc
    have hb := fun n => ihbody n (hbody n)
    refine ⟨_, fun d hd => ?_⟩
    cases hd with
    | tick => exact acc_tick
    | enter henter hd =>
      cases henter
      simp only [Call.debts, Call.turn, Call.turnOf, Loop.enter, Call.loop, Call.spawns,
        Multiset.mem_add, Multiset.mem_singleton] at hd
      rcases hd with ((((hd | hd) | hd) | hd) | hd) | hd
      · exact hd ▸ acc_any hb
      · exact acc_of_mem_ticks hd
      · exact hd ▸ acc_loop le_rfl hb (fun _ => hb 0) _ _
      · exact hd ▸ acc_any fun p => ihup p (hup p)
      · refine hd ▸ acc_tails fun i => acc_ops ?_
        refine List.forall_mem_cons.mpr ⟨ihfirst i (hfirst i), List.forall_mem_singleton.mpr ?_⟩
        exact ⟨ihrest none i (hrest none i), fun up => ihrest (some up) i (hrest (some up) i)⟩
      · exact hd ▸ acc_any fun _ => ihk hk

/-! ## The loop publishes what it has done -/

namespace Call

/-- The loop has published the iterations before its turn, and its turn is one of those below
its bound. -/
def LinkedTo (hi : ℤ) (c : Loop) : Prop :=
  c.vars.sig_safe_i = c.published ∧
    (c.pc = .body ∨ c.pc = .incr ∨ c.pc = .publish → c.vars.sig_safe_i < hi)

/-- The same of a call. -/
def Linked : Call V → Prop
  | parfor factor _ _ _ c _ => 1 ≤ factor → LinkedTo c.vars.loop_end c
  | scan n _ _ _ _ c => c.vars.loop_end ≤ n ∧ LinkedTo n c
  | _ => True

/-- The call runs its body. -/
def AtBody : Call V → Prop
  | parfor _ _ _ _ c _ | scan _ _ _ _ _ c => c.pc = .body
  | _ => True

theorem linkedTo_enter (hi i j : ℤ) : LinkedTo hi (Loop.enter .exact i j) :=
  ⟨rfl, fun h => by rcases h with h | h | h <;> cases h⟩

theorem linked_enter [Inhabited V] {c : Code V} {call : Call V} {k : V → Code V}
    (h : enter c = some (call, k)) : call.Linked := by
  cases c with
  | ret => cases h
  | choose => cases h
  | par => cases h; trivial
  | spork => cases h; trivial
  | parfor => cases h; exact fun _ => linkedTo_enter ..
  | scan => cases h; exact ⟨le_rfl, linkedTo_enter ..⟩

theorem linkedTo_step {hi : ℤ} {c c' : Loop} (h : LinkedTo hi c) (hhi : c.vars.loop_end ≤ hi)
    (hstep : c.step .exact = some c') : LinkedTo hi c' := by
  obtain ⟨⟨i, ssi, e⟩, pc⟩ := c
  obtain ⟨hpub, hlt⟩ := h
  cases pc <;> simp only [Loop.step, Arith.exact, Option.map_some, Option.some.injEq] at hstep <;>
    subst hstep <;> simp only [Loop.published, reduceCtorEq, if_false, if_true] at hpub
  case test =>
    subst hpub
    by_cases hi : ssi < e
    · exact ⟨by simp [Loop.published, hi], fun _ => lt_of_lt_of_le hi hhi⟩
    · exact ⟨by simp [Loop.published, hi], fun h => by simp [hi] at h⟩
  case body => exact ⟨hpub, fun _ => hlt (.inl rfl)⟩
  case incr =>
    refine ⟨?_, fun _ => hlt (.inr (.inl rfl))⟩
    show ssi = i + 1 - 1
    omega
  case publish => exact ⟨rfl, fun h => by rcases h with h | h | h <;> cases h⟩
  case done => exact ⟨hpub, fun h => by rcases h with h | h | h <;> cases h⟩

theorem step_body {c c' : Loop} (hb : c.pc = .body) (h : c.step .exact = some c') :
    c' = { c with pc := .incr } := by
  rw [Loop.step] at h
  simp only [hb, Option.some.injEq] at h
  exact h.symm

/-- A step of a loop that runs no body pays a debt of its turn or, where it publishes, of the
iterations it has left. -/
theorem loop_pays [Inhabited V] {factor hi : ℤ} (body : ℤ → Code V) (binop : Half → Code V)
    {c c' : Loop} (h : 1 ≤ factor → LinkedTo hi c) (hb : c.pc ≠ .body) (hd : c.pc ≠ .done)
    (hstep : c.step .exact = some c') :
    Descends Debt.Lt (turnOf body c' + {.loop factor c'.vars.sig_safe_i hi body binop})
      (turnOf body c + {.loop factor c.vars.sig_safe_i hi body binop}) := by
  obtain ⟨⟨i, ssi, e⟩, pc⟩ := c
  cases pc with
  | body => exact absurd rfl hb
  | done => exact absurd rfl hd
  | test =>
    cases hstep
    refine Descends.add ?_ _
    by_cases hlt : i < e
    · simp only [turnOf, if_pos hlt]
      exact Descends.drop_right _ _
    · simp only [turnOf, if_neg hlt]
      exact (Reaches.of_le (Multiset.zero_le _)).trans_descends (Descends.drop_right _ _)
  | incr =>
    cases hstep
    exact Descends.add (Descends.drop _) _
  | publish =>
    cases hstep
    rw [turnOf, turnOf, zero_add]
    refine Descends.pay fun d hd => ?_
    simp only [Multiset.mem_add, Multiset.mem_singleton] at hd
    rcases hd with (rfl | hd) | rfl
    · exact .turn ..
    · exact Multiset.eq_of_mem_replicate hd ▸ .step ..
    · refine .shorter body binop ?_
      by_cases hf : 1 ≤ factor
      · obtain ⟨hpub, hlt⟩ := h hf
        have hpub : ssi = i - 1 := hpub
        have hlt : ssi < hi := hlt (.inr (.inr rfl))
        right
        show (hi - i).toNat < (hi - ssi).toNat
        omega
      · exact .inl (by omega)

/-! ## Steps of a call -/

section
variable [Inhabited V] {call call' : Call V} {c : Code V} {v : V}

/-- The body goes on, and pays. -/
theorem move_debts (h : call.next = some (.move call')) (hl : call.Linked) :
    call'.Linked ∧ call'.spawns = call.spawns ∧ call'.rest = call.rest ∧
      Descends Debt.Lt (call'.turn + call'.loop) (call.turn + call.loop) := by
  cases call with
  | par => cases h
  | spork => cases h
  | parfor factor j body binop c lr =>
    have hpc : c.pc ≠ .body ∧ c.pc ≠ .done := by
      constructor <;> intro hpc <;> simp [next, loopNext, hpc] at h
    obtain ⟨c', hc, rfl⟩ := loopNext_move h
    have hpays := loop_pays body binop hl hpc.1 hpc.2 hc
    refine ⟨fun hf => ?_, rfl, rfl, ?_⟩
    · rw [step_exact hc]
      exact linkedTo_step (hl hf) le_rfl hc
    · rw [loop, step_exact hc]
      exact hpays
  | scan n body first up rest c =>
    have hpc : c.pc ≠ .body ∧ c.pc ≠ .done := by
      constructor <;> intro hpc <;> simp [next, loopNext, hpc] at h
    obtain ⟨c', hc, rfl⟩ := loopNext_move h
    refine ⟨⟨?_, linkedTo_step hl.2 hl.1 hc⟩, rfl, rfl,
      loop_pays _ _ (fun _ => hl.2) hpc.1 hpc.2 hc⟩
    rw [step_exact hc]
    exact hl.1

/-- The body runs code out of its turn. -/
theorem next_call_debts (h : call.next = some (.call c)) :
    call.AtBody ∧ Reaches Debt.Lt ({.code c} + call.turnInside) call.turn := by
  have hloop : ∀ {body : ℤ → Code V} {wrap : Loop → Call V} {l : Loop},
      loopNext body wrap l = some (.call c) → l.pc = .body ∧
        Reaches Debt.Lt ({.code c} + ticks 1) (turnOf body l) := by
    intro body wrap l h
    cases hpc : l.pc
    case body =>
      simp only [loopNext, hpc, Option.some.injEq, Next.call.injEq] at h
      subst h
      rw [turnOf, hpc]
      refine ⟨rfl, Reaches.pay fun d hd => .tails _ l.vars.i ?_⟩
      rw [opsDebts, opsDebts, add_zero]
      exact hd
    case done => simp [loopNext, hpc] at h
    all_goals
      simp only [loopNext, hpc] at h
      obtain ⟨c', -, he⟩ := Option.map_eq_some_iff.mp h
      cases he
  cases call with
  | par => cases h; exact ⟨trivial, .refl _⟩
  | spork => cases h; exact ⟨trivial, .refl _⟩
  | parfor => exact hloop h
  | scan => exact hloop h

omit [Inhabited V] in
/-- The body has returned. -/
theorem resume_debts {ended : Bool} (h : call.resume v = some (call', ended)) (hl : call.Linked)
    (hb : call.AtBody) : call'.Linked ∧ call'.spawns = call.spawns ∧ call'.rest = call.rest ∧
      call'.loop = call.loop ∧ (ended = false → call'.turn = call.turnInside) := by
  cases call with
  | par => cases h; exact ⟨trivial, rfl, rfl, rfl, fun he => nomatch he⟩
  | spork => cases h; exact ⟨trivial, rfl, rfl, rfl, fun he => nomatch he⟩
  | parfor factor j body binop c lr =>
    obtain ⟨c', hc, he⟩ := Option.map_eq_some_iff.mp h
    cases he
    obtain rfl := step_body hb hc
    exact ⟨fun hf => linkedTo_step (hl hf) le_rfl hc, rfl, rfl, rfl, fun _ => rfl⟩
  | scan n body first up rest c =>
    obtain ⟨c', hc, he⟩ := Option.map_eq_some_iff.mp h
    cases he
    obtain rfl := step_body hb hc
    exact ⟨⟨hl.1, linkedTo_step hl.2 hl.1 hc⟩, rfl, rfl, rfl, fun _ => rfl⟩

/-- What follows the slot is less than what may follow it. -/
theorem after_debts {promoted : Bool} {ops : List (Op V)} (h : call.after promoted = some ops)
    {d : Debt V} (hd : d ∈ opsDebts ops) : Debt.Lt d call.rest := by
  cases call with
  | par lamL lamR => cases h; exact .tails _ promoted hd
  | spork body spwn unpr unst prom br => cases h; exact .tails _ (promoted, br) hd
  | parfor factor j body binop c lr =>
    cases promoted with
    | false => cases h; exact absurd hd (Multiset.notMem_zero _)
    | true =>
      obtain ⟨p, -, rfl⟩ := Option.map_eq_some_iff.mp h
      exact .tails _ p hd
  | scan n body first up rest c =>
    cases h
    split_ifs at hd
    · exact .tails _ c.vars.i hd
    · exact absurd hd (Multiset.notMem_zero _)

/-- The debts of jobs that are enqueued. -/
def spawnDebts (sp : List (Spawn V)) : Multiset (Debt V) :=
  (sp.map fun s => {.code s.run} + ticks 4).sum

omit [Inhabited V] in
theorem mem_spawnDebts {sp : List (Spawn V)} {d : Debt V} (hd : d ∈ spawnDebts sp) :
    d = .tick ∨ ∃ s ∈ sp, d = .code s.run := by
  induction sp with
  | nil => exact absurd hd (Multiset.notMem_zero d)
  | cons s sp ih =>
    rw [spawnDebts, List.map_cons, List.sum_cons] at hd
    rcases Multiset.mem_add.mp hd with hd | hd
    · rcases Multiset.mem_add.mp hd with hd | hd
      · exact .inr ⟨s, List.mem_cons_self, Multiset.mem_singleton.mp hd⟩
      · exact .inl (Multiset.eq_of_mem_replicate hd)
    · exact (ih hd).imp_right fun ⟨s', hs', he⟩ => ⟨s', List.mem_cons_of_mem _ hs', he⟩

/-- A promotion of `parfor_` leaves the loop as it is, or shortens it: it keeps `factor`
iterations, and the halves are shorter than it was. -/
theorem parforProm_cases {factor j : ℤ} {v : LoopVars} (hf : 1 ≤ factor) (hj : v.loop_end = j) :
    ((parforProm factor j v).loop_end = v.loop_end ∧ (parforProm factor j v).enqueued = []) ∨
    (v.sig_safe_i < (parforProm factor j v).loop_end ∧
      ((parforProm factor j v).loop_end - v.sig_safe_i).toNat <
        (v.loop_end - v.sig_safe_i).toNat ∧
      ∀ h ∈ (parforProm factor j v).enqueued, (((parforProm factor j v).job h).j -
        ((parforProm factor j v).job h).i).toNat < (v.loop_end - v.sig_safe_i).toNat) := by
  by_cases hrest : v.loop_end - v.sig_safe_i ≤ factor
  · have hp : promotion .exact factor j v = some ⟨v.loop_end, ⟨0, 0⟩, ⟨0, 0⟩, []⟩ := if_pos hrest
    have he : parforProm factor j v = ⟨v.loop_end, ⟨0, 0⟩, ⟨0, 0⟩, []⟩ :=
      Option.get_of_eq_some _ hp
    rw [he]
    exact .inl ⟨rfl, rfl⟩
  · have hp := promotion_exact factor j v (by omega) (by omega)
    have he : parforProm factor j v = split factor j v.sig_safe_i v.loop_end :=
      Option.get_of_eq_some _ hp
    right
    rw [he]
    rcases split_cases factor j v.sig_safe_i v.loop_end with ⟨hle, -⟩ | ⟨hend, hs⟩ |
      ⟨mid, hlo, hhi, hs⟩
    · exact absurd hle hrest
    · rw [hs]
      refine ⟨by simp only; omega, by simp only; omega, fun h hh => ?_⟩
      rw [List.mem_singleton.mp hh]
      simp only [Promotion.job]
      omega
    · rw [hs]
      refine ⟨by simp only; omega, by simp only; omega, fun h hh => ?_⟩
      cases h <;> simp only [Promotion.job] <;> omega

/-- A promotion function pays with the jobs that it enqueues. -/
theorem promfn_debts {pend : List JobName} (hinv : call.Inv false pend) (hl : call.Linked) :
    call.promfn.1.Linked ∧ (call.AtBody → call.promfn.1.AtBody) ∧
    call.promfn.1.rest = call.rest ∧ call.promfn.1.turn = call.turn ∧
    call.promfn.1.turnInside = call.turnInside ∧
    Reaches Debt.Lt (call.promfn.1.loop + spawnDebts call.promfn.2) (call.loop + call.spawns) := by
  cases call with
  | par lamL lamR => exact ⟨trivial, fun _ => trivial, rfl, rfl, rfl, .refl _⟩
  | spork body spwn unpr unst prom br => exact ⟨trivial, fun _ => trivial, rfl, rfl, rfl, .refl _⟩
  | parfor factor j body binop c lr =>
    refine ⟨fun hf => ?_, id, rfl, rfl, rfl, ?_⟩
    · obtain ⟨hpub, hlt⟩ := hl hf
      rcases parforProm_cases hf hinv.2 with ⟨he, -⟩ | ⟨hlow, -⟩
      · exact ⟨hpub, fun hpc => he ▸ hlt hpc⟩
      · exact ⟨hpub, fun _ => hlow⟩
    · by_cases hsame : 1 ≤ factor ∧ (parforProm factor j c.vars).loop_end = c.vars.loop_end ∧
        (parforProm factor j c.vars).enqueued = []
      · obtain ⟨-, he, hnil⟩ := hsame
        simp only [promfn, setEnd, hnil, he, List.map_nil, spawnDebts, List.sum_nil, loop, spawns]
        exact .refl _
      · -- otherwise all that is left of the loop is less
        have hless : ((parforProm factor j c.vars).loop_end - c.vars.sig_safe_i).toNat <
              (c.vars.loop_end - c.vars.sig_safe_i).toNat ∧
            (∀ h ∈ (parforProm factor j c.vars).enqueued, (((parforProm factor j c.vars).job h).j -
              ((parforProm factor j c.vars).job h).i).toNat <
              (c.vars.loop_end - c.vars.sig_safe_i).toNat) ∨ factor < 1 := by
          by_cases hf : 1 ≤ factor
          · rcases parforProm_cases hf hinv.2 with hsame' | ⟨-, hless⟩
            · exact absurd ⟨hf, hsame'⟩ hsame
            · exact .inl hless
          · exact .inr (by omega)
        rw [spawns, add_zero]
        refine Reaches.pay fun d hd => ?_
        rcases Multiset.mem_add.mp hd with hd | hd
        · rw [Multiset.mem_singleton.mp hd]
          exact .shorter _ _ (hless.symm.imp_right And.left)
        · rcases mem_spawnDebts hd with rfl | ⟨s, hs, rfl⟩
          · exact .step ..
          · obtain ⟨h, hh, rfl⟩ := List.mem_map.mp hs
            exact .half _ _ (hless.symm.imp_right fun hless => hless.2 h hh)
  | scan n body first up rest c =>
    rcases promfn_scan n body first up rest c with he | ⟨p, t, hprom, hlt, he⟩
    · rw [he]
      exact ⟨hl, id, rfl, rfl, rfl, (Reaches.refl _).add (.of_le (Multiset.zero_le _))⟩
    · rw [he]
      refine ⟨⟨hlt.le, hl.2⟩, id, rfl, rfl, rfl, (Reaches.refl _).add (Reaches.pay fun d hd => ?_)⟩
      refine .tails _ p ?_
      rcases mem_spawnDebts hd with rfl | ⟨s, hs, rfl⟩
      · exact Multiset.mem_add.mpr (.inl (Multiset.mem_add.mpr
          (.inr (Multiset.mem_singleton_self _))))
      · rw [List.mem_singleton.mp hs]
        exact Multiset.mem_add.mpr (.inl (Multiset.mem_add.mpr
          (.inl (Multiset.mem_singleton_self _))))

end
end Call

end Spork.Scheduler
