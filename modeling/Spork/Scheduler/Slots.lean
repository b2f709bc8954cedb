import Spork.Scheduler.Machine

/-!
# Spork slots are promoted outermost first

The promoted slots of a worker are an outermost part of its open slots, and a worker with
tokens has promoted them all, but for a newest one whose eager check is not over. Whenever
it joins a job there is therefore nothing left to promote, and a heartbeat leaves its deque
alone.

None of this depends on the jobs, so the invariant is one of a single worker.

## Main definitions

* `AllPromoted`, `Looking`, `Nested`, `PcOk`, `SlotOk`, `Worker.SlotsOk` — the invariant.
* `promoteStack_spec`, `heartbeat_slotsOk`, `run_slotsOk` — it is kept.
* `Worker.slots`, `promoted_prefix` — what it says of the open slots.
-/
namespace Spork.Scheduler

variable {W V : Type}

/-! ## The invariant -/

/-- Promoted, unless its slot is closed. -/
def Item.Promoted : Item W V → Prop
  | .frame f sus => sus.isOpen = true → f.promoted = true
  | .opr _ => True

/-- Every open slot of the stack is promoted. -/
def AllPromoted (stack : List (Item W V)) : Prop := ∀ it ∈ stack, it.Promoted

/-- Nothing runs above the stack but the search for a job. -/
def Looking : List (Item W V) → Prop
  | [] => True
  | .frame _ (.waiting _ _) :: _ => True
  | _ => False

/-- The call has jobs to come back for, or comes back for one. -/
def Sus.Joining : Sus V → Prop
  | .inBody => False
  | .inCall ops => joins ops ≠ []
  | .inClone _ _ => True
  | .waiting _ _ => True

/-- Below a promoted slot every open slot is promoted, a call with jobs to join is promoted,
and stolen jobs are started by workers that look for one. -/
def Nested : List (Item W V) → Prop
  | [] => True
  | .opr _ :: rest => Looking rest ∧ Nested rest
  | .frame f sus :: rest => (f.promoted = true → AllPromoted rest) ∧
      (sus.Joining → f.promoted = true) ∧ Nested rest

/-- What the place in a call says about its slot, on top of `stack`. -/
def PcOk (stack : List (Item W V)) (tokens : UInt32) (disabled : Bool) (f : Frame V) :
    Pc V → Prop
  | .ctor | .check | .save | .disable _ | .closed => True
  | .retest _ => disabled = true
  | .dec _ | .setPromoted _ => disabled = true ∧ f.promoted = false ∧ AllPromoted stack
  | .prom _ => disabled = true ∧ f.promoted = true
  | .restore _ | .body | .close => tokens ≠ 0 → f.promoted = true
  | .act ops => joins ops ≠ [] → f.promoted = true
  | .reclaim _ _ | .reclaimed _ _ _ | .clone _ _ | .finished _ _ => f.promoted = true

/-- The invariant of the call on top of `stack`. -/
structure SlotOk (stack : List (Item W V)) (tokens : UInt32) (disabled : Bool) (f : Frame V)
    (pc : Pc V) : Prop where
  below : f.promoted = true → AllPromoted stack
  all : tokens ≠ 0 → AllPromoted stack
  place : PcOk stack tokens disabled f pc

namespace Worker

/-- What is executed on top of the stack. -/
def PointOk (x : Worker W V) : Prop :=
  match x.point with
  | .sched => Looking x.stack
  | .code _ => x.heartbeat_tokens ≠ 0 → AllPromoted x.stack
  | .frame f pc => SlotOk x.stack x.heartbeat_tokens x.disable_heartbeats f pc
  | .opr _ _ => Looking x.stack

/-- The invariant of a worker. -/
structure SlotsOk (x : Worker W V) : Prop where
  nested : Nested x.stack
  point : x.PointOk

end Worker

theorem allPromoted_cons {it : Item W V} {rest : List (Item W V)} :
    AllPromoted (it :: rest) ↔ it.Promoted ∧ AllPromoted rest := List.forall_mem_cons

/-- A closed slot does not count. -/
theorem allPromoted_closed {f : Frame V} {sus : Sus V} {rest : List (Item W V)}
    (hc : sus.isOpen = false) (h : AllPromoted rest) : AllPromoted (.frame f sus :: rest) :=
  allPromoted_cons.mpr ⟨fun ho => absurd ho (by simp [hc]), h⟩

/-- A worker that looks for a job has promoted everything. -/
theorem Looking.allPromoted {stack : List (Item W V)} (h : Looking stack) (hn : Nested stack) :
    AllPromoted stack := by
  match stack, h, hn with
  | [], _, _ => exact List.forall_mem_nil _
  | .frame f (.waiting J next) :: rest, _, hn =>
    obtain ⟨hbelow, hjoin, -⟩ := hn
    exact allPromoted_closed rfl (hbelow (hjoin trivial))

/-! ## Open slots -/

/-- The open slot of an item. -/
def Item.slot : Item W V → Option (Frame V)
  | .frame f sus => if sus.isOpen then some f else none
  | .opr _ => none

/-- The open slots of a worker, newest first. -/
def Worker.slots (x : Worker W V) : List (Frame V) :=
  (match x.point with
    | .frame f pc => if pc.isOpen then [f] else []
    | _ => []) ++ x.stack.filterMap Item.slot

/-- The eager check of the slot is not over. -/
def Pc.checking : Pc V → Bool
  | .check | .save | .disable _ | .retest _ | .dec _ | .setPromoted _ => true
  | _ => false

/-- The worker is about to call `try_dequeue`, or it is in a `wait`. -/
def Worker.joining (x : Worker W V) : Bool :=
  match x.point with
  | .frame _ (.act (op :: _)) => !op.joins.isEmpty
  | .frame _ (.finished _ _) => true
  | .sched => true
  | _ => false

/-- The promoted slots of a list, newest first, are an outermost part of it. -/
def OutermostFirst (slots : List (Frame V)) : Prop :=
  ∃ inner outer, slots = inner ++ outer ∧ (∀ f ∈ inner, f.promoted = false) ∧
    ∀ f ∈ outer, f.promoted = true

theorem OutermostFirst.cons {f : Frame V} {slots : List (Frame V)} (h : OutermostFirst slots)
    (hf : f.promoted = true → ∀ g ∈ slots, g.promoted = true) : OutermostFirst (f :: slots) := by
  cases hp : f.promoted with
  | true =>
    refine ⟨[], f :: slots, rfl, List.forall_mem_nil _, ?_⟩
    exact List.forall_mem_cons.mpr ⟨hp, hf hp⟩
  | false =>
    obtain ⟨inner, outer, rfl, hin, hout⟩ := h
    exact ⟨f :: inner, outer, rfl, List.forall_mem_cons.mpr ⟨hp, hin⟩, hout⟩

theorem AllPromoted.slots {stack : List (Item W V)} (h : AllPromoted stack) :
    ∀ f ∈ stack.filterMap Item.slot, f.promoted = true := by
  intro f hf
  obtain ⟨it, hit, hslot⟩ := List.mem_filterMap.mp hf
  cases it with
  | opr J => cases hslot
  | frame g sus =>
    by_cases ho : sus.isOpen = true
    · simp only [Item.slot, ho, if_true, Option.some.injEq] at hslot
      exact hslot ▸ h _ hit ho
    · rw [Item.slot, if_neg ho] at hslot
      cases hslot

theorem Nested.outermostFirst {stack : List (Item W V)} (h : Nested stack) :
    OutermostFirst (stack.filterMap Item.slot) := by
  induction stack with
  | nil => exact ⟨[], [], rfl, List.forall_mem_nil _, List.forall_mem_nil _⟩
  | cons it rest ih =>
    cases it with
    | opr J => exact ih h.2
    | frame f sus =>
      obtain ⟨hb, -, hn⟩ := h
      by_cases ho : sus.isOpen = true
      · have hcons : (Item.frame f sus :: rest : List (Item W V)).filterMap Item.slot =
            f :: rest.filterMap Item.slot := by simp [Item.slot, ho]
        rw [hcons]
        exact (ih hn).cons fun hp => (hb hp).slots
      · have hcons : (Item.frame f sus :: rest : List (Item W V)).filterMap Item.slot =
            rest.filterMap Item.slot := by simp [Item.slot, ho]
        rw [hcons]
        exact ih hn

/-- The open slots of a worker with its invariant. -/
theorem slotsOk_slots {x : Worker W V} (h : x.SlotsOk) : OutermostFirst x.slots ∧
    (x.heartbeat_tokens ≠ 0 → ∀ f ∈ x.slots, f.promoted = true ∨
      ∃ pc, x.point = .frame f pc ∧ pc.checking = true) := by
  obtain ⟨hn, hp⟩ := h
  rw [Worker.PointOk] at hp
  rw [Worker.slots]
  cases hpoint : x.point with
  | sched =>
    rw [hpoint] at hp
    exact ⟨hn.outermostFirst, fun _ f hf => .inl ((hp.allPromoted hn).slots f hf)⟩
  | code c =>
    rw [hpoint] at hp
    exact ⟨hn.outermostFirst, fun ht f hf => .inl ((hp ht).slots f hf)⟩
  | opr J stage =>
    rw [hpoint] at hp
    exact ⟨hn.outermostFirst, fun _ f hf => .inl ((hp.allPromoted hn).slots f hf)⟩
  | frame f pc =>
    rw [hpoint] at hp
    obtain ⟨hb, ht, hpc⟩ := hp
    by_cases ho : pc.isOpen = true
    · simp only [ho, if_true, List.singleton_append]
      refine ⟨hn.outermostFirst.cons fun hf => (hb hf).slots, fun htok g hg => ?_⟩
      rcases List.mem_cons.mp hg with rfl | hg
      · cases pc with
        | prom => exact .inl hpc.2
        | restore => exact .inl (hpc htok)
        | body => exact .inl (hpc htok)
        | close => exact .inl (hpc htok)
        | _ => first | exact .inr ⟨_, rfl, rfl⟩ | cases ho
      · exact .inl ((ht htok).slots g hg)
    · simp only [ho]
      exact ⟨hn.outermostFirst, fun htok g hg => .inl ((ht htok).slots g hg)⟩

/-- A worker that joins a job has promoted everything, whatever it has left of tokens. -/
theorem joining_promoted {x : Worker W V} (h : x.SlotsOk) (hj : x.joining = true) :
    AllPromoted x.stack ∧ ∀ f pc, x.point = .frame f pc → pc.isOpen = false := by
  obtain ⟨hn, hp⟩ := h
  rw [Worker.PointOk] at hp
  rw [Worker.joining] at hj
  cases hpoint : x.point with
  | sched =>
    rw [hpoint] at hp
    exact ⟨hp.allPromoted hn, fun f pc he => by cases he⟩
  | code c => simp only [hpoint, Bool.false_eq_true] at hj
  | opr J stage => simp only [hpoint, Bool.false_eq_true] at hj
  | frame f pc =>
    rw [hpoint] at hp hj
    obtain ⟨hb, -, hpc⟩ := hp
    cases pc with
    | finished J next =>
      refine ⟨hb hpc, fun f pc he => ?_⟩
      cases he
      rfl
    | act ops =>
      cases ops with
      | nil => cases hj
      | cons op ops =>
        have hops : joins (op :: ops) ≠ [] := by
          intro h
          rw [joins_cons, List.append_eq_nil_iff] at h
          simp [h.1] at hj
        refine ⟨hb (hpc hops), fun f pc he => ?_⟩
        cases he
        rfl
    | _ => cases hj

/-! ## Promotion -/

section
variable [DecidableEq W] [Inhabited V] (w : W)

theorem visit_promoted (isOpen : Bool) (f : Frame V) (e : Env W V) :
    (f.visit w isOpen e = (f, e) ∧ (isOpen = true → e.heartbeat_tokens ≠ 0 → f.promoted = true)) ∨
    (f.visit w isOpen e = f.promote w e ∧ isOpen = true ∧ e.heartbeat_tokens ≠ 0 ∧
      f.promoted = false) := by
  rw [Frame.visit]
  by_cases h : isOpen = true ∧ e.heartbeat_tokens ≠ 0 ∧ f.promoted = false
  · exact .inr ⟨if_pos h, h⟩
  · refine .inl ⟨if_neg h, fun ho ht => ?_⟩
    by_contra hp
    exact h ⟨ho, ht, Bool.eq_false_of_not_eq_true hp⟩

/-- With every open slot promoted there is nothing to do. -/
theorem promoteStack_of_allPromoted {stack : List (Item W V)} (h : AllPromoted stack)
    (e : Env W V) : promoteStack w stack e = (stack, e) := by
  induction stack with
  | nil => rfl
  | cons it rest ih =>
    obtain ⟨hit, hrest⟩ := allPromoted_cons.mp h
    cases it with
    | opr J => simp only [promoteStack, ih hrest]
    | frame f sus =>
      have hvisit : f.visit w sus.isOpen e = (f, e) := by
        rcases visit_promoted w sus.isOpen f e with ⟨hv, -⟩ | ⟨-, ho, -, hp⟩
        · exact hv
        · exact absurd (hit ho) (by simp [hp])
      simp only [promoteStack, ih hrest, hvisit]

/-- The slot on top of a stack whose slots have been visited. -/
theorem visit_below (isOpen : Bool) {f : Frame V} {rest : List (Item W V)} {e : Env W V}
    (hbelow : f.promoted = true → AllPromoted rest)
    (hrest : (promoteStack w rest e).2.heartbeat_tokens ≠ 0 →
      AllPromoted (promoteStack w rest e).1) :
    ((f.visit w isOpen (promoteStack w rest e).2).1.promoted = true →
      AllPromoted (promoteStack w rest e).1) ∧
    ((f.visit w isOpen (promoteStack w rest e).2).2.heartbeat_tokens ≠ 0 →
      AllPromoted (promoteStack w rest e).1 ∧
      (isOpen = true → (f.visit w isOpen (promoteStack w rest e).2).1.promoted = true)) ∧
    (f.promoted = true → (f.visit w isOpen (promoteStack w rest e).2).1.promoted = true) := by
  rcases visit_promoted w isOpen f (promoteStack w rest e).2 with
    ⟨hv, hopen⟩ | ⟨hv, -, ht, -⟩
  · rw [hv]
    refine ⟨fun hp => ?_, fun ht => ⟨hrest ht, fun ho => hopen ho ht⟩, fun hp => hp⟩
    rw [promoteStack_of_allPromoted w (hbelow hp)]
    exact hbelow hp
  · rw [hv]
    exact ⟨fun _ => hrest ht, fun _ => ⟨hrest ht, fun _ => rfl⟩, fun _ => rfl⟩

theorem promoteStack_looking {stack : List (Item W V)} (h : Looking stack) (e : Env W V) :
    Looking (promoteStack w stack e).1 := by
  match stack, h with
  | [], _ => trivial
  | .frame f (.waiting J next) :: rest, _ => trivial

/-- `promote_front` promotes outermost first, and every open slot if tokens remain. -/
theorem promoteStack_spec {stack : List (Item W V)} (hn : Nested stack) (e : Env W V) :
    Nested (promoteStack w stack e).1 ∧
    ((promoteStack w stack e).2.heartbeat_tokens ≠ 0 → AllPromoted (promoteStack w stack e).1) := by
  induction stack with
  | nil => exact ⟨trivial, fun _ => List.forall_mem_nil _⟩
  | cons it rest ih =>
    cases it with
    | opr J =>
      obtain ⟨hlook, hnest⟩ := hn
      obtain ⟨hnest', hall⟩ := ih hnest
      exact ⟨⟨promoteStack_looking w hlook e, hnest'⟩,
        fun ht => allPromoted_cons.mpr ⟨trivial, hall ht⟩⟩
    | frame f sus =>
      obtain ⟨hbelow, hjoin, hnest⟩ := hn
      obtain ⟨hnest', hall⟩ := ih hnest
      obtain ⟨hb, ht, hmono⟩ := visit_below w sus.isOpen hbelow hall
      refine ⟨⟨hb, fun hj => hmono (hjoin hj), hnest'⟩, fun htok => ?_⟩
      obtain ⟨hrest, hopen⟩ := ht htok
      exact allPromoted_cons.mpr ⟨hopen, hrest⟩

variable {x : Worker W V} {jobs : Jobs W V}

/-- `promote_front` keeps the invariant, whatever tokens it is given. -/
theorem promote_front_slotsOk (hen : x.disable_heartbeats = false) (h : x.SlotsOk)
    (hbs tokens : UInt32) :
    (Worker.promote_front w { x with num_heartbeats := hbs, heartbeat_tokens := tokens }
      jobs).1.SlotsOk := by
  obtain ⟨hnest, hall⟩ := promoteStack_spec w h.nested ⟨tokens, x.deque, jobs⟩
  have hpoint := h.point
  rw [Worker.PointOk] at hpoint
  rw [Worker.promote_front]
  cases hp : x.point with
  | sched =>
    rw [hp] at hpoint
    exact ⟨hnest, by
      simp only [Worker.PointOk, Worker.setEnv]
      exact promoteStack_looking w hpoint _⟩
  | code c =>
    exact ⟨hnest, by
      simp only [Worker.PointOk, Worker.setEnv]
      exact hall⟩
  | opr J stage =>
    rw [hp] at hpoint
    exact ⟨hnest, by
      simp only [Worker.PointOk, Worker.setEnv]
      exact promoteStack_looking w hpoint _⟩
  | frame f pc =>
    rw [hp] at hpoint
    obtain ⟨hbelow, -, hpc⟩ := hpoint
    obtain ⟨hb, ht, hmono⟩ := visit_below w pc.isOpen hbelow hall
    refine ⟨hnest, ⟨hb, fun htok => (ht htok).1, ?_⟩⟩
    rw [hen] at hpc
    cases pc with
    | retest => cases hpc
    | dec => cases hpc.1
    | setPromoted => cases hpc.1
    | prom => cases hpc.1
    | restore => exact fun htok => (ht htok).2 rfl
    | body => exact fun htok => (ht htok).2 rfl
    | close => exact fun htok => (ht htok).2 rfl
    | act => exact fun hj => hmono (hpc hj)
    | reclaim => exact hmono hpc
    | reclaimed => exact hmono hpc
    | clone => exact hmono hpc
    | finished => exact hmono hpc
    | _ => trivial

theorem heartbeat_slotsOk (h : x.SlotsOk) : (x.heartbeat_handler w jobs).1.SlotsOk := by
  rw [Worker.heartbeat_handler]
  by_cases hen : x.disable_heartbeats
  · rw [if_pos hen]
    exact ⟨h.nested, h.point⟩
  · rw [if_neg hen]
    exact promote_front_slotsOk w (Bool.eq_false_of_not_eq_true hen) h _ _

/-! ## Steps -/

variable {f : Frame V} {pc : Pc V} {r : Worker W V × Jobs W V}

theorem frameStep_slotsOk (hn : Nested x.stack)
    (hs : SlotOk x.stack x.heartbeat_tokens x.disable_heartbeats f pc)
    (hstep : x.frameStep w jobs f pc = some r) : r.1.SlotsOk := by
  obtain ⟨hb, ht, hpc⟩ := hs
  cases pc with
  | ctor =>
    cases hstep
    exact ⟨hn, hb, ht, trivial⟩
  | check =>
    cases hstep
    by_cases htok : x.heartbeat_tokens ≠ 0
    · rw [if_pos htok]
      exact ⟨hn, hb, ht, trivial⟩
    · rw [if_neg htok]
      exact ⟨hn, hb, ht, fun h => absurd h htok⟩
  | save =>
    cases hstep
    exact ⟨hn, hb, ht, trivial⟩
  | disable before =>
    cases hstep
    exact ⟨hn, hb, ht, rfl⟩
  | retest before =>
    cases hstep
    by_cases htok : x.heartbeat_tokens ≠ 0 ∧ f.promoted = false
    · rw [if_pos htok]
      exact ⟨hn, hb, ht, hpc, htok.2, ht htok.1⟩
    · rw [if_neg htok]
      refine ⟨hn, hb, ht, fun h => ?_⟩
      by_contra hp
      exact htok ⟨h, Bool.eq_false_of_not_eq_true hp⟩
  | dec before =>
    cases hstep
    exact ⟨hn, hb, fun _ => hpc.2.2, hpc⟩
  | setPromoted before =>
    cases hstep
    exact ⟨hn, fun _ => hpc.2.2, fun _ => hpc.2.2, hpc.1, rfl⟩
  | prom before =>
    cases hstep
    exact ⟨hn, hb, fun _ => hb hpc.2, fun _ => hpc.2⟩
  | restore before =>
    cases hstep
    exact ⟨hn, hb, ht, hpc⟩
  | body =>
    rcases Worker.frameStep_body w hstep with ⟨c, -, rfl⟩ | ⟨call, -, rfl⟩ | ⟨-, rfl⟩
    · exact ⟨⟨hb, fun hj => hj.elim, hn⟩,
        fun htok => allPromoted_cons.mpr ⟨fun _ => hpc htok, ht htok⟩⟩
    · exact ⟨hn, hb, ht, hpc⟩
    · exact ⟨hn, hb, ht, hpc⟩
  | close =>
    cases hstep
    exact ⟨hn, hb, ht, trivial⟩
  | closed =>
    obtain ⟨ops, hops, rfl⟩ := Option.map_eq_some_iff.mp hstep
    refine ⟨hn, hb, ht, fun hj => ?_⟩
    by_contra hp
    rw [Bool.eq_false_of_not_eq_true hp] at hops
    exact hj (Call.after_unpromoted hops)
  | act ops =>
    cases ops with
    | nil =>
      cases hstep
      exact ⟨hn, ht⟩
    | cons op ops =>
      cases op with
      | call e c =>
        cases hstep
        exact ⟨⟨hb, hpc, hn⟩, fun htok => allPromoted_closed rfl (ht htok)⟩
      | sync J reclaim =>
        have hp : f.promoted = true := hpc (List.cons_ne_nil _ _)
        rcases Worker.frameStep_sync w hstep with ⟨-, rfl⟩ | ⟨X, d, -, rfl⟩
        · exact ⟨hn, hb, ht, hp⟩
        · cases reclaim
          · exact ⟨hn, hb, ht, hp⟩
          · exact ⟨hn, hb, ht, hp⟩
      | sync_is_stolen J unstolen stolen =>
        have hp : f.promoted = true := hpc (List.cons_ne_nil _ _)
        rcases Worker.frameStep_sync_is_stolen w hstep with ⟨-, rfl⟩ | ⟨X, d, -, rfl⟩
        · exact ⟨hn, hb, ht, hp⟩
        · exact ⟨hn, hb, ht, fun _ => hp⟩
  | reclaim J ops =>
    cases hstep
    exact ⟨hn, hb, ht, hpc⟩
  | reclaimed J tokens ops =>
    cases hstep
    exact ⟨hn, hb, fun _ => hb hpc, hpc⟩
  | clone J ops =>
    cases hstep
    exact ⟨⟨hb, fun _ => hpc, hn⟩, fun htok => allPromoted_closed rfl (ht htok)⟩
  | finished J next =>
    rcases Worker.frameStep_finished w hstep with ⟨-, rfl⟩ | rfl
    · exact ⟨hn, hb, ht, fun _ => hpc⟩
    · exact ⟨⟨hb, fun _ => hpc, hn⟩, trivial⟩

omit [Inhabited V] in
theorem returnStep_slotsOk {v : V} (hn : Nested x.stack)
    (ht : x.heartbeat_tokens ≠ 0 → AllPromoted x.stack) (hstep : x.returnStep w jobs v = some r) :
    r.1.SlotsOk := by
  have hrest : ∀ {it rest}, x.stack = it :: rest →
      x.heartbeat_tokens ≠ 0 → AllPromoted rest := by
    intro it rest hstack h
    rw [hstack] at ht
    exact (allPromoted_cons.mp (ht h)).2
  rcases Worker.returnStep_cases w x jobs hstep with ⟨J, rest, hstack, rfl⟩ |
    ⟨f, rest, call, ended, hstack, -, rfl⟩ | ⟨f, ops, rest, hstack, rfl⟩ |
    ⟨f, J, ops, rest, hstack, rfl⟩
  · rw [hstack] at hn
    exact ⟨hn.2, hn.1⟩
  · have hp : x.heartbeat_tokens ≠ 0 → f.promoted = true := by
      intro h
      rw [hstack] at ht
      exact (allPromoted_cons.mp (ht h)).1 rfl
    rw [hstack] at hn
    obtain ⟨hb, -, hn⟩ := hn
    cases ended
    · exact ⟨hn, hb, hrest hstack, hp⟩
    · exact ⟨hn, hb, hrest hstack, hp⟩
  · rw [hstack] at hn
    obtain ⟨hb, hj, hn⟩ := hn
    exact ⟨hn, hb, hrest hstack, hj⟩
  · rw [hstack] at hn
    obtain ⟨hb, hj, hn⟩ := hn
    exact ⟨hn, hb, hrest hstack, fun _ => hj trivial⟩

theorem run_slotsOk {n : ℕ} (h : x.SlotsOk) (hstep : x.run w jobs n = some r) : r.1.SlotsOk := by
  obtain ⟨hn, hpoint⟩ := h
  rw [Worker.PointOk] at hpoint
  rw [Worker.run] at hstep
  cases hp : x.point with
  | sched =>
    simp only [hp] at hpoint hstep
    obtain ⟨f, J, next, rest, hstack, -, rfl⟩ := x.schedStep_cases w jobs hstep
    rw [hstack] at hn
    obtain ⟨hb, hj, hn⟩ := hn
    have hf : f.promoted = true := hj trivial
    exact ⟨hn, hb, fun _ => hb hf, fun _ => hf⟩
  | code c =>
    simp only [hp] at hpoint hstep
    rcases x.codeStep_cases w jobs hstep with ⟨v, -, hret⟩ | ⟨k, -, rfl⟩ | ⟨call, k, -, rfl⟩
    · exact returnStep_slotsOk w hn hpoint hret
    · exact ⟨hn, hpoint⟩
    · exact ⟨hn, ⟨fun hf => absurd hf Bool.false_ne_true, hpoint, trivial⟩⟩
  | frame f pc =>
    simp only [hp] at hpoint hstep
    exact frameStep_slotsOk w hn hpoint hstep
  | opr J stage =>
    simp only [hp] at hpoint hstep
    cases stage with
    | tokens =>
      cases hstep
      exact ⟨hn, hpoint⟩
    | run =>
      cases hstep
      exact ⟨⟨hpoint, hn⟩, fun _ => allPromoted_cons.mpr ⟨trivial, hpoint.allPromoted hn⟩⟩
    | ended =>
      cases hstep
      exact ⟨hn, hpoint⟩

/-! ## Runs -/

omit [DecidableEq W] [Inhabited V] in
theorem looking_iff : x.looking = true ↔ x.point = .sched := by
  rw [Worker.looking]
  cases x.point <;> simp

omit [DecidableEq W] [Inhabited V] in
theorem take_slotsOk {J : JobId W} (h : x.SlotsOk) (hl : x.looking = true) :
    (x.take J).SlotsOk := by
  obtain ⟨hn, hp⟩ := h
  rw [Worker.PointOk, looking_iff.mp hl] at hp
  exact ⟨hn, hp⟩

variable {s s' : State W V}

omit [Inhabited V] in
theorem set_slotsOk (h : ∀ v, (s.workers v).SlotsOk) (hr : r.1.SlotsOk) (v : W) :
    ((s.set w r).workers v).SlotsOk :=
  (Function.forall_update_iff s.workers (p := fun _ x => x.SlotsOk)).mpr ⟨hr, fun v _ => h v⟩ v

theorem step_slotsOk (h : ∀ v, (s.workers v).SlotsOk) (hstep : s.Step s') (v : W) :
    (s'.workers v).SlotsOk := by
  obtain ⟨l, hl⟩ := hstep
  rcases State.step_cases hl with ⟨w, n, r, hr, rfl⟩ | ⟨w, rfl⟩ | ⟨w, u, d, J, hlook, rfl, -⟩
  · exact set_slotsOk w h (run_slotsOk w (h w) hr) v
  · exact set_slotsOk w h (heartbeat_slotsOk w (h w)) v
  · have hd : ∀ v, ((s.setDeque u d).workers v).SlotsOk :=
      set_slotsOk u h ⟨(h u).nested, (h u).point⟩
    have hlook' : ((s.setDeque u d).workers w).looking = true := by
      rw [State.setDeque_workers]
      exact hlook
    exact set_slotsOk w hd (take_slotsOk (hd w) hlook') v

theorem reachable_slotsOk (hs : s.Reachable) (v : W) : (s.workers v).SlotsOk := by
  refine hs.induction (P := fun s => ∀ v, (s.workers v).SlotsOk) (fun main v => ?_)
    (fun s s' h hstep => step_slotsOk h hstep) v
  show Worker.SlotsOk ⟨(main v).elim .sched .code, [], [], 0, false, 0, 0, 0⟩
  cases main v with
  | none => exact ⟨trivial, trivial⟩
  | some c => exact ⟨trivial, fun h => absurd rfl h⟩

/-! ## What a worker that joins finds -/

/-- A heartbeat that finds everything promoted changes nothing but tokens and counters. -/
theorem heartbeat_joining (h : x.SlotsOk) (hj : x.joining = true) :
    (x.heartbeat_handler w jobs).1.point = x.point ∧
    (x.heartbeat_handler w jobs).1.stack = x.stack ∧
    (x.heartbeat_handler w jobs).1.deque = x.deque ∧
    (x.heartbeat_handler w jobs).2 = jobs := by
  obtain ⟨hall, hclosed⟩ := joining_promoted h hj
  rw [Worker.heartbeat_handler]
  by_cases hen : x.disable_heartbeats
  · rw [if_pos hen]
    exact ⟨rfl, rfl, rfl, rfl⟩
  · rw [if_neg hen]
    rw [Worker.promote_front]
    rw [promoteStack_of_allPromoted w hall]
    cases hpoint : x.point with
    | frame f pc =>
      have hvisit : ∀ e : Env W V, f.visit w pc.isOpen e = (f, e) := fun e => by
        simp [Frame.visit, hclosed f pc hpoint]
      simp only [hvisit]
      trivial
    | _ => exact ⟨rfl, rfl, rfl, rfl⟩

/-- In every reachable state the promoted slots of a worker are an outermost part of its open
slots, and with tokens every open slot is promoted but a newest one whose eager check is not
over. At every `try_dequeue` and in every `wait` all are promoted, and a heartbeat calls no
promotion function and enqueues nothing. -/
theorem slots_outermost_first (hs : s.Reachable) :
    OutermostFirst (s.workers w).slots ∧
    ((s.workers w).heartbeat_tokens ≠ 0 → ∀ f ∈ (s.workers w).slots, f.promoted = true ∨
      ∃ pc, (s.workers w).point = .frame f pc ∧ pc.checking = true) ∧
    ((s.workers w).joining = true → (∀ f ∈ (s.workers w).slots, f.promoted = true) ∧
      ((s.workers w).heartbeat_handler w s.jobs).1.point = (s.workers w).point ∧
      ((s.workers w).heartbeat_handler w s.jobs).1.stack = (s.workers w).stack ∧
      ((s.workers w).heartbeat_handler w s.jobs).1.deque = (s.workers w).deque ∧
      ((s.workers w).heartbeat_handler w s.jobs).2 = s.jobs) := by
  have hok := reachable_slotsOk hs w
  obtain ⟨hfirst, htok⟩ := slotsOk_slots hok
  refine ⟨hfirst, htok, fun hj => ⟨fun f hf => ?_, heartbeat_joining w hok hj⟩⟩
  obtain ⟨hall, hclosed⟩ := joining_promoted hok hj
  rcases List.mem_append.mp hf with hf | hf
  · cases hp : (s.workers w).point with
    | frame g pc => simp [hp, hclosed g pc hp] at hf
    | _ => simp [hp] at hf
  · exact hall.slots f hf

end

theorem slots_outermost_first_par : (parState.workers false).joining = true ∧
    ∀ f ∈ (parState.workers false).slots, f.promoted = true := by
  have hj : (parState.workers false).joining = true := rfl
  obtain ⟨-, -, hjoin⟩ := slots_outermost_first (w := false) reachable_parState
  exact ⟨hj, (hjoin hj).1⟩

end Spork.Scheduler
