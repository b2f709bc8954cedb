import Mathlib.Logic.Function.Basic
import Mathlib.Data.List.Nodup
import Spork.Scheduler.Machine

/-!
# The spork deque as a linked list on the stack

The slots of a worker's open calls of `with_prom_handler` lie on its stack, linked by their
`next` fields. `spork_deque_back` holds the address of the last `next` field that counts;
what that field points to, and every field of a closed slot, is left as it was. The
constructor of a slot writes its fields, the link to it and `spork_deque_back` one after the
other, and the handler of a heartbeat may walk the list between any two of these writes.

Slots are named by their addresses, which are used again; calls are numbered. The log
holds what happened to the slot of each call.

## Main definitions

* `NextAddr`, `SporkSlot`, `Pc`, `Frame`, `Event`, `Worker` — the state.
* `Worker.promote`, `Worker.promote_front`, `Worker.heartbeat_handler`, `Worker.frameStep` —
  the source.
* `Worker.step`, `Reachable` — the micro-steps of the main code, and heartbeats between them.
* `Worker.openSlots`, `Worker.follow` — the committed slots that are not closed, and the
  walk along the links.
-/
namespace Spork.Scheduler.SporkDeque

/-! ## State -/

/-- The address of a `next` field: that of `spork_deque_front`, or that of a slot. -/
inductive NextAddr (A : Type)
  | front
  | slot (a : A)
  deriving DecidableEq, Repr

/-- A slot, at whichever address. `promfn` is the number of its call. -/
structure SporkSlot (A : Type) where
  promoted : Bool
  promfn : ℕ
  prev : NextAddr A
  /-- A null pointer is `none`. -/
  next : Option A

/-- The next micro-step of a call. -/
inductive Pc
  -- the constructor
  | initPromoted
  | initPromfn
  | initNext
  | loadPrev
  /-- `*prev = this`. -/
  | link
  /-- `spork_deque_back = &next`. -/
  | commit
  /-- The test of `heartbeat_tokens`. -/
  | check
  -- `eager_promote`
  | save
  | disable (before : Bool)
  | retest (before : Bool)
  | dec (before : Bool)
  | setPromoted (before : Bool)
  | prom (before : Bool)
  | restore (before : Bool)
  | body
  -- `close`
  | reset
  | result
  deriving DecidableEq, Repr

/-- The slot has been committed, and `close` has not reset the back pointer. -/
def Pc.isOpen : Pc → Bool
  | .initPromoted | .initPromfn | .initNext | .loadPrev | .link | .commit | .result => false
  | _ => true

/-- The slot is still being constructed. -/
def Pc.isCtor : Pc → Bool
  | .initPromoted | .initPromfn | .initNext | .loadPrev | .link | .commit => true
  | _ => false

/-- `disable_heartbeats` has been saved as `before` and set. -/
def Pc.masked : Pc → Option Bool
  | .retest b | .dec b | .setPromoted b | .prom b | .restore b => some b
  | _ => none

/-- A call of `with_prom_handler` in progress: its number and the address of its slot. -/
structure Frame (A : Type) where
  call : ℕ
  addr : A
  pc : Pc

/-- What happens to the slot of a call. -/
inductive Event
  | committed (c : ℕ)
  /-- The promotion function is called. -/
  | called (c : ℕ)
  /-- `close` has reset the back pointer. -/
  | reset (c : ℕ)
  /-- `close` has returned `b`. -/
  | returned (c : ℕ) (b : Bool)
  deriving DecidableEq, Repr

/-- A worker: its stack memory, the thread-local variables, and its calls, innermost first.
The log starts with the latest event. -/
structure Worker (A : Type) where
  slots : A → SporkSlot A
  /-- `spork_deque_front.next`. -/
  front : Option A
  spork_deque_back : NextAddr A
  heartbeat_tokens : UInt32
  disable_heartbeats : Bool
  frames : List (Frame A)
  calls : ℕ
  log : List Event

namespace Worker

variable {A : Type} [DecidableEq A] (x : Worker A)

/-! ## Memory -/

/-- The `next` field at an address. -/
def load : NextAddr A → Option A
  | .front => x.front
  | .slot a => (x.slots a).next

/-- Write the `next` field at an address. -/
def store (r : NextAddr A) (p : Option A) : Worker A :=
  match r with
  | .front => { x with front := p }
  | .slot a => { x with slots := Function.update x.slots a { x.slots a with next := p } }

/-- Write a slot. -/
def setSlot (a : A) (s : SporkSlot A) : Worker A :=
  { x with slots := Function.update x.slots a s }

/-- Another micro-step of the innermost call is next. -/
def goto (f : Frame A) (rest : List (Frame A)) (pc : Pc) : Worker A :=
  { x with frames := { f with pc := pc } :: rest }

/-- The log goes on. -/
def note (e : Event) : Worker A := { x with log := e :: x.log }

/-! ## Promotion -/

/-- What a promotion function does to the tokens, given the call and the tokens it finds. -/
abbrev Effect := ℕ → UInt32 → UInt32

variable (eff : Effect)

/-- Call the promotion function of a slot. -/
def callProm (a : A) : Worker A :=
  { x with
    heartbeat_tokens := eff (x.slots a).promfn x.heartbeat_tokens
    log := .called (x.slots a).promfn :: x.log }

/-- `promote`. -/
def promote (a : A) : Worker A :=
  callProm (setSlot { x with heartbeat_tokens := x.heartbeat_tokens - 1 } a
    { x.slots a with promoted := true }) eff a

/-- The loop of `promote_front` from `slot` on, with the slots it examines. Following a null
pointer, and running out of fuel, have no result. -/
def promoteLoop : ℕ → Option A → Worker A → Option (Worker A × List A)
  | 0, _, _ => none
  | fuel + 1, slot, x =>
      if x.heartbeat_tokens = 0 then some (x, [])
      else match slot with
        | none => none
        | some a =>
            let x' := if (x.slots a).promoted then x else x.promote eff a
            if .slot a = x'.spork_deque_back then some (x', [a])
            else (promoteLoop fuel (x'.slots a).next x').map fun r => (r.1, a :: r.2)

/-- `promote_front`, with the slots it examines. -/
def promote_front (fuel : ℕ) : Option (Worker A × List A) :=
  if .front = x.spork_deque_back then some (x, []) else promoteLoop eff fuel x.front x

/-- `heartbeat_handler`. -/
def heartbeat_handler (fuel : ℕ) : Option (Worker A) :=
  if x.disable_heartbeats then some x
  else
    let tokens := x.heartbeat_tokens + TOKENS_PER_HEARTBEAT
    (promote_front { x with
      heartbeat_tokens := if tokens > MAX_HEARTBEAT_TOKENS then MAX_HEARTBEAT_TOKENS else tokens }
      eff fuel).map Prod.fst

/-! ## Steps -/

/-- A micro-step of the innermost call. -/
def frameStep (f : Frame A) (rest : List (Frame A)) : Option (Worker A) :=
  match f.pc with
  | .initPromoted =>
      some ((x.setSlot f.addr { x.slots f.addr with promoted := false }).goto f rest .initPromfn)
  | .initPromfn =>
      some ((x.setSlot f.addr { x.slots f.addr with promfn := f.call }).goto f rest .initNext)
  | .initNext => some ((x.store (.slot f.addr) none).goto f rest .loadPrev)
  | .loadPrev =>
      some ((x.setSlot f.addr { x.slots f.addr with prev := x.spork_deque_back }).goto f rest .link)
  | .link => some ((x.store (x.slots f.addr).prev (some f.addr)).goto f rest .commit)
  | .commit =>
      some ((note { x with spork_deque_back := .slot f.addr } (.committed f.call)).goto f rest
        .check)
  | .check => some (x.goto f rest (if x.heartbeat_tokens ≠ 0 then .save else .body))
  | .save => some (x.goto f rest (.disable x.disable_heartbeats))
  | .disable before => some (goto { x with disable_heartbeats := true } f rest (.retest before))
  | .retest before =>
      some (x.goto f rest
        (if x.heartbeat_tokens ≠ 0 ∧ (x.slots f.addr).promoted = false then .dec before
        else .restore before))
  | .dec before =>
      some (goto { x with heartbeat_tokens := x.heartbeat_tokens - 1 } f rest
        (.setPromoted before))
  | .setPromoted before =>
      some ((x.setSlot f.addr { x.slots f.addr with promoted := true }).goto f rest (.prom before))
  | .prom before => some ((x.callProm eff f.addr).goto f rest (.restore before))
  | .restore before => some (goto { x with disable_heartbeats := before } f rest .body)
  | .body => some (x.goto f rest .reset)
  | .reset =>
      some ((note { x with spork_deque_back := (x.slots f.addr).prev } (.reset f.call)).goto f rest
        .result)
  | .result =>
      some (note { x with frames := rest } (.returned f.call (x.slots f.addr).promoted))

/-- The main code runs a body, or no call at all. -/
def inBody : Bool :=
  match x.frames with
  | [] => true
  | f :: _ => f.pc = .body

/-- A call of `with_prom_handler`, its slot at the address `a`. -/
def enter (a : A) : Worker A :=
  { x with frames := ⟨x.calls, a, .initPromoted⟩ :: x.frames, calls := x.calls + 1 }

end Worker

/-- What happens next. -/
inductive Label (A : Type)
  /-- A micro-step of the innermost call; in a body, its end. -/
  | run (eff : Worker.Effect)
  /-- The body calls `with_prom_handler`; its slot gets a free address of the stack. -/
  | enter (a : A)
  /-- The body enqueues or takes back a job, and has this many tokens then. -/
  | tokens (t : UInt32)
  | heartbeat (eff : Worker.Effect) (fuel : ℕ)

namespace Worker

variable {A : Type} [DecidableEq A] (x : Worker A)

/-- One step. -/
def step : Label A → Option (Worker A)
  | .run eff =>
      match x.frames with
      | [] => none
      | f :: rest => x.frameStep eff f rest
  | .enter a =>
      if x.inBody ∧ a ∉ x.frames.map Frame.addr then some (x.enter a) else none
  | .tokens t => if x.inBody then some { x with heartbeat_tokens := t } else none
  | .heartbeat eff fuel => x.heartbeat_handler eff fuel

/-- After `reset`, whatever the stack memory holds. -/
structure Start (x : Worker A) : Prop where
  back : x.spork_deque_back = .front
  frames : x.frames = []
  calls : x.calls = 0
  log : x.log = []

/-- A step, with any label. -/
def Step (x x' : Worker A) : Prop := ∃ l, x.step l = some x'

/-- What a step is. -/
theorem Step.cases {x y : Worker A} (h : Step x y) :
    (∃ eff f rest, x.frames = f :: rest ∧ x.frameStep eff f rest = some y) ∨
    (∃ a, x.inBody ∧ a ∉ x.frames.map Frame.addr ∧ y = x.enter a) ∨
    (∃ t, y = { x with heartbeat_tokens := t }) ∨
    ∃ eff fuel, x.heartbeat_handler eff fuel = some y := by
  obtain ⟨label, hl⟩ := h
  cases label with
  | run eff =>
    cases hx : x.frames with
    | nil => simp [step, hx] at hl
    | cons f rest =>
      simp only [step, hx] at hl
      exact .inl ⟨eff, f, rest, rfl, hl⟩
  | enter a =>
    simp only [step, Option.ite_none_right_eq_some, Option.some.injEq] at hl
    obtain ⟨⟨hb, ha⟩, rfl⟩ := hl
    exact .inr (.inl ⟨a, hb, ha, rfl⟩)
  | tokens t =>
    simp only [step, Option.ite_none_right_eq_some, Option.some.injEq] at hl
    exact .inr (.inr (.inl ⟨t, hl.2.symm⟩))
  | heartbeat eff fuel => exact .inr (.inr (.inr ⟨eff, fuel, hl⟩))

/-- The states of all runs that start with the flag `disable_heartbeats` at `d`. -/
def Reachable (d : Bool) (x : Worker A) : Prop :=
  ∃ x₀, Start x₀ ∧ x₀.disable_heartbeats = d ∧ Relation.ReflTransGen Step x₀ x

/-- The committed slots that are not closed, outermost first. -/
def openSlots : List A := (x.frames.reverse.filter (·.pc.isOpen)).map Frame.addr

/-- Follow `next` from the field at `r`, up to the slot whose `&next` is
`spork_deque_back`: the slots visited. -/
def follow : ℕ → NextAddr A → Option (List A)
  | 0, _ => none
  | fuel + 1, r =>
      if r = x.spork_deque_back then some []
      else match x.load r with
        | none => none
        | some a => (follow fuel (.slot a)).map (a :: ·)

/-- A run: the labels of its steps. -/
def exec : List (Label A) → Worker A → Option (Worker A)
  | [], x => some x
  | l :: ls, x => (x.step l).bind (exec ls)

theorem exec_steps {ls : List (Label A)} {x y : Worker A} (h : exec ls x = some y) :
    Relation.ReflTransGen Step x y := by
  induction ls generalizing x with
  | nil => exact Option.some.inj h ▸ .refl
  | cons l ls ih =>
    obtain ⟨x₁, h₁, hs⟩ := Option.bind_eq_some_iff.mp h
    exact .head ⟨l, h₁⟩ (ih hs)

end Worker

/-! ## A run -/

/-- A worker after `reset`. The stack holds the remains of other calls. -/
def startState : Worker ℕ :=
  ⟨fun a => ⟨true, 99, .slot a, some (a + 1)⟩, none, .front, 0, false, [], 0, []⟩

/-- A micro-step. -/
def run : Label ℕ := .run fun _ t => t

/-- A call whose slot is at 5, a heartbeat in its body, and a call whose slot is at 3, up to
the commit. -/
def nestedRun : List (Label ℕ) :=
  [.enter 5, run, run, run, run, run, run, run, .heartbeat (fun _ _ => 0) 2,
   .enter 3, run, run, run, run, run]

/-- The state after `nestedRun`. -/
def nestedState : Worker ℕ := (Worker.exec nestedRun startState).get (by rfl)

theorem reachable_nestedState : Worker.Reachable false nestedState :=
  ⟨startState, ⟨rfl, rfl, rfl, rfl⟩, rfl, Worker.exec_steps (Option.some_get _).symm⟩

end Spork.Scheduler.SporkDeque
