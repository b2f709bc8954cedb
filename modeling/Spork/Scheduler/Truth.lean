import Spork.Scheduler.Links

/-!
# A slot is promoted at most once, and `close` tells whether it was

The handler's walk and eager promotion both promote a slot whose `promoted` is not set, and
share no lock: eager promotion masks the heartbeats of its worker, and tests the flag again
once it has. The log of a worker says what happened to the slot of each call; what it may
hold of a call that is still in progress follows from the micro-step the call is at.

## Main definitions

* `Truthful` — what the log of every run should look like.
* `FrameTold` — the slot and the log at each micro-step of a call.
* `Told` — the invariant, and `Told.step` the step lemma.
* `promoted_once` — slots over whole runs.
-/
namespace Spork.Scheduler.SporkDeque

open Spork.Scheduler.SporkDeque.Worker

/-! ## Logs -/

/-- The call an event belongs to. -/
def Event.call : Event → ℕ
  | .committed c => c
  | .called c => c
  | .reset c => c
  | .returned c _ => c

/-- A promotion function is called once, between the commit of its slot and the reset, and
`close` returns whether it was. The latest event comes first. -/
def Truthful : List Event → Prop
  | [] => True
  | .called c :: log =>
      (.committed c ∈ log ∧ .reset c ∉ log ∧ .called c ∉ log ∧ ∀ b, .returned c b ∉ log) ∧
        Truthful log
  | .returned c b :: log => (b = true ↔ .called c ∈ log) ∧ Truthful log
  | _ :: log => Truthful log

theorem Truthful.tail {e : Event} {log : List Event} (h : Truthful (e :: log)) : Truthful log := by
  cases e with
  | called => exact h.2
  | returned => exact h.2
  | committed => exact h
  | reset => exact h

theorem Truthful.of_append {log log' : List Event} (h : Truthful (log ++ log')) :
    Truthful log' := by
  induction log with
  | nil => exact h
  | cons e log ih => exact ih h.tail

/-- A call that has returned said then what is true still. -/
theorem Truthful.returned {log : List Event} (h : Truthful log) {c : ℕ} {b : Bool}
    (hc : .returned c b ∈ log) : b = true ↔ .called c ∈ log := by
  induction log with
  | nil => cases hc
  | cons e log ih =>
    by_cases he : e = .returned c b
    · subst he
      simpa using h.1
    · have hmem : .returned c b ∈ log := by
        rcases List.mem_cons.mp hc with heq | hmem
        · exact absurd heq.symm he
        · exact hmem
      rw [ih h.tail hmem]
      constructor
      · intro hcalled
        exact List.mem_cons_of_mem _ hcalled
      · intro hcalled
        rcases List.mem_cons.mp hcalled with heq | hcalled
        · subst heq
          exact absurd hmem (h.1.2.2.2 b)
        · exact hcalled

/-! ## Calls in progress -/

variable {A : Type} [DecidableEq A]

/-- At these micro-steps the flag of the slot is known not to be set. -/
def Pc.unpromoted : Pc → Bool
  | .initPromfn | .initNext | .loadPrev | .link | .commit | .dec _ | .setPromoted _ => true
  | _ => false

/-- The promotion function is known to be the next thing to be called. -/
def Pc.calling : Pc → Bool
  | .prom _ => true
  | _ => false

/-- The slot and the log at the micro-steps of a call. -/
structure FrameTold (x : Worker A) (f : Frame A) : Prop where
  promfn : f.pc ≠ .initPromoted → f.pc ≠ .initPromfn → (x.slots f.addr).promfn = f.call
  unpromoted : f.pc.unpromoted = true → (x.slots f.addr).promoted = false
  calling : f.pc.calling = true → (x.slots f.addr).promoted = true
  committed : .committed f.call ∈ x.log ↔ f.pc.isCtor = false
  reset : .reset f.call ∈ x.log ↔ f.pc = .result
  returned : ∀ b, .returned f.call b ∉ x.log
  called : .called f.call ∈ x.log ↔
    f.pc.isCtor = false ∧ f.pc.calling = false ∧ (x.slots f.addr).promoted = true

/-- Eager promotion has the heartbeats masked. -/
def masked (x : Worker A) : Bool :=
  match x.frames with
  | [] => false
  | f :: _ => f.pc.masked.isSome

/-- The value of `disable_heartbeats` that a call is to restore. -/
def Pc.saved : Pc → Option Bool
  | .disable b => some b
  | pc => pc.masked

/-- Every call in progress is told as it is, the log is truthful, and the flag
`disable_heartbeats` is `d` except where eager promotion has set it. -/
structure Told (d : Bool) (x : Worker A) : Prop where
  frames : ∀ f ∈ x.frames, FrameTold x f
  numbers : (x.frames.map Frame.call).Nodup
  fresh : ∀ f ∈ x.frames, f.call < x.calls
  events : ∀ e ∈ x.log, e.call < x.calls
  truthful : Truthful x.log
  flag : x.disable_heartbeats = (masked x || d)
  saved : ∀ f ∈ x.frames, ∀ b, f.pc.saved = some b → b = d

section
variable {d : Bool} {x y : Worker A} {f g : Frame A} {rest : List (Frame A)} {pc : Pc}

omit [DecidableEq A] in
theorem Told.start (h : Start x) (hd : x.disable_heartbeats = d) : Told d x := by
  constructor <;> simp [h.frames, h.log, h.calls, masked, Truthful, hd]

omit [DecidableEq A] in
/-- A call other than the one that moves. -/
theorem FrameTold.other (h : FrameTold x g)
    (hpromoted : (y.slots g.addr).promoted = (x.slots g.addr).promoted)
    (hpromfn : (y.slots g.addr).promfn = (x.slots g.addr).promfn)
    (hlog : ∀ e : Event, e.call = g.call → (e ∈ y.log ↔ e ∈ x.log)) : FrameTold y g := by
  constructor
  · rw [hpromfn]
    exact h.promfn
  · rw [hpromoted]
    exact h.unpromoted
  · rw [hpromoted]
    exact h.calling
  · rw [hlog (.committed g.call) rfl]
    exact h.committed
  · rw [hlog (.reset g.call) rfl]
    exact h.reset
  · intro b
    rw [hlog (.returned g.call b) rfl]
    exact h.returned b
  · rw [hlog (.called g.call) rfl, hpromoted]
    exact h.called

omit [DecidableEq A] in
/-- A micro-step of the innermost call: what is in question is that call, the log and the
flag. -/
theorem Told.goto (h : Told d x) (hlinked : Linked x) (hx : x.frames = f :: rest)
    (hy : y.frames = { f with pc := pc } :: rest) (hcalls : y.calls = x.calls)
    (hslots : ∀ a, a ≠ f.addr → (y.slots a).promoted = (x.slots a).promoted ∧
      (y.slots a).promfn = (x.slots a).promfn)
    (hlog : ∀ e ∈ y.log, e ∈ x.log ∨ e.call = f.call) (hkept : ∀ e ∈ x.log, e ∈ y.log)
    (htold : FrameTold y { f with pc := pc }) (htruthful : Truthful y.log)
    (hflag : y.disable_heartbeats = (pc.masked.isSome || d))
    (hsaved : ∀ b, pc.saved = some b → b = d) : Told d y := by
  have hnd := hlinked.nodup
  have hnum := h.numbers
  have hfresh := h.fresh
  rw [hx] at hnd hnum hfresh
  rw [List.map_cons, List.nodup_cons] at hnd hnum
  constructor
  · intro g hg
    rw [hy] at hg
    rcases List.mem_cons.mp hg with rfl | hg
    · exact htold
    · have haddr : g.addr ≠ f.addr := fun heq => hnd.1 (heq ▸ List.mem_map_of_mem hg)
      have hcall : g.call ≠ f.call := fun heq => hnum.1 (heq ▸ List.mem_map_of_mem hg)
      apply (h.frames g (hx ▸ List.mem_cons_of_mem _ hg)).other (hslots _ haddr).1
        (hslots _ haddr).2
      intro e he
      constructor
      · intro hmem
        rcases hlog e hmem with hmem | heq
        · exact hmem
        · exact absurd (he.symm.trans heq) hcall
      · exact hkept e
  · rw [hy]
    exact List.nodup_cons.mpr hnum
  · rw [hy, hcalls]
    intro g hg
    rcases List.mem_cons.mp hg with rfl | hg
    · exact hfresh f List.mem_cons_self
    · exact hfresh g (List.mem_cons_of_mem _ hg)
  · rw [hcalls]
    intro e he
    rcases hlog e he with hmem | heq
    · exact h.events e hmem
    · rw [heq]
      exact hfresh f List.mem_cons_self
  · exact htruthful
  · simpa only [masked, hy] using hflag
  · intro g hg b hb
    rw [hy] at hg
    rcases List.mem_cons.mp hg with rfl | hg
    · exact hsaved b hb
    · exact h.saved g (hx ▸ List.mem_cons_of_mem _ hg) b hb

omit [DecidableEq A] in
/-- A micro-step that neither sets a flag nor logs an event. -/
theorem FrameTold.advance (h : FrameTold x f)
    (hpromoted : (y.slots f.addr).promoted = (x.slots f.addr).promoted)
    (hpromfn : (y.slots f.addr).promfn = (x.slots f.addr).promfn) (hlog : y.log = x.log)
    (hinit : f.pc ≠ .initPromoted ∧ f.pc ≠ .initPromfn) (hctor : pc.isCtor = f.pc.isCtor)
    (hcalling : pc.calling = f.pc.calling) (hresult : pc ≠ .result) (hresult' : f.pc ≠ .result)
    (hunpromoted : pc.unpromoted = true → (x.slots f.addr).promoted = false) :
    FrameTold y { f with pc := pc } := by
  constructor
  · intro _ _
    rw [hpromfn]
    exact h.promfn hinit.1 hinit.2
  · rw [hpromoted]
    exact hunpromoted
  · rw [hpromoted]
    intro hc
    exact h.calling (hcalling ▸ hc)
  · rw [hlog, hctor]
    exact h.committed
  · rw [hlog]
    exact iff_of_false (fun hr => hresult' (h.reset.mp hr)) hresult
  · rw [hlog]
    exact h.returned
  · rw [hlog, hctor, hcalling, hpromoted]
    exact h.called

theorem setSlot_ne (x : Worker A) {a b : A} (s : SporkSlot A) (h : b ≠ a) :
    (x.setSlot a s).slots b = x.slots b := Function.update_of_ne h ..

@[simp] theorem setSlot_self (x : Worker A) (a : A) (s : SporkSlot A) :
    (x.setSlot a s).slots a = s := Function.update_self ..

/-- A link is neither flag nor promotion function. -/
theorem store_flags (x : Worker A) (r : NextAddr A) (p : Option A) (a : A) :
    ((x.store r p).slots a).promoted = (x.slots a).promoted ∧
      ((x.store r p).slots a).promfn = (x.slots a).promfn := by
  cases r with
  | front => exact ⟨rfl, rfl⟩
  | slot b =>
    by_cases hb : a = b
    · subst hb
      simp [store]
    · simp [store, hb]

theorem store_log (x : Worker A) (r : NextAddr A) (p : Option A) :
    (x.store r p).log = x.log ∧ (x.store r p).calls = x.calls ∧
      (x.store r p).disable_heartbeats = x.disable_heartbeats := by
  cases r <;> exact ⟨rfl, rfl, rfl⟩

omit [DecidableEq A] in
theorem Told.flag_of_cons (h : Told d x) (hx : x.frames = f :: rest) :
    x.disable_heartbeats = (f.pc.masked.isSome || d) := by
  have hflag := h.flag
  rwa [masked, hx] at hflag

/-- The constructor, up to the commit. -/
theorem Told.ctorStep (h : Told d x) (hlinked : Linked x) (eff : Effect)
    (hx : x.frames = f :: rest) (hctor : f.pc.isCtor = true)
    (hstep : x.frameStep eff f rest = some y) : Told d y := by
  have h₀ := h.frames f (hx ▸ List.mem_cons_self)
  have hflag := h.flag_of_cons hx
  obtain ⟨c, a, pc⟩ := f
  have hsame : ∀ e ∈ x.log, e ∈ x.log ∨ e.call = c := fun e he => .inl he
  cases pc with
  | initPromoted =>
    cases hstep
    refine h.goto hlinked hx rfl rfl ?_ hsame (fun _ he => he) ?_ h.truthful hflag
      (by simp [Pc.saved, Pc.masked])
    · intro b hb
      simp [Worker.goto, setSlot_ne x _ hb]
    · constructor
      · simp
      · simp [Worker.goto]
      · simp [Pc.calling]
      · exact h₀.committed
      · exact iff_of_false (fun hr => by cases h₀.reset.mp hr) (by simp)
      · exact h₀.returned
      · exact iff_of_false (fun hc => by cases (h₀.called.mp hc).1) (by simp [Pc.isCtor])
  | initPromfn =>
    cases hstep
    have hp : (x.slots a).promoted = false := h₀.unpromoted rfl
    refine h.goto hlinked hx rfl rfl ?_ hsame (fun _ he => he) ?_ h.truthful hflag
      (by simp [Pc.saved, Pc.masked])
    · intro b hb
      simp [Worker.goto, setSlot_ne x _ hb]
    · constructor
      · simp [Worker.goto]
      · simp [Worker.goto, hp]
      · simp [Pc.calling]
      · exact h₀.committed
      · exact iff_of_false (fun hr => by cases h₀.reset.mp hr) (by simp)
      · exact h₀.returned
      · exact iff_of_false (fun hc => by cases (h₀.called.mp hc).1) (by simp [Pc.isCtor])
  | initNext =>
    cases hstep
    have hflags := store_flags x (.slot a) none
    refine h.goto hlinked hx rfl rfl (fun b _ => hflags b) hsame (fun _ he => he) ?_ h.truthful
      hflag (by simp [Pc.saved, Pc.masked])
    exact h₀.advance (hflags a).1 (hflags a).2 rfl (by simp) rfl rfl (by simp) (by simp)
      fun _ => h₀.unpromoted rfl
  | loadPrev =>
    cases hstep
    refine h.goto hlinked hx rfl rfl ?_ hsame (fun _ he => he) ?_ h.truthful hflag
      (by simp [Pc.saved, Pc.masked])
    · intro b hb
      simp [Worker.goto, setSlot_ne x _ hb]
    · refine h₀.advance ?_ ?_ rfl (by simp) rfl rfl (by simp) (by simp) fun _ => h₀.unpromoted rfl
      · simp [Worker.goto]
      · simp [Worker.goto]
  | link =>
    cases hstep
    have hflags := store_flags x (x.slots a).prev (some a)
    obtain ⟨hlog, hcalls, hdis⟩ := store_log x (x.slots a).prev (some a)
    refine h.goto hlinked hx rfl hcalls (fun b _ => hflags b) ?_ ?_ ?_ ?_ (hdis.trans hflag)
      (by simp [Pc.saved, Pc.masked])
    · intro e he
      exact .inl (hlog ▸ he)
    · intro e he
      exact hlog.symm ▸ he
    · exact h₀.advance (hflags a).1 (hflags a).2 hlog (by simp) rfl rfl (by simp) (by simp)
        fun _ => h₀.unpromoted rfl
    · exact hlog.symm ▸ h.truthful
  | commit =>
    cases hstep
    have hp : (x.slots a).promoted = false := h₀.unpromoted rfl
    have hno : .called c ∉ x.log := fun hc => by cases (h₀.called.mp hc).1
    refine h.goto hlinked hx rfl rfl (fun _ _ => ⟨rfl, rfl⟩) ?_ ?_ ?_ h.truthful hflag
      (by simp [Pc.saved, Pc.masked])
    · intro e he
      rcases List.mem_cons.mp he with rfl | he
      · exact .inr rfl
      · exact .inl he
    · intro e he
      exact List.mem_cons_of_mem _ he
    · constructor
      · intro _ _
        exact h₀.promfn (by simp) (by simp)
      · simp [Pc.unpromoted]
      · simp [Pc.calling]
      · simp [Worker.goto, note, Pc.isCtor]
      · have hr : .reset c ∉ x.log := fun hr => by cases h₀.reset.mp hr
        simpa [Worker.goto, note] using hr
      · intro b
        simpa [Worker.goto, note] using h₀.returned b
      · simpa [Worker.goto, note, hp] using hno
  | _ => cases hctor

omit [DecidableEq A] in
/-- A micro-step of an open call that neither sets a flag of the slot nor logs an event. -/
theorem Told.keep (h : Told d x) (hlinked : Linked x) (hx : x.frames = f :: rest)
    (hy : y.frames = { f with pc := pc } :: rest) (hslots : y.slots = x.slots)
    (hlog : y.log = x.log) (hcalls : y.calls = x.calls)
    (hinit : f.pc ≠ .initPromoted ∧ f.pc ≠ .initPromfn) (hctor : pc.isCtor = f.pc.isCtor)
    (hcalling : pc.calling = f.pc.calling) (hresult : pc ≠ .result) (hresult' : f.pc ≠ .result)
    (hunpromoted : pc.unpromoted = true → (x.slots f.addr).promoted = false)
    (hflag : y.disable_heartbeats = (pc.masked.isSome || d))
    (hsaved : ∀ b, pc.saved = some b → b = d) : Told d y := by
  have h₀ := h.frames f (hx ▸ List.mem_cons_self)
  refine h.goto hlinked hx hy hcalls ?_ ?_ ?_ ?_ ?_ hflag hsaved
  · intro a _
    rw [hslots]
    exact ⟨rfl, rfl⟩
  · intro e he
    exact .inl (hlog ▸ he)
  · intro e he
    exact hlog.symm ▸ he
  · exact h₀.advance (by rw [hslots]) (by rw [hslots]) hlog hinit hctor hcalling hresult hresult'
      hunpromoted
  · exact hlog.symm ▸ h.truthful

/-- The micro-steps of an open call: the test of the tokens, eager promotion, and the end of
the body. -/
theorem Told.openStep (h : Told d x) (hlinked : Linked x) (eff : Effect)
    (hx : x.frames = f :: rest) (hopen : f.pc.isOpen = true) (hreset : f.pc ≠ .reset)
    (hstep : x.frameStep eff f rest = some y) : Told d y := by
  have h₀ := h.frames f (hx ▸ List.mem_cons_self)
  have hflag := h.flag_of_cons hx
  have hsaved := h.saved f (hx ▸ List.mem_cons_self)
  obtain ⟨c, a, pc⟩ := f
  cases pc with
  | check =>
    cases hstep
    refine h.keep hlinked hx rfl rfl rfl rfl (by simp) ?_ ?_ ?_ (by simp) ?_ ?_ ?_ <;> split <;>
      simp_all [Pc.isCtor, Pc.calling, Pc.unpromoted, Pc.masked, Pc.saved, Worker.goto]
  | save =>
    cases hstep
    refine h.keep hlinked hx rfl rfl rfl rfl (by simp) rfl rfl (by simp) (by simp)
      (by simp [Pc.unpromoted]) hflag ?_
    intro b hb
    simp only [Pc.saved, Option.some.injEq] at hb
    rw [← hb]
    exact hflag
  | disable before =>
    cases hstep
    refine h.keep hlinked hx rfl rfl rfl rfl (by simp) rfl rfl (by simp) (by simp)
      (by simp [Pc.unpromoted]) rfl ?_
    intro b hb
    exact hsaved b hb
  | retest before =>
    cases hstep
    refine h.keep hlinked hx rfl rfl rfl rfl (by simp) ?_ ?_ ?_ (by simp) ?_ ?_ ?_ <;> split <;>
      simp_all [Pc.isCtor, Pc.calling, Pc.unpromoted, Pc.masked, Pc.saved, Worker.goto]
  | dec before =>
    cases hstep
    exact h.keep hlinked hx rfl rfl rfl rfl (by simp) rfl rfl (by simp) (by simp)
      (fun _ => h₀.unpromoted rfl) hflag hsaved
  | setPromoted before =>
    cases hstep
    have hp : (x.slots a).promoted = false := h₀.unpromoted rfl
    have hno : .called c ∉ x.log := by
      intro hc
      simp [(h₀.called.mp hc).2.2] at hp
    refine h.goto hlinked hx rfl rfl ?_ (fun e he => .inl he) (fun _ he => he) ?_ h.truthful hflag
      hsaved
    · intro b hb
      simp [Worker.goto, setSlot_ne x _ hb]
    · constructor
      · intro _ _
        simpa [Worker.goto] using h₀.promfn (by simp) (by simp)
      · simp [Pc.unpromoted]
      · simp [Worker.goto]
      · exact h₀.committed
      · exact iff_of_false (fun hr => by cases h₀.reset.mp hr) (by simp)
      · exact h₀.returned
      · exact iff_of_false hno (by simp [Pc.calling])
  | prom before =>
    cases hstep
    have hp : (x.slots a).promoted = true := h₀.calling rfl
    have hfn : (x.slots a).promfn = c := h₀.promfn (by simp) (by simp)
    have hcommitted : .committed c ∈ x.log := h₀.committed.mpr rfl
    have hreset : .reset c ∉ x.log := fun hr => by cases h₀.reset.mp hr
    have hno : .called c ∉ x.log := fun hc => by cases (h₀.called.mp hc).2.1
    refine h.goto hlinked hx rfl rfl (fun _ _ => ⟨rfl, rfl⟩) ?_ ?_ ?_ ?_ hflag hsaved
    · intro e he
      rcases List.mem_cons.mp he with rfl | he
      · exact .inr hfn
      · exact .inl he
    · intro e he
      exact List.mem_cons_of_mem _ he
    · constructor
      · intro _ _
        exact hfn
      · simp [Pc.unpromoted]
      · simp [Pc.calling]
      · simpa [Worker.goto, callProm, Pc.isCtor] using hcommitted
      · simpa [Worker.goto, callProm] using hreset
      · intro b
        simpa [Worker.goto, callProm] using h₀.returned b
      · simp [Worker.goto, callProm, hfn, hp, Pc.isCtor, Pc.calling]
    · show Truthful (.called (x.slots a).promfn :: x.log)
      rw [hfn]
      exact ⟨⟨hcommitted, hreset, hno, h₀.returned⟩, h.truthful⟩
  | restore before =>
    cases hstep
    refine h.keep hlinked hx rfl rfl rfl rfl (by simp) rfl rfl (by simp) (by simp)
      (by simp [Pc.unpromoted]) ?_ (by simp [Pc.saved, Pc.masked])
    show before = (false || d)
    rw [Bool.false_or]
    exact hsaved before rfl
  | body =>
    cases hstep
    exact h.keep hlinked hx rfl rfl rfl rfl (by simp) rfl rfl (by simp) (by simp)
      (by simp [Pc.unpromoted]) hflag (by simp [Pc.saved, Pc.masked])
  | reset => exact absurd rfl hreset
  | _ => cases hopen

/-- `close`: the reset, and the value it returns. -/
theorem Told.closeStep (h : Told d x) (hlinked : Linked x) (eff : Effect)
    (hx : x.frames = f :: rest) (hpc : f.pc = .reset ∨ f.pc = .result)
    (hstep : x.frameStep eff f rest = some y) : Told d y := by
  have h₀ := h.frames f (hx ▸ List.mem_cons_self)
  have hflag := h.flag_of_cons hx
  obtain ⟨c, a, pc⟩ := f
  rcases hpc with hpc | hpc
  · obtain rfl : pc = .reset := hpc
    cases hstep
    refine h.goto hlinked hx rfl rfl (fun _ _ => ⟨rfl, rfl⟩) ?_ ?_ ?_ h.truthful hflag
      (by simp [Pc.saved, Pc.masked])
    · intro e he
      rcases List.mem_cons.mp he with rfl | he
      · exact .inr rfl
      · exact .inl he
    · intro e he
      exact List.mem_cons_of_mem _ he
    · constructor
      · intro _ _
        exact h₀.promfn (by simp) (by simp)
      · simp [Pc.unpromoted]
      · simp [Pc.calling]
      · have hcommitted : .committed c ∈ x.log := h₀.committed.mpr rfl
        simpa [Worker.goto, note, Pc.isCtor] using hcommitted
      · simp [Worker.goto, note]
      · intro b
        simpa [Worker.goto, note] using h₀.returned b
      · have hcalled := h₀.called
        simpa [Worker.goto, note, Pc.isCtor, Pc.calling] using hcalled
  · obtain rfl : pc = .result := hpc
    cases hstep
    have hnum := h.numbers
    have hfresh := h.fresh
    rw [hx] at hnum hfresh
    rw [List.map_cons, List.nodup_cons] at hnum
    constructor
    · intro g hg
      have hg : g ∈ rest := hg
      have hcall : g.call ≠ c := by
        intro heq
        have hmem := List.mem_map_of_mem (f := Frame.call) hg
        rw [heq] at hmem
        exact hnum.1 hmem
      refine (h.frames g (hx ▸ List.mem_cons_of_mem _ hg)).other rfl rfl ?_
      intro e he
      constructor
      · intro hmem
        rcases List.mem_cons.mp hmem with rfl | hmem
        · exact absurd he.symm hcall
        · exact hmem
      · exact List.mem_cons_of_mem _
    · exact hnum.2
    · intro g hg
      exact hfresh g (List.mem_cons_of_mem _ hg)
    · intro e he
      rcases List.mem_cons.mp he with rfl | he
      · exact hfresh _ List.mem_cons_self
      · exact h.events e he
    · refine ⟨?_, h.truthful⟩
      have hcalled := h₀.called
      simpa [Pc.isCtor, Pc.calling] using hcalled.symm
    · have hbelow := hlinked.below
      rw [hx] at hbelow
      have hnone : masked { x with frames := rest } = false := by
        cases rest with
        | nil => rfl
        | cons g rest => simp [masked, hbelow g List.mem_cons_self, Pc.masked]
      show x.disable_heartbeats = (masked { x with frames := rest } || d)
      rw [hnone]
      exact hflag
    · intro g hg
      exact h.saved g (hx ▸ List.mem_cons_of_mem _ hg)

/-- A promotion by the handler, of an open slot that has not been promoted, while heartbeats
are not masked. -/
theorem Told.promote (h : Told d x) (hlinked : Linked x) (hmasked : x.disable_heartbeats = false)
    {a : A} (ha : a ∈ x.openSlots) (hp : (x.slots a).promoted = false) (eff : Effect) :
    Told d (x.promote eff a) := by
  obtain ⟨f, hf, hopen, rfl⟩ := mem_openSlots.mp ha
  have h₀ := h.frames f hf
  -- A call that is in the middle of promoting its own slot has masked the heartbeats.
  have hpc : f.pc.masked = none ∧ f.pc ≠ .result := by
    constructor
    · cases hx : x.frames with
      | nil => simp [hx] at hf
      | cons g rest =>
        rw [hx] at hf
        rcases List.mem_cons.mp hf with rfl | hf
        · have hflag := h.flag_of_cons hx
          rw [hmasked] at hflag
          cases hm : f.pc.masked with
          | none => rfl
          | some b => simp [hm] at hflag
        · have hbody := hlinked.below f (by rw [hx]; exact hf)
          simp [hbody, Pc.masked]
    · intro hr
      simp [hr, Pc.isOpen] at hopen
  have hctor : f.pc.isCtor = false ∧ f.pc.calling = false ∧ f.pc.unpromoted = false ∧
      f.pc ≠ .initPromoted ∧ f.pc ≠ .initPromfn := by
    cases hpc' : f.pc <;> simp_all [Pc.isOpen, Pc.isCtor, Pc.calling, Pc.unpromoted, Pc.masked]
  have hfn : (x.slots f.addr).promfn = f.call := h₀.promfn hctor.2.2.2.1 hctor.2.2.2.2
  have hlog : (x.promote eff f.addr).log = .called f.call :: x.log := by
    simp [Worker.promote, callProm, setSlot, hfn]
  have hslot : (x.promote eff f.addr).slots f.addr =
      { x.slots f.addr with promoted := true } := by
    simp [Worker.promote, callProm, setSlot]
  have hcommitted : .committed f.call ∈ x.log := h₀.committed.mpr hctor.1
  have hreset : .reset f.call ∉ x.log := fun hr => hpc.2 (h₀.reset.mp hr)
  have hno : .called f.call ∉ x.log := by
    intro hc
    simp [(h₀.called.mp hc).2.2] at hp
  constructor
  · intro g hg
    have hg : g ∈ x.frames := hg
    by_cases heq : g = f
    · subst heq
      constructor
      · intro _ _
        rw [hslot]
        exact hfn
      · simp [hctor.2.2.1]
      · simp [hctor.2.1]
      · simp [hlog, hcommitted, hctor.1]
      · simpa [hlog, hpc.2] using hreset
      · intro b
        simpa [hlog] using h₀.returned b
      · simp [hlog, hslot, hctor.1, hctor.2.1]
    · have haddr : g.addr ≠ f.addr := by
        intro ha
        exact heq (List.inj_on_of_nodup_map hlinked.nodup hg hf ha)
      have hcall : g.call ≠ f.call := by
        intro hc
        exact heq (List.inj_on_of_nodup_map h.numbers hg hf hc)
      have hsame : (x.promote eff f.addr).slots g.addr = x.slots g.addr := by
        simp [Worker.promote, callProm, setSlot, haddr]
      refine (h.frames g hg).other (by rw [hsame]) (by rw [hsame]) ?_
      intro e he
      rw [hlog]
      constructor
      · intro hmem
        rcases List.mem_cons.mp hmem with rfl | hmem
        · exact absurd he.symm hcall
        · exact hmem
      · exact List.mem_cons_of_mem _
  · exact h.numbers
  · exact h.fresh
  · intro e he
    rw [hlog] at he
    rcases List.mem_cons.mp he with rfl | he
    · exact h.fresh f hf
    · exact h.events e he
  · rw [hlog]
    exact ⟨⟨hcommitted, hreset, hno, h₀.returned⟩, h.truthful⟩
  · exact h.flag
  · exact h.saved

omit [DecidableEq A] in
theorem Told.setTokens (h : Told d x) (t : UInt32) : Told d { x with heartbeat_tokens := t } := by
  refine ⟨?_, h.numbers, h.fresh, h.events, h.truthful, h.flag, h.saved⟩
  intro f hf
  exact (h.frames f hf).other rfl rfl fun _ _ => Iff.rfl

/-- The handler, wherever it arrives. -/
theorem Told.heartbeat (h : Told d x) (hlinked : Linked x) {eff : Effect} {fuel : ℕ}
    (hy : x.heartbeat_handler eff fuel = some y) : Told d y := by
  rw [heartbeat_handler] at hy
  split at hy
  · cases hy
    exact h
  · next hmasked =>
    obtain ⟨res, hres, rfl⟩ := Option.map_eq_some_iff.mp hy
    set t := if x.heartbeat_tokens + TOKENS_PER_HEARTBEAT > MAX_HEARTBEAT_TOKENS
      then MAX_HEARTBEAT_TOKENS else x.heartbeat_tokens + TOKENS_PER_HEARTBEAT with ht
    have hl := hlinked.setTokens t
    rw [promote_front_some eff hl.chain (openSlots_nodup hl.nodup) hres]
    have hdone : ∀ z : Worker A, (Told d z ∧ Linked z ∧ z.disable_heartbeats = false ∧
        z.frames = x.frames) → Told d z := fun z hz => hz.1
    apply hdone
    apply visits_induction eff (P := fun z => Told d z ∧ Linked z ∧
      z.disable_heartbeats = false ∧ z.frames = x.frames)
    · exact ⟨h.setTokens t, hl, by simpa using hmasked, rfl⟩
    · intro z a ha hz _ hp
      obtain ⟨hz, hzl, hzm, hzf⟩ := hz
      have ha : a ∈ z.openSlots := by
        have hopen : z.openSlots = x.openSlots := by simp only [openSlots, hzf]
        rw [hopen]
        exact ha
      exact ⟨hz.promote hzl hzm ha hp eff,
        hzl.same (fun b => promote_links eff z a b) rfl rfl rfl, hzm, hzf⟩

omit [DecidableEq A] in
/-- A new call. -/
theorem Told.enter (h : Told d x) (hb : x.inBody) (a : A) : Told d (x.enter a) := by
  have hnew : ∀ e ∈ x.log, e.call ≠ x.calls := fun e he => (h.events e he).ne
  constructor
  · intro g hg
    rcases List.mem_cons.mp hg with rfl | hg
    · constructor
      · simp
      · simp [Pc.unpromoted]
      · simp [Pc.calling]
      · exact iff_of_false (fun he => hnew _ he rfl) (by simp [Pc.isCtor])
      · exact iff_of_false (fun he => hnew _ he rfl) (by simp)
      · intro b he
        exact hnew _ he rfl
      · exact iff_of_false (fun he => hnew _ he rfl) (by simp [Pc.isCtor])
    · exact (h.frames g hg).other rfl rfl fun _ _ => Iff.rfl
  · refine List.nodup_cons.mpr ⟨?_, h.numbers⟩
    intro hmem
    obtain ⟨g, hg, heq⟩ := List.mem_map.mp hmem
    exact (h.fresh g hg).ne heq
  · intro g hg
    rcases List.mem_cons.mp hg with rfl | hg
    · exact Nat.lt_succ_self _
    · exact Nat.lt_succ_of_lt (h.fresh g hg)
  · intro e he
    exact Nat.lt_succ_of_lt (h.events e he)
  · exact h.truthful
  · have hflag := h.flag
    have hnone : masked x = false := by
      cases hx : x.frames with
      | nil => simp [masked, hx]
      | cons f rest => simp [masked, hx, pc_of_inBody hb hx, Pc.masked]
    rw [hnone] at hflag
    exact hflag
  · intro g hg
    rcases List.mem_cons.mp hg with rfl | hg
    · simp [Pc.saved, Pc.masked]
    · exact h.saved g hg

/-- Every step keeps the account. -/
theorem Told.step (h : Told d x) (hlinked : Linked x) (hstep : Step x y) : Told d y := by
  rcases hstep.cases with ⟨eff, f, rest, hx, hl⟩ | ⟨a, hb, -, rfl⟩ | ⟨t, rfl⟩ | ⟨eff, fuel, hl⟩
  · by_cases hctor : f.pc.isCtor = true
    · exact h.ctorStep hlinked eff hx hctor hl
    · by_cases hclose : f.pc = .reset ∨ f.pc = .result
      · exact h.closeStep hlinked eff hx hclose hl
      · rw [not_or] at hclose
        refine h.openStep hlinked eff hx ?_ hclose.1 hl
        cases hpc : f.pc <;> simp_all [Pc.isCtor, Pc.isOpen]
  · exact h.enter hb a
  · exact h.setTokens t
  · exact h.heartbeat hlinked hl

theorem Told.reachable (h : Reachable d x) : Told d x := by
  obtain ⟨x₀, hstart, hd, hrun⟩ := h
  have hboth : Told d x ∧ Linked x := by
    induction hrun with
    | refl => exact ⟨.start hstart hd, .start hstart⟩
    | tail _ hstep ih => exact ⟨ih.1.step ih.2 hstep, ih.2.step hstep⟩
  exact hboth.1

end

/-- **A slot is promoted at most once, and `close` tells the truth.** Whatever the order of
calls, micro-steps and heartbeats: the promotion function of a call is called at most once,
after the commit of its slot and before the reset; `close` returns whether it has been called;
and `disable_heartbeats` has its earlier value `d` except inside eager promotion. -/
theorem promoted_once {A : Type} [DecidableEq A] {d : Bool} {x : Worker A} (h : Reachable d x) :
    (∀ c later earlier, x.log = later ++ .called c :: earlier →
      .committed c ∈ earlier ∧ .reset c ∉ earlier ∧ .called c ∉ earlier ∧ .called c ∉ later) ∧
    (∀ c b, .returned c b ∈ x.log → (b = true ↔ .called c ∈ x.log)) ∧
    (masked x = false → x.disable_heartbeats = d) := by
  have htold := Told.reachable h
  have htruthful := htold.truthful
  refine ⟨?_, fun c b => htruthful.returned, ?_⟩
  · intro c later earlier hlog
    rw [hlog] at htruthful
    have hc := htruthful.of_append.1
    refine ⟨hc.1, hc.2.1, hc.2.2.1, ?_⟩
    intro hmem
    obtain ⟨l₁, l₂, rfl⟩ := List.append_of_mem hmem
    rw [List.append_assoc] at htruthful
    exact htruthful.of_append.1.2.2.1 (by simp)
  · intro hm
    rw [htold.flag, hm, Bool.false_or]

/-- A call that the handler has promoted. -/
theorem promoted_once_nested :
    (∀ c later earlier, nestedState.log = later ++ .called c :: earlier →
      .committed c ∈ earlier ∧ .reset c ∉ earlier ∧ .called c ∉ earlier ∧ .called c ∉ later) ∧
    (∀ c b, .returned c b ∈ nestedState.log → (b = true ↔ .called c ∈ nestedState.log)) ∧
    (masked nestedState = false → nestedState.disable_heartbeats = false) :=
  promoted_once reachable_nestedState

end Spork.Scheduler.SporkDeque
