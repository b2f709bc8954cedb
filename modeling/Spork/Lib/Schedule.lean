import Spork.Lib.ForkJoin

/-!
# Runs of fork-join programs

A run is the list of what was scheduled: where in the tree of forks, and the actions done.
It is taken in an environment that may change the memory between any two steps. The branch
of a fork runs in an arbitrary environment, a whole program in none.

## Main definitions

* `Event`, `trace` — what a run is made of, and its actions in order.
* `Runs`, `Run` — the runs, in an environment and on their own.
* `lefts`, `rights` — what a run of a fork is to its branches.
* `Runs.bind`, `Runs.fork` — the runs of a sequence and of a fork.
* `AllRuns.run`, `AllRuns.exists_run` — total correctness is about these runs.
-/
namespace Spork.ForkJoin

open Prog

/-- What was scheduled: where, and the actions done there. -/
structure Event (L E : Type) where
  path : List Side
  acts : List (Act L E)

variable {L V E : Type} {A B C : Type}

/-- The actions of a run, in order. -/
def trace (s : List (Event L E)) : List (Act L E) := s.flatMap Event.acts

@[simp] theorem trace_nil : trace ([] : List (Event L E)) = [] := rfl

@[simp] theorem trace_cons (e : Event L E) (s : List (Event L E)) :
    trace (e :: s) = e.acts ++ trace s := rfl

@[simp] theorem trace_append (s s' : List (Event L E)) : trace (s ++ s') = trace s ++ trace s' :=
  List.flatMap_append

variable [DecidableEq L]

/-- The runs of a program, from one memory to another, in an environment that may change
the memory by `R` before each step. -/
inductive Runs (R : (L → V) → (L → V) → Prop) :
    (L → V) → Prog L V E A → List (Event L E) → (L → V) → Prog L V E A → Prop
  | nil {m : L → V} {p : Prog L V E A} : Runs R m p [] m p
  | cons {m₀ m m' m'' : L → V} {π : List Side} {t : List (Act L E)} {p p' p'' : Prog L V E A}
      {s : List (Event L E)} (henv : R m₀ m) (hstep : step m p π = some (m', t, p'))
      (hs : Runs R m' p' s m'' p'') : Runs R m₀ p (⟨π, t⟩ :: s) m'' p''

/-- The runs of a program on its own. -/
abbrev Run (m : L → V) (p : Prog L V E A) (s : List (Event L E)) (m' : L → V)
    (p' : Prog L V E A) : Prop := Runs (· = ·) m p s m' p'

variable {R : (L → V) → (L → V) → Prop} {m m' m'' : L → V} {s s' : List (Event L E)}

theorem Runs.append {p p' p'' : Prog L V E A} (h : Runs R m p s m' p')
    (h' : Runs R m' p' s' m'' p'') : Runs R m p (s ++ s') m'' p'' := by
  induction h with
  | nil => exact h'
  | cons henv hstep _ ih => exact .cons henv hstep (ih h')

/-! ## The parts of a run -/

theorem runs_ret {b : A} {p : Prog L V E A} (h : Runs R m (.ret b) s m' p) :
    s = [] ∧ p = .ret b := by
  cases h with
  | nil => exact ⟨rfl, rfl⟩
  | cons _ hstep _ => cases hstep

theorem runs_rd {l : L} {k : V → Prog L V E A} {a : A} (h : Runs R m (.rd l k) s m' (.ret a)) :
    ∃ s' v m₁, s = ⟨[], [.read l]⟩ :: s' ∧ Runs R m₁ (k v) s' m' (.ret a) := by
  cases h with
  | @cons _ _ _ _ π _ _ _ _ s' _ hstep hs =>
    cases π <;> cases hstep
    exact ⟨s', _, _, rfl, hs⟩

theorem runs_note {e : E} {k : Prog L V E A} {a : A}
    (h : Runs R m (.note e k) s m' (.ret a)) :
    ∃ s' m₁, s = ⟨[], [.note e]⟩ :: s' ∧ Runs R m₁ k s' m' (.ret a) := by
  cases h with
  | @cons _ _ _ _ π _ _ _ _ s' _ hstep hs =>
    cases π <;> cases hstep
    exact ⟨s', _, rfl, hs⟩

theorem step_bind {p : Prog L V E B} {f : B → Prog L V E A} (hp : p.value? = none)
    (π : List Side) :
    step m (p.bind f) π = (step m p π).map fun r => (r.1, r.2.1, r.2.2.bind f) := by
  cases p with
  | ret b => cases hp
  | ub => rfl
  | rd l k => cases π <;> rfl
  | wr l v k => cases π <;> rfl
  | note e k => cases π <;> rfl
  | fork p q k =>
    match π with
    | [] => cases hpv : p.value? <;> cases hqv : q.value? <;> simp [Prog.bind, step, hpv, hqv]
    | .left :: π => simp [Prog.bind, step, Function.comp_def]
    | .right :: π => simp [Prog.bind, step, Function.comp_def]

/-- A run of the first part of a sequence. -/
theorem Runs.lift {p p' : Prog L V E B} (h : Runs R m p s m' p') (f : B → Prog L V E A) :
    Runs R m (p.bind f) s m' (p'.bind f) := by
  induction h with
  | nil => exact .nil
  | @cons _ m _ _ _ _ p _ _ _ henv hstep _ ih =>
    have hp : p.value? = none := by
      cases p with
      | ret b => cases hstep
      | _ => rfl
    exact .cons henv (by rw [step_bind hp, hstep]; rfl) ih

/-- A run of a sequence is a run of its first part and one of its second. -/
theorem Runs.bind {p : Prog L V E B} {f : B → Prog L V E A} {a : A}
    (h : Runs R m (p.bind f) s m' (.ret a)) :
    ∃ s₁ s₂ m₁ b, s = s₁ ++ s₂ ∧ Runs R m p s₁ m₁ (.ret b) ∧
      Runs R m₁ (f b) s₂ m' (.ret a) := by
  cases hp : p.value? with
  | some b =>
    obtain rfl := value?_eq_some.mp hp
    exact ⟨[], s, m, b, rfl, .nil, h⟩
  | none =>
    generalize hq : p.bind f = q at h
    generalize hr : (.ret a : Prog L V E A) = r at h
    induction h generalizing p with
    | nil =>
      subst hr
      cases p with
      | ret b => cases hp
      | _ => cases hq
    | cons henv hstep hs ih =>
      subst hq hr
      rw [step_bind hp] at hstep
      obtain ⟨⟨_, _, p₁⟩, hstep₁, heq⟩ := Option.map_eq_some_iff.mp hstep
      cases heq
      cases hp₁ : p₁.value? with
      | some b =>
        obtain rfl := value?_eq_some.mp hp₁
        exact ⟨[_], _, _, b, rfl, .cons henv hstep₁ .nil, hs⟩
      | none =>
        obtain ⟨s₁, s₂, m₁, b, rfl, h₁, h₂⟩ := ih hp₁ rfl rfl
        exact ⟨_ :: s₁, s₂, m₁, b, rfl, .cons henv hstep₁ h₁, h₂⟩

/-- The event happens in the left branch of the outermost fork. -/
def Event.OnLeft (e : Event L E) : Prop := ∃ π, e.path = .left :: π

/-- The event happens in the right branch of the outermost fork. -/
def Event.OnRight (e : Event L E) : Prop := ∃ π, e.path = .right :: π

/-- The event is one of the outermost fork: in a branch, or the join. -/
def Event.InFork (e : Event L E) : Prop := e.OnLeft ∨ e.OnRight ∨ e = ⟨[], []⟩

/-- What happened in the left branch. -/
def lefts (s : List (Event L E)) : List (Event L E) :=
  s.filterMap fun e => match e.path with
    | .left :: π => some ⟨π, e.acts⟩
    | _ => none

/-- What happened in the right branch. -/
def rights (s : List (Event L E)) : List (Event L E) :=
  s.filterMap fun e => match e.path with
    | .right :: π => some ⟨π, e.acts⟩
    | _ => none

section
omit [DecidableEq L]
variable {π : List Side} {t : List (Act L E)}

@[simp] theorem lefts_nil : lefts ([] : List (Event L E)) = [] := rfl
@[simp] theorem rights_nil : rights ([] : List (Event L E)) = [] := rfl
@[simp] theorem lefts_left : lefts (⟨.left :: π, t⟩ :: s) = ⟨π, t⟩ :: lefts s := rfl
@[simp] theorem lefts_right : lefts (⟨.right :: π, t⟩ :: s) = lefts s := rfl
@[simp] theorem rights_left : rights (⟨.left :: π, t⟩ :: s) = rights s := rfl
@[simp] theorem rights_right : rights (⟨.right :: π, t⟩ :: s) = ⟨π, t⟩ :: rights s := rfl

@[simp] theorem lefts_append : lefts (s ++ s') = lefts s ++ lefts s' := List.filterMap_append
@[simp] theorem rights_append : rights (s ++ s') = rights s ++ rights s' := List.filterMap_append

@[simp] theorem lefts_join : lefts (⟨[], t⟩ :: s) = lefts s := rfl
@[simp] theorem rights_join : rights (⟨[], t⟩ :: s) = rights s := rfl

/-- The last event of the left branch. -/
theorem lefts_eq_concat {sl : List (Event L E)} (h : lefts s = sl ++ [⟨π, t⟩]) :
    ∃ u v, s = u ++ ⟨.left :: π, t⟩ :: v ∧ lefts u = sl ∧ lefts v = [] := by
  obtain ⟨u, s', rfl, hu, hs'⟩ := List.filterMap_eq_append_iff.mp h
  obtain ⟨u', ⟨path, acts⟩, v, rfl, hu', he, hv⟩ := List.filterMap_eq_cons_iff.mp hs'
  have hnil : lefts u' = [] := List.filterMap_eq_nil_iff.mpr hu'
  split at he
  · next π' hπ =>
    obtain rfl : path = .left :: π' := hπ
    cases he
    exact ⟨u ++ u', v, by simp, by rw [lefts_append, hnil, List.append_nil]; exact hu, hv⟩
  · cases he

theorem lefts_eq_nil : lefts s = [] ↔ ∀ e ∈ s, ¬ e.OnLeft := by
  refine List.filterMap_eq_nil_iff.trans (forall₂_congr fun e _ => ?_)
  constructor
  · rintro h ⟨π, hπ⟩
    simp [hπ] at h
  · intro h
    split
    · next π hπ => exact absurd ⟨π, hπ⟩ h
    · rfl

end

/-- A run of a fork is a run of its branches, to their ends and their join, and a run of
what comes after. -/
theorem Runs.fork {p : Prog L V E B} {q : Prog L V E C} {k : B → C → Prog L V E A} {a : A}
    (h : Runs R m (.fork p q k) s m' (.ret a)) :
    ∃ s₁ s₂ m₁ b c, s = s₁ ++ s₂ ∧ Runs R m (.fork p q k) s₁ m₁ (k b c) ∧
      Runs R m₁ (k b c) s₂ m' (.ret a) ∧ (∀ e ∈ s₁, e.InFork) ∧
      (∀ n, ∃ n', Runs (fun _ _ => True) n p (lefts s₁) n' (.ret b)) ∧
      ∀ n, ∃ n', Runs (fun _ _ => True) n q (rights s₁) n' (.ret c) := by
  generalize hr : (.ret a : Prog L V E A) = r at h
  generalize hf : Prog.fork p q k = f at h
  induction h generalizing p q with
  | nil => subst hr; cases hf
  | @cons m₀ m m₁ _ π t _ p₁ _ s henv hstep hs ih =>
    subst hr hf
    match π with
    | [] =>
      obtain ⟨b, c, rfl, rfl, rfl, rfl, rfl⟩ := step_join hstep
      exact ⟨[⟨[], []⟩], s, _, b, c, rfl, .cons henv hstep .nil, hs,
        fun e he => .inr (.inr (List.mem_singleton.mp he)), fun n => ⟨n, .nil⟩,
        fun n => ⟨n, .nil⟩⟩
    | .left :: π =>
      obtain ⟨⟨_, _, p₂⟩, hstep₁, heq⟩ := Option.map_eq_some_iff.mp hstep
      cases heq
      obtain ⟨s₁, s₂, n₁, b, c, rfl, hs₁, hs₂, hside, hl, hr⟩ := ih rfl rfl
      refine ⟨⟨.left :: π, _⟩ :: s₁, s₂, n₁, b, c, rfl, .cons henv hstep hs₁, hs₂, ?_,
        fun n => ?_, hr⟩
      · exact List.forall_mem_cons.mpr ⟨.inl ⟨π, rfl⟩, hside⟩
      · obtain ⟨n', hn⟩ := hl _
        exact ⟨n', .cons trivial hstep₁ hn⟩
    | .right :: π =>
      obtain ⟨⟨_, _, q₂⟩, hstep₁, heq⟩ := Option.map_eq_some_iff.mp hstep
      cases heq
      obtain ⟨s₁, s₂, n₁, b, c, rfl, hs₁, hs₂, hside, hl, hr⟩ := ih rfl rfl
      refine ⟨⟨.right :: π, _⟩ :: s₁, s₂, n₁, b, c, rfl, .cons henv hstep hs₁, hs₂, ?_, hl,
        fun n => ?_⟩
      · exact List.forall_mem_cons.mpr ⟨.inr (.inl ⟨π, rfl⟩), hside⟩
      · obtain ⟨n', hn⟩ := hr _
        exact ⟨n', .cons trivial hstep₁ hn⟩

/-! ## Who comes first -/

section
variable {α : Type} {x y : α} {t₁ t₂ : List α}

/-- `x` happens once, and `y` happens before it and not after it. -/
def Before (y x : α) (l : List α) : Prop :=
  ∃ u v, l = u ++ x :: v ∧ y ∈ u ∧ y ∉ v ∧ x ∉ u ∧ x ∉ v

theorem Before.append_left (h : Before y x t₂) (hx : x ∉ t₁) : Before y x (t₁ ++ t₂) := by
  obtain ⟨u, v, rfl, hyu, hyv, hxu, hxv⟩ := h
  refine ⟨t₁ ++ u, v, by simp, List.mem_append_right _ hyu, hyv, fun h => ?_, hxv⟩
  rcases List.mem_append.mp h with h | h
  · exact hx h
  · exact hxu h

theorem not_before (hx : x ∉ t₂) (hy : y ∈ t₂) : ¬ Before y x (t₁ ++ t₂) := by
  rintro ⟨u, v, heq, -, hyv, -, -⟩
  rcases List.append_eq_append_iff.mp heq with ⟨c, -, rfl⟩ | ⟨c, -, hc⟩
  · simp at hx
  · cases c with
    | nil =>
      obtain rfl : t₂ = x :: v := hc.symm
      simp at hx
    | cons z c =>
      obtain ⟨-, rfl⟩ := List.cons.inj hc
      exact hyv (List.mem_append_right _ hy)

end

/-- Something in the right branch happens before something in the left one. -/
def RightBeforeLeft (s : List (Event L E)) : Prop :=
  ∃ u x v, s = u ++ x :: v ∧ x.OnRight ∧ ∃ y ∈ v, y.OnLeft

section
omit [DecidableEq L]
variable {x y : Act L E} {π π' : List Side} {sl sr : List (Event L E)}

theorem mem_trace_inFork (hside : ∀ e ∈ s, e.InFork) :
    x ∈ trace s ↔ x ∈ trace (lefts s) ∨ x ∈ trace (rights s) := by
  induction s with
  | nil => simp [lefts, rights]
  | cons e s ih =>
    have ih := ih fun e he => hside e (List.mem_cons_of_mem _ he)
    obtain ⟨path, acts⟩ := e
    rcases hside _ List.mem_cons_self with ⟨π, hπ⟩ | ⟨π, hπ⟩ | h
    · obtain rfl : path = .left :: π := hπ
      simp only [trace_cons, lefts_left, rights_left, List.mem_append, ih, or_assoc]
    · obtain rfl : path = .right :: π := hπ
      simp only [trace_cons, lefts_right, rights_right, List.mem_append, ih, or_left_comm]
    · cases h
      simpa using ih

/-- Otherwise the left branch is over before the right one begins. -/
theorem lefts_then_rights (hside : ∀ e ∈ s, e.InFork) (h : ¬ RightBeforeLeft s) :
    trace s = trace (lefts s) ++ trace (rights s) := by
  induction s with
  | nil => rfl
  | cons e s ih =>
    have hside' : ∀ e ∈ s, e.InFork := fun x hx => hside x (List.mem_cons_of_mem _ hx)
    have ih := ih hside' fun ⟨u, x, v, hs, hx⟩ => h ⟨e :: u, x, v, by simp [hs], hx⟩
    obtain ⟨path, acts⟩ := e
    rcases hside _ List.mem_cons_self with ⟨π, hπ⟩ | ⟨π, hπ⟩ | heq
    · obtain rfl : path = .left :: π := hπ
      rw [trace_cons, ih, lefts_left, rights_left, trace_cons, List.append_assoc]
    · obtain rfl : path = .right :: π := hπ
      -- nothing is left for the left branch
      have hnil : lefts s = [] := lefts_eq_nil.mpr fun y hy hl =>
        h ⟨[], _, s, rfl, ⟨π, rfl⟩, y, hy, hl⟩
      rw [trace_cons, ih, lefts_right, rights_right, hnil]
      rfl
    · cases heq
      simpa using ih

/-- If the right branch begins with `y` and the left one ends with `x`, then `y` is before
`x` if anything in the right branch comes before anything in the left one. -/
theorem before_of_rightBeforeLeft (hside : ∀ e ∈ s, e.InFork) (hl : lefts s = sl ++ [⟨π, [x]⟩])
    (hr : rights s = ⟨π', [y]⟩ :: sr) (hxl : x ∉ trace sl) (hxr : x ∉ trace (rights s))
    (hyr : y ∉ trace sr) (h : RightBeforeLeft s) :
    Before y x (trace s) := by
  obtain ⟨u, v, rfl, rfl, hv⟩ := lefts_eq_concat hl
  simp only [rights_append, rights_left] at hr hxr
  have hsideu : ∀ e ∈ u, e.InFork := fun e he => hside e (by simp [he])
  have hsidev : ∀ e ∈ v, e.InFork := fun e he => hside e (by simp [he])
  -- the right branch has begun by then
  obtain ⟨z, hz⟩ : ∃ z, z ∈ rights u := by
    obtain ⟨u', r, v', heq, ⟨ρ, hρ⟩, l, hl', hleft⟩ := h
    have hr : r ∈ u := by
      rcases List.append_eq_append_iff.mp heq with ⟨c, -, hc⟩ | ⟨c, rfl, hc⟩
      · cases c with
        | nil =>
          obtain ⟨rfl, -⟩ := List.cons.inj hc
          cases hρ
        | cons f c =>
          obtain ⟨-, rfl⟩ := List.cons.inj hc
          exact absurd hleft (lefts_eq_nil.mp hv l (by simp [hl']))
      · cases c with
        | nil =>
          obtain ⟨rfl, -⟩ := List.cons.inj hc
          cases hρ
        | cons f c =>
          obtain ⟨rfl, -⟩ := List.cons.inj hc
          simp
    exact ⟨⟨ρ, r.acts⟩, List.mem_filterMap.mpr ⟨r, hr, by simp [hρ]⟩⟩
  obtain ⟨w, hw⟩ : ∃ w, rights u = ⟨π', [y]⟩ :: w := by
    cases hu : rights u with
    | nil => rw [hu] at hz; cases hz
    | cons e w =>
      rw [hu, List.cons_append] at hr
      exact ⟨w, by rw [(List.cons.inj hr).1]⟩
  rw [hw, List.cons_append] at hr
  have hsr := (List.cons.inj hr).2
  simp only [trace_append, List.mem_append, not_or] at hxr
  refine ⟨trace u, trace v, by simp, ?_, ?_, ?_, ?_⟩
  · exact (mem_trace_inFork hsideu).mpr (.inr (by simp [hw]))
  · rw [mem_trace_inFork hsidev, hv, not_or]
    rw [← hsr, trace_append, List.mem_append, not_or] at hyr
    exact ⟨by simp, hyr.2⟩
  · rw [mem_trace_inFork hsideu, not_or]
    exact ⟨hxl, hxr.1⟩
  · rw [mem_trace_inFork hsidev, hv, not_or]
    exact ⟨by simp, hxr.2⟩

end

/-! ## Safe programs -/

section
variable {F : Foot L E} {Q : A → Prop}

theorem Safe.step_allows {p p' : Prog L V E A} (h : Safe F p Q) {π : List Side}
    {t : List (Act L E)} (hstep : step m p π = some (m', t, p')) : ∀ x ∈ t, F.Allows x := by
  obtain ⟨a, mf, tr, he, -, -, hallows, -⟩ := h.eval_spec m
  obtain ⟨-, -, heval⟩ := h.step_spec hstep
  obtain ⟨tr', -, hperm⟩ := heval a mf tr he
  exact fun x hx => hallows x (hperm.mem_iff.mpr (List.mem_append_left _ hx))

/-- A run of a safe program leaves a safe program, and does only what the program may. -/
theorem Safe.runs {p p' : Prog L V E A} (h : Safe F p Q) (hr : Runs R m p s m' p') :
    Safe F p' Q ∧ ∀ x ∈ trace s, F.Allows x := by
  induction hr with
  | nil => exact ⟨h, by simp⟩
  | cons henv hstep _ ih =>
    obtain ⟨hsafe, hallows⟩ := ih (h.step_spec hstep).1
    refine ⟨hsafe, fun x hx => ?_⟩
    rcases List.mem_append.mp hx with hx | hx
    · exact h.step_allows hstep x hx
    · exact hallows x hx

end

section
variable {P : A → (L → V) → List (Act L E) → Prop} {tr : List (Act L E)} {p : Prog L V E A}

/-- Total correctness is about every run that has ended, -/
theorem AllRuns.run (h : AllRuns P m tr p) {a : A} (hr : Run m p s m' (.ret a)) :
    P a m' (tr ++ trace s) := by
  induction h generalizing s with
  | ret h =>
    cases hr with
    | nil => simpa using h
    | cons _ hstep _ => cases hstep
  | step hstep _ ih =>
    cases hr with
    | nil =>
      obtain ⟨π, hπ⟩ := hstep
      cases hπ
    | cons henv hstep' hs =>
      subst henv
      simpa only [trace_cons, List.append_assoc] using ih _ _ _ _ hstep' hs

/-- and says that there is one. -/
theorem AllRuns.exists_run (h : AllRuns P m tr p) :
    ∃ s m' a, Run m p s m' (.ret a) ∧ P a m' (tr ++ trace s) := by
  induction h with
  | ret h => exact ⟨[], _, _, .nil, by simpa using h⟩
  | step hstep _ ih =>
    obtain ⟨π, hπ⟩ := hstep
    obtain ⟨⟨m₁, t, p₁⟩, hstep⟩ := Option.isSome_iff_exists.mp hπ
    obtain ⟨s, m', a, hr, hP⟩ := ih _ _ _ _ hstep
    refine ⟨_ :: s, m', a, .cons rfl hstep hr, ?_⟩
    simpa only [trace_cons, List.append_assoc] using hP

end
end Spork.ForkJoin
