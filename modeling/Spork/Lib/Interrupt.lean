import Mathlib.Tactic.Common
import Mathlib.Order.Nat

/-!
# Programs with one asynchronous interruption

A program is a step function on states, `none` meaning that it has halted. A
handler may rewrite the state once, before any step of the program or after the
last one. `exec` runs the program against one such moment, and `Certificate` is
the proof obligation of an interruptible loop: an invariant that may change its
meaning when the handler has run, and a measure on the program's own steps.

## Main definitions

* `exec step handler fuel t s` — run from `s`, the handler arriving after `t` steps.
* `Certificate` — invariant and measure.
* `Certificate.exec_total` — every moment of interruption ends in the invariant.
-/
namespace Spork.Interrupt

variable {σ : Type*}

/-- Run `step` from a state. With `some t` the handler arrives after `t` steps, or
after the program has halted if that is sooner; with `none` it never arrives. -/
def exec (step : σ → Option σ) (handler : σ → σ) : ℕ → Option ℕ → σ → Option σ
  | 0, _, _ => none
  | fuel + 1, some 0, s => exec step handler fuel none (handler s)
  | fuel + 1, some (t + 1), s =>
      match step s with
      | some s' => exec step handler fuel (some t) s'
      | none => some (handler s)
  | fuel + 1, none, s =>
      match step s with
      | some s' => exec step handler fuel none s'
      | none => some s

/-- What has to be shown of an interruptible program. The invariant is indexed by
whether the handler has already run. -/
structure Certificate (step : σ → Option σ) (handler : σ → σ)
    (Inv : Bool → σ → Prop) (μ : σ → ℕ) : Prop where
  step_inv : ∀ b s s', Inv b s → step s = some s' → Inv b s'
  measure_lt : ∀ b s s', Inv b s → step s = some s' → μ s' < μ s
  handler_inv : ∀ s, Inv false s → Inv true (handler s)
  handler_halted : ∀ s, step s = none → step (handler s) = none

/-- `s` ends in `s'` under the interruption `t`, with any sufficient fuel. -/
def EndsIn (step : σ → Option σ) (handler : σ → σ) (t : Option ℕ) (s s' : σ) : Prop :=
  ∃ N, ∀ fuel, N ≤ fuel → exec step handler fuel t s = some s'

variable {step : σ → Option σ} {handler : σ → σ}

theorem EndsIn.interrupt {s s' : σ} (h : EndsIn step handler none (handler s) s') :
    EndsIn step handler (some 0) s s' := by
  obtain ⟨N, hN⟩ := h
  refine ⟨N + 1, fun fuel hf => ?_⟩
  obtain ⟨fuel, rfl⟩ : ∃ k, fuel = k + 1 := ⟨fuel - 1, by omega⟩
  simpa only [exec] using hN fuel (by omega)

theorem EndsIn.step_some {s s₁ s' : σ} {t : ℕ} (hs : step s = some s₁)
    (h : EndsIn step handler (some t) s₁ s') : EndsIn step handler (some (t + 1)) s s' := by
  obtain ⟨N, hN⟩ := h
  refine ⟨N + 1, fun fuel hf => ?_⟩
  obtain ⟨fuel, rfl⟩ : ∃ k, fuel = k + 1 := ⟨fuel - 1, by omega⟩
  simpa only [exec, hs] using hN fuel (by omega)

theorem EndsIn.step_none {s s₁ s' : σ} (hs : step s = some s₁)
    (h : EndsIn step handler none s₁ s') : EndsIn step handler none s s' := by
  obtain ⟨N, hN⟩ := h
  refine ⟨N + 1, fun fuel hf => ?_⟩
  obtain ⟨fuel, rfl⟩ : ∃ k, fuel = k + 1 := ⟨fuel - 1, by omega⟩
  simpa only [exec, hs] using hN fuel (by omega)

theorem EndsIn.halted_some {s : σ} {t : ℕ} (hs : step s = none) :
    EndsIn step handler (some (t + 1)) s (handler s) := by
  refine ⟨1, fun fuel hf => ?_⟩
  obtain ⟨fuel, rfl⟩ : ∃ k, fuel = k + 1 := ⟨fuel - 1, by omega⟩
  simp only [exec, hs]

theorem EndsIn.halted_none {s : σ} (hs : step s = none) : EndsIn step handler none s s := by
  refine ⟨1, fun fuel hf => ?_⟩
  obtain ⟨fuel, rfl⟩ : ∃ k, fuel = k + 1 := ⟨fuel - 1, by omega⟩
  simp only [exec, hs]

namespace Certificate

variable {Inv : Bool → σ → Prop} {μ : σ → ℕ}

/-- A simulation by a counter. Every state it relates has halted or advances, and the
handler, which neither halts a program nor wakes it, keeps it. -/
theorem of_simulation {Sim : ℕ → σ → Prop} {halted : σ → Prop}
    (hhalt : ∀ s, step s = none ↔ halted s) (hhandler : ∀ s, halted s → halted (handler s))
    (hadv : ∀ n s, Sim n s →
      halted s ∨ ∃ s' n', step s = some s' ∧ Sim n' s' ∧ μ s' < μ s)
    (hsim : ∀ n s, Sim n s → Sim n (handler s)) :
    Certificate step handler (fun _ s => ∃ n, Sim n s) μ := by
  have hadvances : ∀ n s s', Sim n s → step s = some s' → (∃ n', Sim n' s') ∧ μ s' < μ s := by
    intro n s s' hs hstep
    rcases hadv n s hs with hh | ⟨s₁, n', hstep', hs', hlt⟩
    · rw [(hhalt s).mpr hh] at hstep
      cases hstep
    · rw [hstep] at hstep'
      cases hstep'
      exact ⟨⟨n', hs'⟩, hlt⟩
  constructor
  · intro _ s s' ⟨n, hs⟩ hstep
    exact (hadvances n s s' hs hstep).1
  · intro _ s s' ⟨n, hs⟩ hstep
    exact (hadvances n s s' hs hstep).2
  · intro s ⟨n, hs⟩
    exact ⟨n, hsim n s hs⟩
  · intro s h
    exact (hhalt _).mpr (hhandler s ((hhalt s).mp h))

/-- Without further interruption the program halts in the invariant. -/
theorem exec_uninterrupted (c : Certificate step handler Inv μ) (b : Bool) (s : σ)
    (hs : Inv b s) : ∃ s', EndsIn step handler none s s' ∧ Inv b s' ∧ step s' = none := by
  induction hn : μ s using Nat.strong_induction_on generalizing s with
  | _ n ih =>
    subst hn
    cases h : step s with
    | none => exact ⟨s, .halted_none h, hs, h⟩
    | some s₁ =>
      obtain ⟨s', he, hi, hh⟩ :=
        ih (μ s₁) (c.measure_lt b s s₁ hs h) s₁ (c.step_inv b s s₁ hs h) rfl
      exact ⟨s', .step_none h he, hi, hh⟩

/-- **Every moment of interruption.** Whenever the handler arrives, and also when
it never does, the program halts in the invariant. -/
theorem exec_total (c : Certificate step handler Inv μ) (t : Option ℕ) (s : σ)
    (hs : Inv false s) :
    ∃ s', EndsIn step handler t s s' ∧ Inv t.isSome s' ∧ step s' = none := by
  cases t with
  | none => exact c.exec_uninterrupted false s hs
  | some t =>
    induction t generalizing s with
    | zero =>
      obtain ⟨s', he, hi, hh⟩ := c.exec_uninterrupted true (handler s) (c.handler_inv s hs)
      exact ⟨s', he.interrupt, hi, hh⟩
    | succ t ih =>
      cases h : step s with
      | none => exact ⟨handler s, .halted_some h, c.handler_inv s hs, c.handler_halted s h⟩
      | some s₁ =>
        obtain ⟨s', he, hi, hh⟩ := ih s₁ (c.step_inv false s s₁ hs h)
        exact ⟨s', .step_some h he, hi, hh⟩

end Certificate
end Spork.Interrupt
