import Mathlib.Data.List.Perm.Basic
import Mathlib.Data.Set.Basic
import Mathlib.Tactic.Common

/-!
# Fork-join programs over a shared memory

A program reads and writes cells of a shared memory, makes observable notes, and forks:
two programs run side by side and their results are joined. `step` performs one action
of one branch, so that a run is an interleaving; `eval` is the sequential reading, in
which the left branch of a fork runs to its end before the right one starts.

`Safe F p Q` bounds what a program may touch by a footprint, asks the branches of every
fork not to interfere, and constrains the result by `Q`. `Safe.allRuns` then says that
the schedule does not matter: every run of a safe program ends, in the result and the
memory of the sequential one and after the same actions in some order.

## Main definitions

* `Prog`, `Prog.bind` — the programs.
* `step`, `AllRuns` — one interleaved action, and total correctness over all schedules.
* `eval`, `Wp` — the sequential reading, as a function and as a specification.
* `Foot`, `Foot.Indep`, `Safe` — footprints, their independence, and safety.
* `Safe.allRuns` — every schedule agrees with the sequential reading.
-/
namespace Spork.ForkJoin

/-- An observable action: of the memory at a cell of `L`, or a note of `E`. -/
inductive Act (L E : Type)
  | read (l : L)
  | write (l : L)
  | note (e : E)
  deriving DecidableEq, Repr

/-- Programs on cells `L` holding values `V`, with notes `E`. `ub` has no behaviour. -/
inductive Prog (L V E : Type) : Type → Type 1
  | ret {A : Type} (a : A) : Prog L V E A
  | ub {A : Type} : Prog L V E A
  | rd {A : Type} (l : L) (k : V → Prog L V E A) : Prog L V E A
  | wr {A : Type} (l : L) (v : V) (k : Prog L V E A) : Prog L V E A
  | note {A : Type} (e : E) (k : Prog L V E A) : Prog L V E A
  | fork {A B C : Type} (p : Prog L V E B) (q : Prog L V E C) (k : B → C → Prog L V E A) :
      Prog L V E A

variable {L V E : Type} {A B C : Type}

namespace Prog

/-- Sequencing. -/
def bind : Prog L V E A → (A → Prog L V E B) → Prog L V E B
  | ret a, f => f a
  | ub, _ => ub
  | rd l k, f => rd l fun v => (k v).bind f
  | wr l v k, f => wr l v (k.bind f)
  | note e k, f => note e (k.bind f)
  | fork p q k, f => fork p q fun b c => (k b c).bind f

instance : Monad (Prog L V E) where
  pure := ret
  bind := bind

@[simp] theorem pure_eq (a : A) : (pure a : Prog L V E A) = ret a := rfl
@[simp] theorem bind_eq (p : Prog L V E A) (f : A → Prog L V E B) : p >>= f = p.bind f := rfl

@[simp] theorem ret_bind (a : A) (f : A → Prog L V E B) : (ret a).bind f = f a := rfl

@[simp] theorem bind_ret (p : Prog L V E A) : p.bind ret = p := by
  induction p with
  | ret a => rfl
  | ub => rfl
  | rd l k ih => simp only [bind, ih]
  | wr l v k ih => simp only [bind, ih]
  | note e k ih => simp only [bind, ih]
  | fork p q k _ _ ih => simp only [bind, ih]

theorem bind_assoc (p : Prog L V E A) (f : A → Prog L V E B) (g : B → Prog L V E C) :
    (p.bind f).bind g = p.bind fun a => (f a).bind g := by
  induction p with
  | ret a => rfl
  | ub => rfl
  | rd l k ih => simp only [bind, ih]
  | wr l v k ih => simp only [bind, ih]
  | note e k ih => simp only [bind, ih]
  | fork p q k _ _ ih => simp only [bind, ih]

/-- The result of a program that has ended. -/
def value? : Prog L V E A → Option A
  | ret a => some a
  | _ => none

theorem value?_eq_some {p : Prog L V E A} {a : A} : p.value? = some a ↔ p = ret a := by
  cases p <;> simp [value?]

end Prog

open Prog

/-! ## Footprints -/

/-- The cells a program may write and may read, and the notes it may make. A cell that
may be written may be read as well. -/
structure Foot (L E : Type) where
  writes : Set L
  reads : Set L
  notes : Set E

namespace Foot

/-- The cells that matter to a program. -/
def cells (F : Foot L E) : Set L := F.writes ∪ F.reads

/-- Everything the one footprint allows, the other does. -/
structure Le (F G : Foot L E) : Prop where
  writes : F.writes ⊆ G.writes
  reads : F.reads ⊆ G.cells
  notes : F.notes ⊆ G.notes

/-- Neither program writes what matters to the other. -/
structure Indep (F G : Foot L E) : Prop where
  left : ∀ l ∈ F.writes, l ∉ G.cells
  right : ∀ l ∈ G.writes, l ∉ F.cells

theorem Le.refl (F : Foot L E) : F.Le F :=
  ⟨fun _ h => h, fun _ h => .inr h, fun _ h => h⟩

theorem Le.cells {F G : Foot L E} (h : F.Le G) : F.cells ⊆ G.cells := by
  rintro l (hl | hl)
  · exact .inl (h.writes hl)
  · exact h.reads hl

theorem Le.trans {F G H : Foot L E} (h₁ : F.Le G) (h₂ : G.Le H) : F.Le H :=
  ⟨fun _ h => h₂.writes (h₁.writes h), fun _ h => h₂.cells (h₁.reads h),
    fun _ h => h₂.notes (h₁.notes h)⟩

/-- What the members of a family may do between them. -/
def iUnion {ι : Type} (s : Set ι) (F : ι → Foot L E) : Foot L E where
  writes := {l | ∃ k ∈ s, l ∈ (F k).writes}
  reads := {l | ∃ k ∈ s, l ∈ (F k).reads}
  notes := {e | ∃ k ∈ s, e ∈ (F k).notes}

section
variable {ι : Type} {s t : Set ι} {F : ι → Foot L E}

theorem mem_cells_iUnion {l : L} : l ∈ (iUnion s F).cells ↔ ∃ k ∈ s, l ∈ (F k).cells := by
  constructor
  · rintro (⟨k, hk, hl⟩ | ⟨k, hk, hl⟩)
    · exact ⟨k, hk, .inl hl⟩
    · exact ⟨k, hk, .inr hl⟩
  · rintro ⟨k, hk, hl | hl⟩
    · exact .inl ⟨k, hk, hl⟩
    · exact .inr ⟨k, hk, hl⟩

theorem le_iUnion {k : ι} (hk : k ∈ s) : (F k).Le (iUnion s F) :=
  ⟨fun _ h => ⟨k, hk, h⟩, fun _ h => .inr ⟨k, hk, h⟩, fun _ h => ⟨k, hk, h⟩⟩

theorem iUnion_mono (h : s ⊆ t) : (iUnion s F).Le (iUnion t F) :=
  ⟨fun _ ⟨k, hk, hl⟩ => ⟨k, h hk, hl⟩, fun _ ⟨k, hk, hl⟩ => .inr ⟨k, h hk, hl⟩,
    fun _ ⟨k, hk, hl⟩ => ⟨k, h hk, hl⟩⟩

theorem iUnion_le {G : Foot L E} (h : ∀ k ∈ s, (F k).Le G) : (iUnion s F).Le G :=
  ⟨fun _ ⟨k, hk, hl⟩ => (h k hk).writes hl, fun _ ⟨k, hk, hl⟩ => (h k hk).reads hl,
    fun _ ⟨k, hk, hl⟩ => (h k hk).notes hl⟩

theorem iUnion_indep (h : ∀ k ∈ s, ∀ k' ∈ t, (F k).Indep (F k')) :
    (iUnion s F).Indep (iUnion t F) where
  left := by
    rintro l ⟨k, hk, hl⟩ hl'
    obtain ⟨k', hk', hl'⟩ := mem_cells_iUnion.mp hl'
    exact (h k hk k' hk').left l hl hl'
  right := by
    rintro l ⟨k', hk', hl'⟩ hl
    obtain ⟨k, hk, hl⟩ := mem_cells_iUnion.mp hl
    exact (h k hk k' hk').right l hl' hl

end

/-- The footprint allows the action. -/
def Allows (F : Foot L E) : Act L E → Prop
  | .read l => l ∈ F.cells
  | .write l => l ∈ F.writes
  | .note e => e ∈ F.notes

theorem Le.allows {F G : Foot L E} (h : F.Le G) {x : Act L E} (hx : F.Allows x) : G.Allows x := by
  cases x with
  | read l => exact h.cells hx
  | write l => exact h.writes hx
  | note e => exact h.notes hx

end Foot

/-- The program stays within the footprint, the branches of its forks do not interfere,
and its result satisfies `Q`. -/
def Safe : {A : Type} → Foot L E → Prog L V E A → (A → Prop) → Prop
  | _, _, .ret a, Q => Q a
  | _, _, .ub, _ => False
  | _, F, .rd l k, Q => l ∈ F.cells ∧ ∀ v, Safe F (k v) Q
  | _, F, .wr l _ k, Q => l ∈ F.writes ∧ Safe F k Q
  | _, F, .note e k, Q => e ∈ F.notes ∧ Safe F k Q
  | _, F, .fork p q k, Q => ∃ Fp Fq Qp Qq, Foot.Le Fp F ∧ Foot.Le Fq F ∧ Foot.Indep Fp Fq ∧
      Safe Fp p Qp ∧ Safe Fq q Qq ∧ ∀ b c, Qp b → Qq c → Safe F (k b c) Q

section
variable {F G : Foot L E} {Q Q' : A → Prop}

theorem Safe.mono {p : Prog L V E A} (h : Safe F p Q) (hF : F.Le G) (hQ : ∀ a, Q a → Q' a) :
    Safe G p Q' := by
  induction p generalizing F with
  | ret a => exact hQ a h
  | ub => exact h
  | rd l k ih => exact ⟨hF.cells h.1, fun v => ih v (h.2 v) hF hQ⟩
  | wr l v k ih => exact ⟨hF.writes h.1, ih h.2 hF hQ⟩
  | note e k ih => exact ⟨hF.notes h.1, ih h.2 hF hQ⟩
  | fork p q k _ _ ih =>
    obtain ⟨Fp, Fq, Qp, Qq, hp, hq, hi, hsp, hsq, hk⟩ := h
    exact ⟨Fp, Fq, Qp, Qq, hp.trans hF, hq.trans hF, hi, hsp, hsq,
      fun b c hb hc => ih b c (hk b c hb hc) hF hQ⟩

/-- The rule of sequencing. -/
theorem Safe.bind {p : Prog L V E B} {f : B → Prog L V E A} {R : B → Prop} (h : Safe F p R)
    (hf : ∀ b, R b → Safe F (f b) Q) : Safe F (p.bind f) Q := by
  induction p generalizing F with
  | ret b => exact hf b h
  | ub => exact h.elim
  | rd l k ih => exact ⟨h.1, fun v => ih v (h.2 v) hf⟩
  | wr l v k ih => exact ⟨h.1, ih h.2 hf⟩
  | note e k ih => exact ⟨h.1, ih h.2 hf⟩
  | fork p q k _ _ ih =>
    obtain ⟨Fp, Fq, Qp, Qq, hp, hq, hi, hsp, hsq, hk⟩ := h
    exact ⟨Fp, Fq, Qp, Qq, hp, hq, hi, hsp, hsq, fun b c hb hc => ih b c (hk b c hb hc) hf⟩

end

/-! ## Interleaved runs -/

/-- A branch of a fork. -/
inductive Side
  | left
  | right
  deriving DecidableEq, Repr

variable [DecidableEq L]

/-- One action of the branch that the path leads to, or the join of the fork there. -/
def step (m : L → V) : {A : Type} → Prog L V E A → List Side →
    Option ((L → V) × List (Act L E) × Prog L V E A)
  | _, ret _, _ => none
  | _, ub, _ => none
  | _, rd l k, [] => some (m, [.read l], k (m l))
  | _, rd _ _, _ :: _ => none
  | _, wr l v k, [] => some (Function.update m l v, [.write l], k)
  | _, wr _ _ _, _ :: _ => none
  | _, .note e k, [] => some (m, [.note e], k)
  | _, .note _ _, _ :: _ => none
  | _, fork p q k, [] =>
      match p.value?, q.value? with
      | some b, some c => some (m, [], k b c)
      | _, _ => none
  | _, fork p q k, .left :: π => (step m p π).map fun s => (s.1, s.2.1, fork s.2.2 q k)
  | _, fork p q k, .right :: π => (step m q π).map fun s => (s.1, s.2.1, fork p s.2.2 k)

/-- A join finds both values. -/
theorem step_join {p : Prog L V E B} {q : Prog L V E C} {k : B → C → Prog L V E A} {m m' : L → V}
    {t : List (Act L E)} {r : Prog L V E A} (h : step m (.fork p q k) [] = some (m', t, r)) :
    ∃ b c, p = .ret b ∧ q = .ret c ∧ m' = m ∧ t = [] ∧ r = k b c := by
  cases hpv : p.value? with
  | none => simp [step, hpv] at h
  | some b =>
    cases hqv : q.value? with
    | none => simp [step, hpv, hqv] at h
    | some c =>
      simp only [step, hpv, hqv] at h
      cases h
      exact ⟨b, c, value?_eq_some.mp hpv, value?_eq_some.mp hqv, rfl, rfl, rfl⟩

/-- Whatever is scheduled from here, the program ends, and it ends in `P`. -/
inductive AllRuns (P : A → (L → V) → List (Act L E) → Prop) :
    (L → V) → List (Act L E) → Prog L V E A → Prop
  | ret {a : A} {m : L → V} {tr : List (Act L E)} (h : P a m tr) : AllRuns P m tr (.ret a)
  | step {m : L → V} {tr : List (Act L E)} {p : Prog L V E A}
      (hstep : ∃ π, (step m p π).isSome)
      (hall : ∀ π m' t p', step m p π = some (m', t, p') → AllRuns P m' (tr ++ t) p') :
      AllRuns P m tr p

theorem AllRuns.mono {P P' : A → (L → V) → List (Act L E) → Prop} {m : L → V}
    {tr : List (Act L E)} {p : Prog L V E A} (h : AllRuns P m tr p)
    (hP : ∀ a m tr, P a m tr → P' a m tr) : AllRuns P' m tr p := by
  induction h with
  | ret h => exact .ret (hP _ _ _ h)
  | step hstep _ ih => exact .step hstep ih

/-! ## The sequential reading -/

/-- The left branch of a fork before the right one. -/
def eval : {A : Type} → Prog L V E A → (L → V) → Option (A × (L → V) × List (Act L E))
  | _, ret a, m => some (a, m, [])
  | _, ub, _ => none
  | _, rd l k, m => (eval (k (m l)) m).map fun r => (r.1, r.2.1, .read l :: r.2.2)
  | _, wr l v k, m =>
      (eval k (Function.update m l v)).map fun r => (r.1, r.2.1, .write l :: r.2.2)
  | _, .note e k, m => (eval k m).map fun r => (r.1, r.2.1, .note e :: r.2.2)
  | _, fork p q k, m =>
      (eval p m).bind fun rp =>
        (eval q rp.2.1).bind fun rq =>
          (eval (k rp.1 rq.1) rq.2.1).map fun r => (r.1, r.2.1, rp.2.2 ++ rq.2.2 ++ r.2.2)

/-- The sequential reading ends, and it ends in `Q`. -/
def Wp (p : Prog L V E A) (Q : A → (L → V) → List (Act L E) → Prop) (m : L → V) : Prop :=
  ∃ a m' tr, eval p m = some (a, m', tr) ∧ Q a m' tr

section
variable {Q : A → (L → V) → List (Act L E) → Prop} {m : L → V}

@[simp] theorem wp_ret {a : A} : Wp (.ret a) Q m ↔ Q a m [] := by
  constructor
  · rintro ⟨_, _, _, h, hq⟩
    cases h
    exact hq
  · exact fun hq => ⟨a, m, [], rfl, hq⟩

/-- The rule of a single action. -/
theorem wp_act {p k : Prog L V E A} {m₁ : L → V} {x : Act L E}
    (h : eval p m = (eval k m₁).map fun r => (r.1, r.2.1, x :: r.2.2)) :
    Wp p Q m ↔ Wp k (fun a m' tr => Q a m' (x :: tr)) m₁ := by
  simp only [Wp, h, Option.map_eq_some_iff]
  constructor
  · rintro ⟨_, _, _, ⟨r, hr, heq⟩, hq⟩
    cases heq
    exact ⟨_, _, _, hr, hq⟩
  · rintro ⟨a, m', tr, hr, hq⟩
    exact ⟨a, m', _, ⟨_, hr, rfl⟩, hq⟩

@[simp] theorem wp_rd {l : L} {k : V → Prog L V E A} :
    Wp (.rd l k) Q m ↔ Wp (k (m l)) (fun a m' tr => Q a m' (.read l :: tr)) m :=
  wp_act rfl

@[simp] theorem wp_wr {l : L} {v : V} {k : Prog L V E A} :
    Wp (.wr l v k) Q m ↔
      Wp k (fun a m' tr => Q a m' (.write l :: tr)) (Function.update m l v) :=
  wp_act rfl

@[simp] theorem wp_note {e : E} {k : Prog L V E A} :
    Wp (.note e k) Q m ↔ Wp k (fun a m' tr => Q a m' (.note e :: tr)) m :=
  wp_act rfl

@[simp] theorem wp_fork {p : Prog L V E B} {q : Prog L V E C} {k : B → C → Prog L V E A} :
    Wp (.fork p q k) Q m ↔
      Wp p (fun b m₁ t₁ => Wp q (fun c m₂ t₂ =>
        Wp (k b c) (fun a m₃ t₃ => Q a m₃ (t₁ ++ t₂ ++ t₃)) m₂) m₁) m := by
  simp only [Wp, eval, Option.bind_eq_some_iff, Option.map_eq_some_iff]
  constructor
  · rintro ⟨_, _, _, ⟨r₁, h₁, r₂, h₂, r₃, h₃, heq⟩, hq⟩
    cases heq
    exact ⟨_, _, _, h₁, _, _, _, h₂, _, _, _, h₃, hq⟩
  · rintro ⟨b, m₁, t₁, h₁, c, m₂, t₂, h₂, a, m₃, t₃, h₃, hq⟩
    exact ⟨a, m₃, _, ⟨_, h₁, _, h₂, _, h₃, rfl⟩, hq⟩

theorem Wp.mono {Q' : A → (L → V) → List (Act L E) → Prop} {p : Prog L V E A} (h : Wp p Q m)
    (hq : ∀ a m' tr, Q a m' tr → Q' a m' tr) : Wp p Q' m := by
  obtain ⟨a, m', tr, hr, h⟩ := h
  exact ⟨a, m', tr, hr, hq a m' tr h⟩

/-- The rule of sequencing. -/
@[simp] theorem wp_bind {p : Prog L V E B} {f : B → Prog L V E A} :
    Wp (p.bind f) Q m ↔
      Wp p (fun b m₁ t₁ => Wp (f b) (fun a m₂ t₂ => Q a m₂ (t₁ ++ t₂)) m₁) m := by
  induction p generalizing m Q with
  | ret b => simp [Prog.bind]
  | ub => simp [Prog.bind, Wp, eval]
  | rd l k ih => simp only [Prog.bind, wp_rd, ih, List.cons_append]
  | wr l v k ih => simp only [Prog.bind, wp_wr, ih, List.cons_append]
  | note e k ih => simp only [Prog.bind, wp_note, ih, List.cons_append]
  | fork p q k _ _ ih => simp only [Prog.bind, wp_fork, ih, List.append_assoc]

end

theorem eval_fork {p : Prog L V E B} {q : Prog L V E C} {k : B → C → Prog L V E A} {m mf : L → V}
    {a : A} {tr : List (Act L E)} :
    eval (.fork p q k) m = some (a, mf, tr) ↔
      ∃ b m₁ t₁ c m₂ t₂ t₃, eval p m = some (b, m₁, t₁) ∧ eval q m₁ = some (c, m₂, t₂) ∧
        eval (k b c) m₂ = some (a, mf, t₃) ∧ tr = t₁ ++ t₂ ++ t₃ := by
  simp only [eval, Option.bind_eq_some_iff, Option.map_eq_some_iff]
  constructor
  · rintro ⟨r₁, h₁, r₂, h₂, r₃, h₃, heq⟩
    cases heq
    exact ⟨_, _, _, _, _, _, _, h₁, h₂, h₃, rfl⟩
  · rintro ⟨b, m₁, t₁, c, m₂, t₂, t₃, h₁, h₂, h₃, rfl⟩
    exact ⟨_, h₁, _, h₂, _, h₃, rfl⟩

/-! ## Safe programs -/

section
variable {F : Foot L E} {Q : A → Prop}

/-- A safe program has a sequential reading, which changes only what it may write, does
only what it may do, and depends only on the cells that matter to it. -/
theorem Safe.eval_spec {p : Prog L V E A} (h : Safe F p Q) (m : L → V) :
    ∃ a m' tr, eval p m = some (a, m', tr) ∧ Q a ∧ (∀ l ∉ F.writes, m' l = m l) ∧
      (∀ x ∈ tr, F.Allows x) ∧
      ∀ m₁, (∀ l ∈ F.cells, m₁ l = m l) →
        ∃ m₁', eval p m₁ = some (a, m₁', tr) ∧ ∀ l, m₁ l = m l → m₁' l = m' l := by
  induction p generalizing F m with
  | ret a => exact ⟨a, m, [], rfl, h, fun _ _ => rfl, by simp, fun m₁ _ => ⟨m₁, rfl, fun _ => id⟩⟩
  | ub => exact h.elim
  | rd l k ih =>
    obtain ⟨a, m', tr, he, hq, hframe, htr, hdep⟩ := ih (m l) (h.2 (m l)) m
    refine ⟨a, m', .read l :: tr, by simp [eval, he], hq, hframe, ?_, fun m₁ hm => ?_⟩
    · simpa using ⟨h.1, htr⟩
    · obtain ⟨m₁', he', hm'⟩ := hdep m₁ hm
      exact ⟨m₁', by simp [eval, hm l h.1, he'], hm'⟩
  | wr l v k ih =>
    have hupdate : ∀ m₁ : L → V, ∀ l', m₁ l' = m l' →
        Function.update m₁ l v l' = Function.update m l v l' := by
      intro m₁ l' hl'
      by_cases heq : l' = l
      · subst heq; simp
      · simp only [Function.update_of_ne heq, hl']
    obtain ⟨a, m', tr, he, hq, hframe, htr, hdep⟩ := ih h.2 (Function.update m l v)
    refine ⟨a, m', .write l :: tr, by simp [eval, he], hq, fun l' hl' => ?_, ?_, fun m₁ hm => ?_⟩
    · rw [hframe l' hl', Function.update_of_ne fun heq => hl' (by rw [heq]; exact h.1)]
    · simpa using ⟨h.1, htr⟩
    · obtain ⟨m₁', he', hm'⟩ := hdep (Function.update m₁ l v) fun l' hl' =>
        hupdate m₁ l' (hm l' hl')
      exact ⟨m₁', by simp [eval, he'], fun l' hl' => hm' l' (hupdate m₁ l' hl')⟩
  | note e k ih =>
    obtain ⟨a, m', tr, he, hq, hframe, htr, hdep⟩ := ih h.2 m
    refine ⟨a, m', .note e :: tr, by simp [eval, he], hq, hframe, ?_, fun m₁ hm => ?_⟩
    · simpa using ⟨h.1, htr⟩
    · obtain ⟨m₁', he', hm'⟩ := hdep m₁ hm
      exact ⟨m₁', by simp [eval, he'], hm'⟩
  | fork p q k ihp ihq ihk =>
    obtain ⟨Fp, Fq, Qp, Qq, hp, hq, -, hsp, hsq, hk⟩ := h
    obtain ⟨b, m₁, t₁, he₁, hb, hframe₁, htr₁, hdep₁⟩ := ihp hsp m
    obtain ⟨c, m₂, t₂, he₂, hc, hframe₂, htr₂, hdep₂⟩ := ihq hsq m₁
    obtain ⟨a, m₃, t₃, he₃, ha, hframe₃, htr₃, hdep₃⟩ := ihk b c (hk b c hb hc) m₂
    refine ⟨a, m₃, t₁ ++ t₂ ++ t₃, by simp [eval, he₁, he₂, he₃], ha, fun l hl => ?_,
      fun x hx => ?_, fun n hn => ?_⟩
    · rw [hframe₃ l hl, hframe₂ l fun h => hl (hq.writes h), hframe₁ l fun h => hl (hp.writes h)]
    · simp only [List.mem_append] at hx
      rcases hx with (hx | hx) | hx
      · exact hp.allows (htr₁ x hx)
      · exact hq.allows (htr₂ x hx)
      · exact htr₃ x hx
    · -- the two readings agree on the cells of the whole fork all along
      obtain ⟨n₁, hn₁, hm₁⟩ := hdep₁ n fun l hl => hn l (hp.cells hl)
      obtain ⟨n₂, hn₂, hm₂⟩ := hdep₂ n₁ fun l hl => hm₁ l (hn l (hq.cells hl))
      obtain ⟨n₃, hn₃, hm₃⟩ := hdep₃ n₂ fun l hl => hm₂ l (hm₁ l (hn l hl))
      exact ⟨n₃, by simp [eval, hn₁, hn₂, hn₃], fun l hl => hm₃ l (hm₂ l (hm₁ l hl))⟩

section
variable {p : Prog L V E A} {m m' : L → V} {a : A} {tr : List (Act L E)}

theorem Safe.frame (h : Safe F p Q) (he : eval p m = some (a, m', tr)) :
    ∀ l ∉ F.writes, m' l = m l := by
  obtain ⟨_, _, _, he', -, hframe, -⟩ := h.eval_spec m
  rw [he] at he'
  cases he'
  exact hframe

theorem Safe.result (h : Safe F p Q) (he : eval p m = some (a, m', tr)) : Q a := by
  obtain ⟨_, _, _, he', hq, -⟩ := h.eval_spec m
  rw [he] at he'
  cases he'
  exact hq

theorem Safe.allows (h : Safe F p Q) (he : eval p m = some (a, m', tr)) :
    ∀ x ∈ tr, F.Allows x := by
  obtain ⟨_, _, _, he', -, -, htr, -⟩ := h.eval_spec m
  rw [he] at he'
  cases he'
  exact htr

/-- What safety adds to a specification. -/
theorem Safe.wp {P : A → (L → V) → List (Act L E) → Prop} (h : Safe F p Q) (hwp : Wp p P m) :
    Wp p (fun a m' tr => P a m' tr ∧ Q a ∧ ∀ l ∉ F.writes, m' l = m l) m := by
  obtain ⟨a, m', tr, he, hP⟩ := hwp
  exact ⟨a, m', tr, he, hP, h.result he, h.frame he⟩

theorem Safe.depends (h : Safe F p Q) (he : eval p m = some (a, m', tr)) {m₁ : L → V}
    (hm : ∀ l ∈ F.cells, m₁ l = m l) :
    ∃ m₁', eval p m₁ = some (a, m₁', tr) ∧ ∀ l, m₁ l = m l → m₁' l = m' l := by
  obtain ⟨_, _, _, he', -, -, -, hdep⟩ := h.eval_spec m
  rw [he] at he'
  cases he'
  exact hdep m₁ hm

end

/-- An action of the right branch may be brought forward over the whole left branch. -/
theorem Safe.commute {Fp Fq : Foot L E} {Qp : B → Prop} {Qq : C → Prop} {p : Prog L V E B}
    {q q' : Prog L V E C} (hp : Safe Fp p Qp) (hq : Safe Fq q Qq) (hq' : Safe Fq q' Qq)
    (hi : Fp.Indep Fq) {m m' m₁ m₂ : L → V} {b : B} {c : C} {t t₁ t₂ : List (Act L E)}
    (hframe : ∀ l ∉ Fq.writes, m' l = m l)
    (hstep : ∀ c mq tq, eval q m = some (c, mq, tq) →
      ∃ tq', eval q' m' = some (c, mq, tq') ∧ tq.Perm (t ++ tq'))
    (he₁ : eval p m = some (b, m₁, t₁)) (he₂ : eval q m₁ = some (c, m₂, t₂)) :
    ∃ m₁' t₂', eval p m' = some (b, m₁', t₁) ∧ eval q' m₁' = some (c, m₂, t₂') ∧
      t₂.Perm (t ++ t₂') := by
  have hcells : ∀ l ∈ Fp.cells, m' l = m l := fun l hl => hframe l fun hw => hi.right l hw hl
  obtain ⟨m₁', he₁', hm₁'⟩ := hp.depends he₁ hcells
  obtain ⟨mq, heq, hmq⟩ := hq.depends he₂ fun l hl =>
    (hp.frame he₁ l fun hw => hi.left l hw hl).symm
  obtain ⟨t₂', heq', hperm⟩ := hstep c mq t₂ heq
  obtain ⟨m₂', he₂', hm₂'⟩ := hq'.depends heq' fun l hl =>
    hp.frame he₁' l fun hw => hi.left l hw hl
  have hsame : m₂' = m₂ := by
    funext l
    by_cases hl : l ∈ Fq.writes
    · have hlp : l ∉ Fp.writes := fun hw => hi.left l hw (.inl hl)
      rw [hm₂' l (hp.frame he₁' l hlp), hmq l (hp.frame he₁ l hlp).symm]
    · rw [hq'.frame he₂' l hl, hm₁' l (hframe l hl), hq.frame he₂ l hl]
  subst hsame
  exact ⟨m₁', t₂', he₁', he₂', hperm⟩

/-- One action of a safe program leaves a safe program, changes only what the program may
write, and is an action of the sequential reading brought forward. -/
theorem Safe.step_spec {p p' : Prog L V E A} (h : Safe F p Q) {m m' : L → V} {π : List Side}
    {t : List (Act L E)} (hstep : step m p π = some (m', t, p')) :
    Safe F p' Q ∧ (∀ l ∉ F.writes, m' l = m l) ∧
      ∀ a mf tr, eval p m = some (a, mf, tr) →
        ∃ tr', eval p' m' = some (a, mf, tr') ∧ tr.Perm (t ++ tr') := by
  induction p generalizing F m m' π t with
  | ret a => cases hstep
  | ub => cases hstep
  | rd l k _ =>
    cases π with
    | cons x π => cases hstep
    | nil =>
      cases hstep
      refine ⟨h.2 _, fun _ _ => rfl, fun a mf tr he => ?_⟩
      obtain ⟨⟨a', mf', tr'⟩, hr, heq⟩ := Option.map_eq_some_iff.mp he
      cases heq
      exact ⟨tr', hr, .refl _⟩
  | wr l v k _ =>
    cases π with
    | cons x π => cases hstep
    | nil =>
      cases hstep
      refine ⟨h.2, fun l' hl' => ?_, fun a mf tr he => ?_⟩
      · exact Function.update_of_ne (fun heq => hl' (by rw [heq]; exact h.1)) _ _
      · obtain ⟨⟨a', mf', tr'⟩, hr, heq⟩ := Option.map_eq_some_iff.mp he
        cases heq
        exact ⟨tr', hr, .refl _⟩
  | note e k _ =>
    cases π with
    | cons x π => cases hstep
    | nil =>
      cases hstep
      refine ⟨h.2, fun _ _ => rfl, fun a mf tr he => ?_⟩
      obtain ⟨⟨a', mf', tr'⟩, hr, heq⟩ := Option.map_eq_some_iff.mp he
      cases heq
      exact ⟨tr', hr, .refl _⟩
  | fork p q k ihp ihq _ =>
    obtain ⟨Fp, Fq, Qp, Qq, hp, hq, hi, hsp, hsq, hk⟩ := h
    match π with
    | [] =>
      -- the join
      obtain ⟨b, c, rfl, rfl, rfl, rfl, rfl⟩ := step_join hstep
      refine ⟨hk b c hsp hsq, fun _ _ => rfl, fun a mf tr he => ?_⟩
      obtain ⟨_, _, _, _, _, _, t₃, h₁, h₂, h₃, rfl⟩ := eval_fork.mp he
      cases h₁
      cases h₂
      exact ⟨t₃, h₃, .refl _⟩
    | .left :: π =>
      obtain ⟨⟨m₁, t₁, p₁⟩, hs, heq⟩ := Option.map_eq_some_iff.mp hstep
      cases heq
      obtain ⟨hsafe, hframe, heval⟩ := ihp hsp hs
      refine ⟨⟨Fp, Fq, Qp, Qq, hp, hq, hi, hsafe, hsq, hk⟩,
        fun l hl => hframe l fun hw => hl (hp.writes hw), fun a mf tr he => ?_⟩
      obtain ⟨b, n₁, u₁, c, n₂, u₂, u₃, h₁, h₂, h₃, rfl⟩ := eval_fork.mp he
      obtain ⟨u₁', h₁', hperm⟩ := heval b n₁ u₁ h₁
      refine ⟨u₁' ++ u₂ ++ u₃, eval_fork.mpr ⟨b, n₁, u₁', c, n₂, u₂, u₃, h₁', h₂, h₃, rfl⟩, ?_⟩
      simpa only [List.append_assoc] using hperm.append_right (u₂ ++ u₃)
    | .right :: π =>
      obtain ⟨⟨m₁, t₁, q₁⟩, hs, heq⟩ := Option.map_eq_some_iff.mp hstep
      cases heq
      obtain ⟨hsafe, hframe, heval⟩ := ihq hsq hs
      refine ⟨⟨Fp, Fq, Qp, Qq, hp, hq, hi, hsp, hsafe, hk⟩,
        fun l hl => hframe l fun hw => hl (hq.writes hw), fun a mf tr he => ?_⟩
      obtain ⟨b, n₁, u₁, c, n₂, u₂, u₃, h₁, h₂, h₃, rfl⟩ := eval_fork.mp he
      obtain ⟨n₁', u₂', h₁', h₂', hperm⟩ := hsp.commute hsq hsafe hi hframe heval h₁ h₂
      refine ⟨u₁ ++ u₂' ++ u₃, eval_fork.mpr ⟨b, n₁', u₁, c, n₂, u₂', u₃, h₁', h₂', h₃, rfl⟩, ?_⟩
      calc (u₁ ++ u₂ ++ u₃).Perm (u₁ ++ (t₁ ++ u₂') ++ u₃) :=
            (hperm.append_left u₁).append_right u₃
        _ = u₁ ++ t₁ ++ (u₂' ++ u₃) := by simp only [List.append_assoc]
        _ |>.Perm (t₁ ++ u₁ ++ (u₂' ++ u₃)) := List.perm_append_comm.append_right _
        _ = t₁ ++ (u₁ ++ u₂' ++ u₃) := by simp only [List.append_assoc]

/-- A safe program that has not ended can act. -/
theorem Safe.progress {p : Prog L V E A} (h : Safe F p Q) (m : L → V) :
    (∃ a, p = .ret a) ∨ ∃ π, (step m p π).isSome := by
  induction p generalizing F with
  | ret a => exact .inl ⟨a, rfl⟩
  | ub => exact h.elim
  | rd l k _ => exact .inr ⟨[], rfl⟩
  | wr l v k _ => exact .inr ⟨[], rfl⟩
  | note e k _ => exact .inr ⟨[], rfl⟩
  | fork p q k ihp ihq _ =>
    obtain ⟨Fp, Fq, Qp, Qq, -, -, -, hsp, hsq, -⟩ := h
    rcases ihp hsp with ⟨b, rfl⟩ | ⟨π, hπ⟩
    · rcases ihq hsq with ⟨c, rfl⟩ | ⟨π, hπ⟩
      · exact .inr ⟨[], rfl⟩
      · exact .inr ⟨.right :: π, by simpa [step] using hπ⟩
    · exact .inr ⟨.left :: π, by simpa [step] using hπ⟩

end

/-! ## Termination -/

/-- One action of `p`, from some memory, leaves `p'`. -/
def Next (p' p : Prog L V E A) : Prop := ∃ m π m' t, step m p π = some (m', t, p')

theorem acc_fork {p : Prog L V E B} {q : Prog L V E C} {k : B → C → Prog L V E A}
    (hp : Acc Next p) (hq : Acc Next q) (hk : ∀ b c, Acc Next (k b c)) :
    Acc Next (.fork p q k) := by
  induction hp generalizing q with
  | intro p _ ihp =>
    induction hq with
    | intro q hq ihq =>
      refine ⟨_, ?_⟩
      rintro r ⟨m, π, m', t, hstep⟩
      match π with
      | [] =>
        obtain ⟨b, c, -, -, -, -, rfl⟩ := step_join hstep
        exact hk b c
      | .left :: π =>
        obtain ⟨⟨m₁, t₁, p₁⟩, hs, heq⟩ := Option.map_eq_some_iff.mp hstep
        cases heq
        exact ihp p₁ ⟨m, π, m₁, t₁, hs⟩ ⟨q, hq⟩
      | .right :: π =>
        obtain ⟨⟨m₁, t₁, q₁⟩, hs, heq⟩ := Option.map_eq_some_iff.mp hstep
        cases heq
        exact ihq q₁ ⟨m, π, m₁, t₁, hs⟩

/-- Every run is finite. -/
theorem acc_next (p : Prog L V E A) : Acc Next p := by
  induction p with
  | ret a => exact ⟨_, fun _ ⟨_, _, _, _, h⟩ => nomatch h⟩
  | ub => exact ⟨_, fun _ ⟨_, _, _, _, h⟩ => nomatch h⟩
  | rd l k ih =>
    refine ⟨_, ?_⟩
    rintro r ⟨m, π, m', t, hstep⟩
    cases π <;> cases hstep
    exact ih _
  | wr l v k ih =>
    refine ⟨_, ?_⟩
    rintro r ⟨m, π, m', t, hstep⟩
    cases π <;> cases hstep
    exact ih
  | note e k ih =>
    refine ⟨_, ?_⟩
    rintro r ⟨m, π, m', t, hstep⟩
    cases π <;> cases hstep
    exact ih
  | fork p q k ihp ihq ihk => exact acc_fork ihp ihq ihk

section
variable {F : Foot L E} {Q : A → Prop}

theorem Safe.allRuns_of_eval {p : Prog L V E A} (h : Safe F p Q) {m mf : L → V} {a : A}
    {tr rest : List (Act L E)} (he : eval p m = some (a, mf, rest)) :
    AllRuns (fun a' m' tr' => a' = a ∧ m' = mf ∧ (tr ++ rest).Perm tr') m tr p := by
  induction acc_next p generalizing m tr rest with
  | intro p _ ih =>
    rcases h.progress m with ⟨a', rfl⟩ | hstep
    · cases he
      exact .ret ⟨rfl, rfl, by simp⟩
    · refine .step hstep fun π m' t p' hp' => ?_
      obtain ⟨hsafe, -, heval⟩ := h.step_spec hp'
      obtain ⟨rest', he', hperm⟩ := heval a mf rest he
      refine (ih p' ⟨m, π, m', t, hp'⟩ hsafe he').mono ?_
      rintro a' m'' tr' ⟨rfl, rfl, htr⟩
      refine ⟨rfl, rfl, ((hperm.append_left tr).trans ?_).trans htr⟩
      rw [List.append_assoc]

/-- **Every schedule agrees with the sequential reading.** Each run of a safe program
ends, with a result, a memory and, up to their order, the actions that the sequential
reading has. -/
theorem Safe.allRuns {p : Prog L V E A} (h : Safe F p Q) {m : L → V}
    {P : A → (L → V) → List (Act L E) → Prop} (hwp : Wp p P m) :
    AllRuns (fun a m' tr => ∃ tr₀, P a m' tr₀ ∧ tr₀.Perm tr) m [] p := by
  obtain ⟨a, mf, rest, he, hP⟩ := hwp
  refine (h.allRuns_of_eval he).mono ?_
  rintro a' m' tr ⟨rfl, rfl, hperm⟩
  exact ⟨rest, hP, by simpa using hperm⟩

end
/-! ## Jobs -/

section
omit [DecidableEq L]

/-- A job beside its owner if it is stolen, after it if it is taken back. -/
def spawn (stolen : Bool) (own : Prog L V E B) (job : Prog L V E C) : Prog L V E (B × C) :=
  if stolen then .fork own job fun b c => .ret (b, c)
  else own.bind fun b => job.bind fun c => .ret (b, c)

theorem Safe.spawn {F Fp Fq : Foot L E} {Qp : B → Prop} {Qq : C → Prop} {own : Prog L V E B}
    {job : Prog L V E C} (stolen : Bool) (hp : Safe Fp own Qp) (hq : Safe Fq job Qq)
    (hpF : Fp.Le F) (hqF : Fq.Le F) (hi : Fp.Indep Fq) :
    Safe F (spawn stolen own job) fun r => Qp r.1 ∧ Qq r.2 := by
  cases stolen with
  | true => exact ⟨Fp, Fq, Qp, Qq, hpF, hqF, hi, hp, hq, fun b c hb hc => ⟨hb, hc⟩⟩
  | false =>
    exact (hp.mono hpF fun _ => id).bind fun b hb =>
      (hq.mono hqF fun _ => id).bind fun c hc => ⟨hb, hc⟩

end

/-- Sequentially it makes no difference who runs the job. -/
@[simp] theorem wp_spawn {stolen : Bool} {own : Prog L V E B} {job : Prog L V E C}
    {Q : B × C → (L → V) → List (Act L E) → Prop} {m : L → V} :
    Wp (spawn stolen own job) Q m ↔
      Wp own (fun b m₁ t₁ => Wp job (fun c m₂ t₂ => Q (b, c) m₂ (t₁ ++ t₂)) m₁) m := by
  cases stolen <;> simp [spawn]

end Spork.ForkJoin
