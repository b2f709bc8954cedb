import Mathlib.Data.List.Nodup
import Mathlib.Logic.Function.Basic
import Mathlib.Tactic.Common

/-!
# Static single assignment

Code is instructions in blocks, entered at one block. The phis of a block are executed on the way
into it, the other instructions one after the other. An instruction dominates a place if it has
been executed on every way there.

Where definitions dominate their uses, an instruction is not executed again as long as anything
that was computed from it can be used: what an instruction says about its operands stays true at
every place it dominates.

## Main definitions

* `Region`, `Place` — the code, and where a run of it is.
* `Region.Reach`, `Region.Dominates`, `Region.Precedes` — the ways to a place.
* `Region.not_dominates` — an instruction is not executed between another and its uses.
* `Region.Equations.Consistent` — the equations of the instructions that dominate a place.
* `Region.Agrees` — two runs that have come to the same place.
-/
namespace Spork.SSA

variable {B I V : Type}

/-- Instructions in blocks, each of which stands in one place. -/
structure Region (B I : Type) where
  entry : B
  phis : B → List I
  insts : B → List I
  /-- The edges between blocks. -/
  next : B → B → Prop
  parent : I → B
  parent_eq : ∀ b, ∀ i ∈ phis b ++ insts b, parent i = b
  nodup : ∀ b, (phis b ++ insts b).Nodup

/-- A place in a block, with the instructions that are left. -/
structure Place (B I : Type) where
  block : B
  rest : List I

namespace Region

variable (G : Region B I)

/-- The ways to a place, each with what has been executed, the latest first. -/
inductive Reach : List I → Place B I → Prop
  | entry : Reach (G.phis G.entry) ⟨G.entry, G.insts G.entry⟩
  | inst {σ : List I} {b : B} {i : I} {rest : List I} (h : Reach σ ⟨b, i :: rest⟩) :
      Reach (i :: σ) ⟨b, rest⟩
  | edge {σ : List I} {b t : B} (h : Reach σ ⟨b, []⟩) (hnext : G.next b t) :
      Reach (G.phis t ++ σ) ⟨t, G.insts t⟩

/-- Executed on every way to the place. -/
def Dominates (c : I) (p : Place B I) : Prop := ∀ σ, G.Reach σ p → c ∈ σ

/-- Executed on every way to the other instruction. -/
def Precedes (d c : I) : Prop := ∀ b rest, G.Dominates d ⟨b, c :: rest⟩

/-- Executed on some way. -/
def Occurs (i : I) : Prop := ∃ σ p, G.Reach σ p ∧ i ∈ σ

/-- The place that an instruction has just been executed at. -/
def After (i : I) (p : Place B I) : Prop :=
  i ∈ G.phis p.block ∧ p.rest = G.insts p.block ∨ i :: p.rest <:+ G.insts p.block

variable {G}

/-! ## Places -/

theorem parent_phi {b : B} {i : I} (h : i ∈ G.phis b) : G.parent i = b :=
  G.parent_eq b i (List.mem_append_left _ h)

theorem parent_inst {b : B} {i : I} (h : i ∈ G.insts b) : G.parent i = b :=
  G.parent_eq b i (List.mem_append_right _ h)

theorem insts_nodup (b : B) : (G.insts b).Nodup := (List.nodup_append.mp (G.nodup b)).2.1

/-- A phi is no other instruction. -/
theorem not_mem_insts {b b' : B} {i : I} (h : i ∈ G.phis b) : i ∉ G.insts b' := by
  intro h'
  obtain rfl : b = b' := (parent_phi h).symm.trans (parent_inst h')
  exact (List.nodup_append.mp (G.nodup b)).2.2 i h i h' rfl

theorem rest_eq {l r r' : List I} {i : I} (hl : l.Nodup) (h : i :: r <:+ l) (h' : i :: r' <:+ l) :
    r = r' := by
  rcases List.suffix_or_suffix_of_suffix h h' with hs | hs
  · rcases List.suffix_cons_iff.mp hs with heq | hr
    · exact (List.cons.inj heq).2
    · exact absurd (hr.mem List.mem_cons_self) (List.nodup_cons.mp (hl.sublist h'.sublist)).1
  · rcases List.suffix_cons_iff.mp hs with heq | hr
    · exact (List.cons.inj heq).2.symm
    · exact absurd (hr.mem List.mem_cons_self) (List.nodup_cons.mp (hl.sublist h.sublist)).1

theorem After.unique {i : I} {p p' : Place B I} (h : G.After i p) (h' : G.After i p') : p = p' := by
  obtain ⟨b, rest⟩ := p
  obtain ⟨b', rest'⟩ := p'
  have hparent : ∀ {p : Place B I}, G.After i p → G.parent i = p.block := by
    rintro p (⟨hphi, -⟩ | hinst)
    · exact parent_phi hphi
    · exact parent_inst (hinst.mem List.mem_cons_self)
  obtain rfl : b = b' := (hparent h).symm.trans (hparent h')
  congr 1
  rcases h with ⟨hphi, hrest⟩ | hinst <;> rcases h' with ⟨hphi', hrest'⟩ | hinst'
  · exact hrest.trans hrest'.symm
  · exact absurd (hinst'.mem List.mem_cons_self) (not_mem_insts hphi)
  · exact absurd (hinst.mem List.mem_cons_self) (not_mem_insts hphi')
  · exact rest_eq (insts_nodup b) hinst hinst'

/-! ## Ways -/

theorem Reach.suffix {σ : List I} {p : Place B I} (h : G.Reach σ p) :
    p.rest <:+ G.insts p.block := by
  induction h with
  | entry => exact List.suffix_refl _
  | inst _ ih => exact (List.suffix_cons _ _).trans ih
  | edge _ _ _ => exact List.suffix_refl _

/-- What has been executed of the block. -/
theorem Reach.executed {σ : List I} {p : Place B I} (h : G.Reach σ p) {c : I}
    (hc : c ∈ G.phis p.block ++ G.insts p.block) (hrest : c ∉ p.rest) : c ∈ σ := by
  induction h with
  | entry =>
    rcases List.mem_append.mp hc with hphi | hinst
    · exact hphi
    · exact absurd hinst hrest
  | @inst σ b i rest h ih =>
    by_cases hci : c = i
    · exact hci ▸ List.mem_cons_self
    · exact List.mem_cons_of_mem _ (ih hc (by simp [hci, hrest]))
  | edge _ _ _ =>
    rcases List.mem_append.mp hc with hphi | hinst
    · exact List.mem_append_left _ hphi
    · exact absurd hinst hrest

/-- When an instruction was executed. -/
theorem Reach.after {σ : List I} {p : Place B I} (h : G.Reach σ p) {i : I} (hi : i ∈ σ) :
    ∃ σ' p', G.Reach σ' p' ∧ G.After i p' ∧ σ' <:+ σ := by
  induction h with
  | entry => exact ⟨_, _, .entry, .inl ⟨hi, rfl⟩, List.suffix_refl _⟩
  | @inst σ b j rest h ih =>
    rcases List.mem_cons.mp hi with rfl | hi
    · exact ⟨_, _, .inst h, .inr h.suffix, List.suffix_refl _⟩
    · obtain ⟨σ', p', hreach, hafter, hsuffix⟩ := ih hi
      exact ⟨σ', p', hreach, hafter, hsuffix.trans (List.suffix_cons _ _)⟩
  | @edge σ b t h hnext ih =>
    rcases List.mem_append.mp hi with hphi | hi
    · exact ⟨_, _, .edge h hnext, .inl ⟨hphi, rfl⟩, List.suffix_refl _⟩
    · obtain ⟨σ', p', hreach, hafter, hsuffix⟩ := ih hi
      exact ⟨σ', p', hreach, hafter, hsuffix.trans (List.suffix_append _ _)⟩

/-- When an instruction was about to be executed. -/
theorem Reach.before {σ : List I} {p : Place B I} (h : G.Reach σ p) {c : I} (hc : c ∈ σ)
    (hphi : ∀ b, c ∉ G.phis b) :
    ∃ σ' b rest, G.Reach σ' ⟨b, c :: rest⟩ ∧ c :: σ' <:+ σ := by
  induction h with
  | entry => exact absurd hc (hphi _)
  | @inst σ b j rest h ih =>
    rcases List.mem_cons.mp hc with rfl | hc
    · exact ⟨σ, b, rest, h, List.suffix_refl _⟩
    · obtain ⟨σ', b', rest', hreach, hsuffix⟩ := ih hc
      exact ⟨σ', b', rest', hreach, hsuffix.trans (List.suffix_cons _ _)⟩
  | @edge σ b t h hnext ih =>
    obtain ⟨σ', b', rest', hreach, hsuffix⟩ := ih ((List.mem_append.mp hc).resolve_left (hphi t))
    exact ⟨σ', b', rest', hreach, hsuffix.trans (List.suffix_append _ _)⟩

/-! ## Dominance -/

/-- The instructions of a block dominate what follows them in it. -/
theorem dominates_of_executed {b : B} {rest : List I} {c : I}
    (hc : c ∈ G.phis b ++ G.insts b) (hrest : c ∉ rest) : G.Dominates c ⟨b, rest⟩ :=
  fun _ h => h.executed hc hrest

/-- An instruction precedes those that follow it in its block. -/
theorem precedes_of_mem [DecidableEq I] {b : B} {c d : I} (hc : c ∈ G.insts b)
    (hd : d ∈ G.phis b ++ (G.insts b).takeWhile (· ≠ c)) : G.Precedes d c := by
  intro b' rest σ h
  obtain rfl : b' = b :=
    (parent_inst (h.suffix.mem List.mem_cons_self)).symm.trans (parent_inst hc)
  obtain ⟨l, hinsts⟩ := h.suffix
  have hnodup := G.nodup b'
  rw [← hinsts, ← List.append_assoc, List.nodup_append] at hnodup
  have hl : (G.insts b').takeWhile (· ≠ c) = l := by
    have hne : ∀ i ∈ l, decide (i ≠ c) = true := fun i hi => decide_eq_true fun hic =>
      hnodup.2.2 i (List.mem_append_right _ hi) c List.mem_cons_self hic
    rw [← hinsts, List.takeWhile_append_of_pos hne, List.takeWhile_cons_of_neg (by simp),
      List.append_nil]
  rw [hl] at hd
  refine h.executed ?_ fun hr => hnodup.2.2 d hd d hr rfl
  rw [← hinsts, ← List.append_assoc]
  exact List.mem_append_left _ hd

theorem Dominates.of_inst {c i : I} {b : B} {rest : List I} (h : G.Dominates c ⟨b, rest⟩)
    (hne : c ≠ i) : G.Dominates c ⟨b, i :: rest⟩ := fun σ hσ =>
  (List.mem_cons.mp (h (i :: σ) (.inst hσ))).resolve_left hne

theorem Dominates.of_edge {c : I} {b t : B} (h : G.Dominates c ⟨t, G.insts t⟩)
    (hnext : G.next b t) (hne : c ∉ G.phis t) : G.Dominates c ⟨b, []⟩ := fun σ hσ =>
  (List.mem_append.mp (h (G.phis t ++ σ) (.edge hσ hnext))).resolve_left hne

theorem Dominates.occurs {c : I} {σ : List I} {p : Place B I} (h : G.Dominates c p)
    (hreach : G.Reach σ p) : G.Occurs c := ⟨σ, p, hreach, h σ hreach⟩

theorem Precedes.dominates {d c : I} {p : Place B I} (h : G.Precedes d c) (hc : G.Dominates c p)
    (hphi : ∀ b, c ∉ G.phis b) : G.Dominates d p := by
  intro σ hσ
  obtain ⟨σ', b, rest, hreach, hsuffix⟩ := hσ.before (hc σ hσ) hphi
  exact hsuffix.mem (List.mem_cons_of_mem _ (h b rest σ' hreach))

/-- **An instruction is not executed again** where one that it precedes dominates. -/
theorem not_dominates {i c : I} {σ : List I} {p : Place B I} (hreach : G.Reach σ p)
    (hafter : G.After i p) (hprec : G.Precedes i c) (hphi : ∀ b, c ∉ G.phis b) :
    ¬ G.Dominates c p := by
  intro hdom
  -- the shortest way to the place goes through the other one, and through the place before that
  induction hn : σ.length using Nat.strongRecOn generalizing σ with
  | _ n ih =>
    obtain ⟨σ', b, rest, hc, hsuffix⟩ := hreach.before (hdom σ hreach) hphi
    obtain ⟨σ'', p', hi, hafter', hsuffix'⟩ := hc.after (hprec b rest σ' hc)
    obtain rfl : p' = p := hafter'.unique hafter
    have h₁ := hsuffix.length_le
    have h₂ := hsuffix'.length_le
    rw [List.length_cons] at h₁
    exact ih σ''.length (by omega) hi rfl

theorem Precedes.ne {d c : I} {σ : List I} {b : B} {rest : List I} (h : G.Precedes d c)
    (hreach : G.Reach σ ⟨b, c :: rest⟩) : d ≠ c := by
  rintro rfl
  have hd : d ∈ G.insts b := hreach.suffix.mem List.mem_cons_self
  refine not_dominates (.inst hreach) (.inr hreach.suffix) h
    (fun b' hphi => not_mem_insts hphi hd) (dominates_of_executed (List.mem_append_right _ hd) ?_)
  exact (List.nodup_cons.mp ((insts_nodup b).sublist hreach.suffix.sublist)).1

/-- What an instruction uses is not executed in the rest of its block. -/
theorem Precedes.not_mem {d c : I} {σ : List I} {b : B} {rest : List I} (h : G.Precedes d c)
    (hreach : G.Reach σ ⟨b, c :: rest⟩) : d ∉ rest := by
  intro hd
  obtain ⟨l, r, rfl⟩ := List.append_of_mem hd
  have hsuffix : c :: (l ++ d :: r) <:+ G.insts b := hreach.suffix
  -- the rest of the block is executed, up to the instruction
  have hwalk : ∀ l' σ, G.Reach σ ⟨b, l' ++ d :: r⟩ → ∃ σ', G.Reach σ' ⟨b, d :: r⟩ := by
    intro l'
    induction l' with
    | nil => exact fun σ hσ => ⟨σ, hσ⟩
    | cons j l' ih => exact fun σ hσ => ih _ (.inst hσ)
  obtain ⟨σ', hσ'⟩ := hwalk l _ (.inst hreach)
  have hnodup := (insts_nodup b).sublist hsuffix.sublist
  rw [List.nodup_cons] at hnodup
  have hc : c ∈ G.insts b := hsuffix.mem List.mem_cons_self
  refine not_dominates (.inst hσ') (.inr hσ'.suffix) h (fun b' hphi => not_mem_insts hphi hc) ?_
  refine dominates_of_executed (List.mem_append_right _ hc) fun hr => hnodup.1 ?_
  simp [hr]

/-! ## Equations -/

variable (G V) in
/-- What each instruction says about its value and those of the instructions it uses. -/
structure Equations where
  holds : I → (I → V) → Prop
  uses : I → I → Prop
  /-- Definitions dominate their uses. -/
  ssa : ∀ c d, uses c d → G.Occurs c → G.Occurs d → G.Precedes d c
  frame : ∀ c env env', (∀ d, d = c ∨ uses c d → env d = env' d) → holds c env → holds c env'

namespace Equations

variable (eqs : G.Equations V)

/-- The equations of what dominates a place hold there. The phis have none. -/
def Consistent (p : Place B I) (env : I → V) : Prop :=
  ∀ c, (∀ b, c ∉ G.phis b) → G.Dominates c p → eqs.holds c env

variable {eqs}

theorem consistent_entry (env : I → V) : eqs.Consistent ⟨G.entry, G.insts G.entry⟩ env :=
  fun _ hphi hdom => absurd (hdom _ .entry) (hphi _)

/-- One instruction is executed. -/
theorem Consistent.inst {σ : List I} {b : B} {i : I} {rest : List I} {env env' : I → V}
    (h : eqs.Consistent ⟨b, i :: rest⟩ env) (hreach : G.Reach σ ⟨b, i :: rest⟩)
    (henv : ∀ d, d ≠ i → env d = env' d) (hself : eqs.holds i env') :
    eqs.Consistent ⟨b, rest⟩ env' := by
  intro c hphi hdom
  by_cases hci : c = i
  · exact hci ▸ hself
  · have hdom' := hdom.of_inst hci
    refine eqs.frame c env env' (fun d hd => henv d ?_) (h c hphi hdom')
    rintro rfl
    rcases hd with rfl | huse
    · exact hci rfl
    · have hd : G.Occurs d := ⟨_, _, .inst hreach, List.mem_cons_self⟩
      exact not_dominates (.inst hreach) (.inr hreach.suffix)
        (eqs.ssa c d huse (hdom'.occurs hreach) hd) hphi hdom

/-- An edge is taken. -/
theorem Consistent.edge {σ : List I} {b t : B} {env env' : I → V}
    (h : eqs.Consistent ⟨b, []⟩ env) (hreach : G.Reach σ ⟨b, []⟩) (hnext : G.next b t)
    (henv : ∀ d, d ∉ G.phis t → env d = env' d) : eqs.Consistent ⟨t, G.insts t⟩ env' := by
  intro c hphi hdom
  have hdom' := hdom.of_edge hnext (hphi t)
  refine eqs.frame c env env' (fun d hd => henv d fun hphi' => ?_) (h c hphi hdom')
  rcases hd with rfl | huse
  · exact hphi t hphi'
  · have hd : G.Occurs d := ⟨_, _, .edge hreach hnext, List.mem_append_left _ hphi'⟩
    exact not_dominates (.edge hreach hnext) (.inl ⟨hphi', rfl⟩)
      (eqs.ssa c d huse (hdom'.occurs hreach) hd) hphi hdom

end Equations

/-! ## Two runs -/

variable (G) in
/-- Two runs agree on what dominates a place, except for some instructions. -/
def Agrees (E : I → Prop) (p : Place B I) (env env' : I → V) : Prop :=
  ∀ c, ¬ E c → G.Dominates c p → env c = env' c

section
variable {E : I → Prop} {env env' : I → V}

/-- One instruction is executed in both. -/
theorem Agrees.inst {b : B} {i : I} {rest : List I} {env₁ env₁' : I → V}
    (h : G.Agrees E ⟨b, i :: rest⟩ env env') (henv : ∀ d, d ≠ i → env₁ d = env d)
    (henv' : ∀ d, d ≠ i → env₁' d = env' d) (hself : ¬ E i → env₁ i = env₁' i) :
    G.Agrees E ⟨b, rest⟩ env₁ env₁' := by
  intro c hE hdom
  by_cases hci : c = i
  · exact hci ▸ hself (hci ▸ hE)
  · rw [henv c hci, henv' c hci, h c hE (hdom.of_inst hci)]

/-- An edge is taken in both. -/
theorem Agrees.edge {b t : B} {env₁ env₁' : I → V} (h : G.Agrees E ⟨b, []⟩ env env')
    (hnext : G.next b t) (henv : ∀ d, d ∉ G.phis t → env₁ d = env d)
    (henv' : ∀ d, d ∉ G.phis t → env₁' d = env' d)
    (hphis : ∀ d ∈ G.phis t, env₁ d = env₁' d) : G.Agrees E ⟨t, G.insts t⟩ env₁ env₁' := by
  intro c hE hdom
  by_cases hc : c ∈ G.phis t
  · exact hphis c hc
  · rw [henv c hc, henv' c hc, h c hE (hdom.of_edge hnext hc)]

end

end Region

end Spork.SSA
