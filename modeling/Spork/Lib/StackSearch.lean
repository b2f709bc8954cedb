import Mathlib.Data.List.Induction
import Mathlib.Data.List.Lex
import Mathlib.Data.Prod.Lex
import Mathlib.Tactic.Common

/-!
# Search with a stack

A search of an acyclic graph pops a node from a stack and goes through its successors. Those it
has not met yet are met, in this order, and pushed. A node is met from the first of its
predecessors that is popped, and which one that is can be said without the search: nodes are
popped in the order of their paths, a node before what is met from it and the later successors
before the earlier ones.

## Main definitions

* `Dag` — a graph that can be searched from its root.
* `Search`, `meet`, `Dag.Reached` — the search.
* `Dag.path`, `Dag.place` — the path to a node, and where it is met.
* `Dag.Ok` — the invariant of the search.
* `Dag.Reached.places` — nodes are met in the order of their places.
-/
namespace Spork.StackSearch

/-- A graph with ordered successors, from a root. -/
structure Dag (V : Type) where
  root : V
  succs : V → List V
  preds : V → List V
  rank : V → ℕ
  mem_preds : ∀ {p v}, p ∈ preds v ↔ v ∈ succs p
  rank_lt : ∀ {p v}, v ∈ succs p → rank p < rank v
  preds_root : preds root = []
  preds_ne : ∀ {p v}, v ∈ succs p → p ≠ root → preds p ≠ []

/-- The stack with its next node first, and the nodes met so far in order. -/
structure Search (V : Type) where
  stack : List V
  met : List V

/-- A sequence of positions. Prefixes come first, and later positions before earlier ones. -/
abbrev Path := List ℕᵒᵈ

/-- Where a node is met: the path of the node that is popped, and the position among its
successors. -/
abbrev Place := Path ×ₗ ℕ

/-- The path of what is met there. -/
def Place.onward (a : Place) : Path := (ofLex a).1 ++ [OrderDual.toDual (ofLex a).2]

variable {V : Type} [DecidableEq V]

/-- Meet a successor. -/
def meet (x : Search V) (v : V) : Search V :=
  if v ∈ x.met then x else ⟨v :: x.stack, x.met ++ [v]⟩

namespace Dag

variable (G : Dag V)

/-- The states of a search, with the nodes that have been popped. -/
inductive Reached : List V → Search V → Prop
  | init : Reached [] ⟨[G.root], []⟩
  | pop {done : List V} {x : Search V} {p : V} {rest : List V} (hx : Reached done x)
      (hstack : x.stack = p :: rest) :
      Reached (p :: done) ((G.succs p).foldl meet { x with stack := rest })

/-- The path to a node leads on from the least place at which it could be met. -/
def path (v : V) : Path :=
  ((G.preds v).attach.map fun p =>
    (toLex (path p.1, (G.succs p.1).idxOf v) : Place)).min?.elim [] Place.onward
termination_by G.rank v
decreasing_by exact G.rank_lt (G.mem_preds.mp p.2)

/-- Where `v` is met from `p`. -/
def placeFrom (v p : V) : Place := toLex (G.path p, (G.succs p).idxOf v)

/-- The least place at which a node could be met. -/
def place (v : V) : Place := ((G.preds v).map (G.placeFrom v)).min?.getD (toLex ([], 0))

variable {G} {x : Search V} {p q v : V}

theorem path_eq : G.path v = ((G.preds v).map (G.placeFrom v)).min?.elim [] Place.onward := by
  have hattach : ((G.preds v).attach.map fun p =>
      (toLex (G.path p.1, (G.succs p.1).idxOf v) : Place)) = (G.preds v).map (G.placeFrom v) :=
    List.attach_map_val (f := G.placeFrom v)
  rw [path, hattach]

/-- A node with predecessors is met from one of them, at the least place. -/
theorem place_spec (h : p ∈ G.preds v) :
    (∃ q ∈ G.preds v, G.place v = G.placeFrom v q) ∧ G.place v ≤ G.placeFrom v p ∧
      G.path v = (G.place v).onward := by
  obtain ⟨a, ha⟩ : ∃ a, ((G.preds v).map (G.placeFrom v)).min? = some a := by
    cases hm : ((G.preds v).map (G.placeFrom v)).min? with
    | some a => exact ⟨a, rfl⟩
    | none =>
      rw [List.min?_eq_none_iff, List.map_eq_nil_iff] at hm
      rw [hm] at h
      cases h
  have hplace : G.place v = a := by rw [place, ha, Option.getD_some]
  obtain ⟨hmem, hle⟩ := List.min?_eq_some_iff.mp ha
  obtain ⟨q, hq, rfl⟩ := List.mem_map.mp hmem
  rw [hplace]
  refine ⟨⟨q, hq, rfl⟩, hle _ (List.mem_map_of_mem h), ?_⟩
  rw [path_eq, ha]
  rfl

end Dag

/-! ## Paths -/

theorem path_append_lt {a b : Path} (h : a < b) (hpre : ¬ a <+: b) (c : Path) :
    a ++ c < b := by
  induction a generalizing b with
  | nil => exact absurd List.nil_prefix hpre
  | cons i a ih =>
    cases b with
    | nil => simp at h
    | cons j b =>
      rw [List.cons_append]
      rcases List.cons_lt_cons_iff.mp h with hlt | ⟨rfl, hlt⟩
      · exact List.cons_lt_cons_iff.mpr (.inl hlt)
      · have hnot : ¬ a <+: b := fun hp => hpre (List.prefix_cons_inj i |>.mpr hp)
        exact List.cons_lt_cons_iff.mpr (.inr ⟨rfl, ih hlt hnot⟩)

theorem path_lt_append (a : Path) (i : ℕᵒᵈ) (c : Path) : a < a ++ i :: c := by
  induction a with
  | nil => exact List.nil_lt_cons i c
  | cons j a ih => exact List.cons_lt_cons_iff.mpr (.inr ⟨rfl, ih⟩)

theorem path_later (a : Path) {i j : ℕ} (h : i < j) :
    a ++ [OrderDual.toDual j] < a ++ [OrderDual.toDual i] := by
  induction a with
  | nil => exact List.cons_lt_cons_iff.mpr (.inl h)
  | cons k a ih => exact List.cons_lt_cons_iff.mpr (.inr ⟨rfl, ih⟩)

/-! ## One pop -/

/-- What is met is met in the order of its first positions, and the last is on top. -/
theorem foldl_meet (l : List V) (x : Search V) :
    ∃ new, l.foldl meet x = ⟨new.reverse ++ x.stack, x.met ++ new⟩ ∧
      (∀ v, v ∈ new ↔ v ∈ l ∧ v ∉ x.met) ∧ new.Pairwise (fun a b => l.idxOf a < l.idxOf b) := by
  induction l using List.reverseRecOn with
  | nil => exact ⟨[], by simp, by simp, .nil⟩
  | append_singleton l u ih =>
    obtain ⟨new, hfold, hmem, hsorted⟩ := ih
    have hidx : ∀ a ∈ new, (l ++ [u]).idxOf a = l.idxOf a :=
      fun a ha => List.idxOf_append_of_mem ((hmem a).mp ha).1
    have hsorted' : new.Pairwise fun a b => (l ++ [u]).idxOf a < (l ++ [u]).idxOf b := by
      apply hsorted.imp_of_mem
      intro a b ha hb hab
      rw [hidx a ha, hidx b hb]
      exact hab
    rw [List.foldl_append, hfold, List.foldl_cons, List.foldl_nil, meet]
    by_cases hu : u ∈ x.met ++ new
    · refine ⟨new, by rw [if_pos hu], ?_, hsorted'⟩
      intro v
      rw [hmem v, List.mem_append, List.mem_singleton]
      constructor
      · exact fun h => ⟨.inl h.1, h.2⟩
      · rintro ⟨hv | rfl, hn⟩
        · exact ⟨hv, hn⟩
        · exact (hmem v).mp ((List.mem_append.mp hu).resolve_left hn)
    · obtain ⟨hmet, hnew⟩ : u ∉ x.met ∧ u ∉ new := by
        rw [← not_or, ← List.mem_append]
        exact hu
      have hul : u ∉ l := fun h => hnew ((hmem u).mpr ⟨h, hmet⟩)
      refine ⟨new ++ [u], by rw [if_neg hu]; simp, ?_, ?_⟩
      · intro v
        rw [List.mem_append, hmem v, List.mem_append, List.mem_singleton]
        constructor
        · rintro (h | rfl)
          · exact ⟨.inl h.1, h.2⟩
          · exact ⟨.inr rfl, hmet⟩
        · rintro ⟨hv | rfl, hn⟩
          · exact .inl ⟨hv, hn⟩
          · exact .inr rfl
      · refine List.pairwise_append.mpr ⟨hsorted', List.pairwise_singleton _ _, ?_⟩
        intro a ha b hb
        rw [List.mem_singleton.mp hb, hidx a ha, List.idxOf_append_of_notMem hul]
        have := List.idxOf_lt_length_of_mem ((hmem a).mp ha).1
        omega

namespace Dag

variable {G : Dag V} {x : Search V} {done : List V} {p v : V}

/-- The invariant of a search that has popped `done`. -/
structure Ok (G : Dag V) (done : List V) (x : Search V) : Prop where
  met : ∀ v, v ∈ x.met ↔ ∃ p ∈ done, v ∈ G.succs p
  stack : ∀ v, v ∈ x.stack ↔ (v = G.root ∨ v ∈ x.met) ∧ v ∉ done
  popped : ∀ p ∈ done, p = G.root ∨ p ∈ x.met
  sorted : (x.stack.map G.path).Pairwise fun a b => a < b ∧ ¬ a <+: b
  done_lt : ∀ d ∈ done, ∀ s ∈ x.stack, G.path d < G.path s
  parents : ∀ v ∈ x.met, ∃ d ∈ done, (ofLex (G.place v)).1 = G.path d
  places : (x.met.map G.place).Pairwise (· < ·)

theorem ok_init : Ok G [] ⟨[G.root], []⟩ where
  met := by simp
  stack := by simp
  popped := by simp
  sorted := List.pairwise_singleton _ _
  done_lt := by simp
  parents := by simp
  places := .nil

/-- Of the nodes that lead somewhere and have not been popped, the next one is first. -/
theorem Ok.path_lt (h : Ok G done x) {rest : List V} (hstack : x.stack = p :: rest) {q u : V}
    (hu : u ∈ G.succs q) (hq : q ∉ done) (hne : q ≠ p) : G.path p < G.path q := by
  induction hr : G.rank q using Nat.strong_induction_on generalizing q u with
  | _ n ih =>
    by_cases hmem : q ∈ x.stack
    · rw [hstack] at hmem
      have hsorted := h.sorted
      rw [hstack, List.map_cons] at hsorted
      have hrest : q ∈ rest := (List.mem_cons.mp hmem).resolve_left hne
      exact (List.rel_of_pairwise_cons hsorted (List.mem_map_of_mem hrest)).1
    · have hout : ¬ (q = G.root ∨ q ∈ x.met) := fun hq' => hmem ((h.stack q).mpr ⟨hq', hq⟩)
      obtain ⟨hroot, hmet⟩ := not_or.mp hout
      obtain ⟨q₀, hq₀⟩ := List.exists_mem_of_ne_nil _ (G.preds_ne hu hroot)
      obtain ⟨⟨q', hq', hplace⟩, -, hpath⟩ := place_spec hq₀
      have hsucc : q ∈ G.succs q' := G.mem_preds.mp hq'
      -- `q` will be met from `q'`, which has not been popped either
      have hq'done : q' ∉ done := fun hd => hmet ((h.met q).mpr ⟨q', hd, hsucc⟩)
      have hlt : G.path q' < G.path q := by
        rw [hpath, hplace]
        exact path_lt_append _ _ _
      by_cases heq : q' = p
      · rw [← heq]
        exact hlt
      · exact (ih _ (hr ▸ G.rank_lt hsucc) hsucc hq'done heq rfl).trans hlt

/-- What is met from the next node is met at its place. -/
theorem Ok.place_eq (h : Ok G done x) {rest : List V} (hstack : x.stack = p :: rest)
    (hv : v ∈ G.succs p) (hnew : v ∉ x.met) :
    G.place v = G.placeFrom v p ∧
      G.path v = G.path p ++ [OrderDual.toDual ((G.succs p).idxOf v)] := by
  obtain ⟨⟨q, hq, hplace⟩, hle, hpath⟩ := place_spec (G.mem_preds.mpr hv)
  have hsucc : v ∈ G.succs q := G.mem_preds.mp hq
  have hqdone : q ∉ done := fun hd => hnew ((h.met v).mpr ⟨q, hd, hsucc⟩)
  have heq : q = p := by
    by_contra hne
    have hlt : G.placeFrom v p < G.placeFrom v q :=
      Prod.Lex.toLex_lt_toLex.mpr (.inl (h.path_lt hstack hsucc hqdone hne))
    exact absurd (hplace ▸ hle) (not_le.mpr hlt)
  rw [hplace, heq] at hpath ⊢
  exact ⟨rfl, hpath⟩

section
variable {rest new : List V}

/-- What is on the stack after a pop. -/
theorem Ok.mem_stack (h : Ok G done x) (hstack : x.stack = p :: rest)
    (hmem : ∀ v, v ∈ new ↔ v ∈ G.succs p ∧ v ∉ x.met) (v : V) :
    v ∈ new.reverse ++ rest ↔ (v = G.root ∨ v ∈ x.met ++ new) ∧ v ∉ p :: done := by
  rw [List.mem_append, List.mem_reverse, List.mem_append, List.mem_cons, not_or]
  constructor
  · rintro (hv | hv)
    · obtain ⟨hsucc, hnot⟩ := (hmem v).mp hv
      have hroot : v ≠ G.root := by
        rintro rfl
        have := G.mem_preds.mpr hsucc
        rw [G.preds_root] at this
        cases this
      refine ⟨.inr (.inr hv), ?_, fun hd => (h.popped v hd).elim hroot hnot⟩
      rintro rfl
      exact absurd (G.rank_lt hsucc) (lt_irrefl _)
    · obtain ⟨hv', hvdone⟩ := (h.stack v).mp (hstack ▸ List.mem_cons_of_mem _ hv)
      refine ⟨hv'.imp_right .inl, ?_, hvdone⟩
      rintro rfl
      have hsorted := h.sorted
      rw [hstack, List.map_cons] at hsorted
      have hlt := (List.rel_of_pairwise_cons hsorted (List.mem_map_of_mem hv)).1
      exact absurd hlt (lt_irrefl _)
  · rintro ⟨hv, hvp, hvdone⟩
    have hold : v = G.root ∨ v ∈ x.met → v ∈ rest := by
      intro hv
      have hs := (h.stack v).mpr ⟨hv, hvdone⟩
      rw [hstack] at hs
      exact (List.mem_cons.mp hs).resolve_left hvp
    rcases hv with hv | hv | hv
    · exact .inr (hold (.inl hv))
    · exact .inr (hold (.inr hv))
    · exact .inl hv

/-- The stack after a pop is sorted: what is new continues the path of what was on top. -/
theorem Ok.sorted_pop (h : Ok G done x) (hstack : x.stack = p :: rest)
    (hpath : ∀ v ∈ new, G.path v = G.path p ++ [OrderDual.toDual ((G.succs p).idxOf v)])
    (hsorted : new.Pairwise fun a b => (G.succs p).idxOf a < (G.succs p).idxOf b) :
    ((new.reverse ++ rest).map G.path).Pairwise fun a b => a < b ∧ ¬ a <+: b := by
  have hold := h.sorted
  rw [hstack, List.map_cons] at hold
  obtain ⟨hfirst, hold⟩ := List.pairwise_cons.mp hold
  rw [List.map_append, List.map_reverse]
  refine List.pairwise_append.mpr ⟨?_, hold, ?_⟩
  · rw [List.pairwise_reverse, List.pairwise_map]
    apply hsorted.imp_of_mem
    intro a b ha hb hab
    rw [hpath a ha, hpath b hb]
    refine ⟨path_later _ hab, ?_⟩
    rw [List.prefix_append_right_inj]
    intro hpre
    have heq : (G.succs p).idxOf b = (G.succs p).idxOf a := by simpa using hpre
    omega
  · intro a ha b hb
    obtain ⟨v, hv, rfl⟩ := List.mem_map.mp (List.mem_reverse.mp ha)
    rw [hpath v hv]
    obtain ⟨hlt, hnot⟩ := hfirst b hb
    exact ⟨path_append_lt hlt hnot _, fun hpre => hnot ((List.prefix_append _ _).trans hpre)⟩

/-- A pop keeps the invariant. -/
theorem Ok.pop (h : Ok G done x) (hstack : x.stack = p :: rest) :
    Ok G (p :: done) ((G.succs p).foldl meet { x with stack := rest }) := by
  obtain ⟨new, hfold, hmem, hsorted⟩ := foldl_meet (G.succs p) { x with stack := rest }
  have hp : p ∈ x.stack := hstack ▸ List.mem_cons_self
  have hplace : ∀ v ∈ new, G.place v = G.placeFrom v p ∧
      G.path v = G.path p ++ [OrderDual.toDual ((G.succs p).idxOf v)] :=
    fun v hv => h.place_eq hstack ((hmem v).mp hv).1 ((hmem v).mp hv).2
  have hnext : ∀ s ∈ new.reverse ++ rest, G.path p < G.path s := by
    intro s hs
    rcases List.mem_append.mp hs with hs | hs
    · rw [(hplace s (List.mem_reverse.mp hs)).2]
      exact path_lt_append _ _ _
    · have hold := h.sorted
      rw [hstack, List.map_cons] at hold
      exact (List.rel_of_pairwise_cons hold (List.mem_map_of_mem hs)).1
  rw [hfold]
  refine ⟨?_, h.mem_stack hstack hmem, ?_,
    h.sorted_pop hstack (fun v hv => (hplace v hv).2) hsorted, ?_, ?_, ?_⟩
  · intro v
    have hmet : v ∈ x.met ++ new ↔ v ∈ x.met ∨ v ∈ G.succs p := by
      rw [List.mem_append, hmem v]
      by_cases hv : v ∈ x.met
      · simp [hv]
      · simp [hv]
    rw [hmet, h.met v]
    simp [or_comm]
  · intro q hq
    rcases List.mem_cons.mp hq with rfl | hq
    · exact ((h.stack q).mp hp).1.imp_right (List.mem_append_left _)
    · exact (h.popped q hq).imp_right (List.mem_append_left _)
  · intro d hd s hs
    rcases List.mem_cons.mp hd with rfl | hd
    · exact hnext s hs
    · exact (h.done_lt d hd p hp).trans (hnext s hs)
  · intro v hv
    rcases List.mem_append.mp hv with hv | hv
    · obtain ⟨d, hd, heq⟩ := h.parents v hv
      exact ⟨d, List.mem_cons_of_mem _ hd, heq⟩
    · refine ⟨p, List.mem_cons_self, ?_⟩
      rw [(hplace v hv).1]
      rfl
  · rw [List.map_append]
    refine List.pairwise_append.mpr ⟨h.places, ?_, ?_⟩
    · rw [List.pairwise_map]
      apply hsorted.imp_of_mem
      intro a b ha hb hab
      rw [(hplace a ha).1, (hplace b hb).1]
      exact Prod.Lex.toLex_lt_toLex.mpr (.inr ⟨rfl, hab⟩)
    · intro a ha b hb
      obtain ⟨v, hv, rfl⟩ := List.mem_map.mp ha
      obtain ⟨u, hu, rfl⟩ := List.mem_map.mp hb
      obtain ⟨d, hd, heq⟩ := h.parents v hv
      rw [(hplace u hu).1]
      refine Prod.Lex.lt_iff.mpr (.inl ?_)
      rw [heq]
      exact h.done_lt d hd p hp

end

theorem Reached.ok (h : G.Reached done x) : Ok G done x := by
  induction h with
  | init => exact ok_init
  | pop _ hstack ih => exact ih.pop hstack

/-- **Nodes are met in the order of their places.** -/
theorem Reached.places (h : G.Reached done x) : (x.met.map G.place).Pairwise (· < ·) :=
  h.ok.places

theorem Reached.nodup (h : G.Reached done x) : x.met.Nodup := by
  have hplaces := List.pairwise_map.mp h.places
  exact hplaces.imp fun hlt heq => absurd (heq ▸ hlt) (lt_irrefl _)

/-- Of two nodes the one with the smaller place is met first. -/
theorem Reached.idxOf_lt_iff (h : G.Reached done x) (hp : p ∈ x.met) (hv : v ∈ x.met) :
    x.met.idxOf p < x.met.idxOf v ↔ G.place p < G.place v := by
  have hplaces := List.pairwise_map.mp h.places
  have hlt : ∀ {a b}, a ∈ x.met → b ∈ x.met → x.met.idxOf a < x.met.idxOf b →
      G.place a < G.place b := by
    intro a b ha hb hab
    have hla := List.idxOf_lt_length_of_mem ha
    have hlb := List.idxOf_lt_length_of_mem hb
    have := List.pairwise_iff_getElem.mp hplaces _ _ hla hlb hab
    rwa [List.getElem_idxOf hla, List.getElem_idxOf hlb] at this
  refine ⟨hlt hp hv, fun hplace => ?_⟩
  rcases Nat.lt_trichotomy (x.met.idxOf p) (x.met.idxOf v) with h' | h' | h'
  · exact h'
  · rw [List.idxOf_inj hp] at h'
    exact absurd (h' ▸ hplace) (lt_irrefl _)
  · exact absurd (hlt hv hp h') (lt_asymm hplace)

/-- No node is popped twice. -/
theorem Reached.done_nodup (h : G.Reached done x) : done.Nodup := by
  induction h with
  | init => exact List.nodup_nil
  | pop hx hstack ih =>
    have hp := (hx.ok.stack _).mp (hstack ▸ List.mem_cons_self)
    exact List.nodup_cons.mpr ⟨hp.2, ih⟩

/-- What a search that has come to its end has popped. -/
theorem Reached.done_iff (h : G.Reached done x) (hstack : x.stack = []) :
    v ∈ done ↔ v = G.root ∨ v ∈ x.met := by
  refine ⟨h.ok.popped v, fun hv => ?_⟩
  by_contra hn
  have := (h.ok.stack v).mpr ⟨hv, hn⟩
  rw [hstack] at this
  cases this

end Dag

end Spork.StackSearch
