import Spork.Scheduler.SporkDeque

/-!
# The links of the spork deque

Between any two writes the `next` fields lead from `spork_deque_front` through the open
slots, outermost first, to the one whose `&next` is `spork_deque_back`, and every open slot
remembers in `prev` where the field lies that leads to it. What the last `next` field holds
does not matter, which is why a slot under construction may already be linked.

## Main definitions

* `Worker.Chain` — the links from one field to the back; `Chain.congr`, `Chain.snoc` and
  `Chain.pop` say what the writes do to it.
* `Worker.visits` — `promote_front` along a list of slots, and `promote_front_eq`.
* `Linked` — the invariant, and `Linked.step` the step lemma.
* `openSlots_followed` — the list at every micro-state.
-/
namespace Spork.Scheduler.SporkDeque

variable {A : Type} [DecidableEq A]

namespace Worker

/-! ## Chains -/

/-- The links from the field at `r` lead through the slots of a list to the back. -/
def Chain (x : Worker A) : NextAddr A → List A → Prop
  | r, [] => x.spork_deque_back = r
  | r, a :: l => x.load r = some a ∧ (x.slots a).prev = r ∧ Chain x (.slot a) l

variable {x y : Worker A} {r : NextAddr A} {l : List A} {a : A}

omit [DecidableEq A] in
/-- The back is the field of the last slot. -/
theorem Chain.back_mem (h : x.Chain r l) : x.spork_deque_back = r ∨
    ∃ a ∈ l, x.spork_deque_back = .slot a := by
  induction l generalizing r with
  | nil => exact .inl h
  | cons a l ih =>
    rcases ih h.2.2 with hb | ⟨b, hb, hback⟩
    · exact .inr ⟨a, List.mem_cons_self, hb⟩
    · exact .inr ⟨b, List.mem_cons_of_mem _ hb, hback⟩

omit [DecidableEq A] in
/-- A field that leads to a slot is not the back. -/
theorem Chain.ne_back (h : x.Chain r (a :: l))
    (hr : ∀ b ∈ a :: l, r ≠ .slot b) : r ≠ x.spork_deque_back := by
  intro hback
  rcases Chain.back_mem h.2.2 with hb | ⟨b, hb, hb'⟩
  · exact hr a List.mem_cons_self (hback.trans hb)
  · exact hr b (List.mem_cons_of_mem _ hb) (hback.trans hb')

omit [DecidableEq A] in
/-- Only the fields before the back, and the `prev` fields of the slots, matter. -/
theorem Chain.congr (h : x.Chain r l) (hnd : l.Nodup) (hr : ∀ b ∈ l, r ≠ .slot b)
    (hback : y.spork_deque_back = x.spork_deque_back)
    (hload : ∀ r', (r' = r ∨ ∃ a ∈ l, r' = .slot a) → r' ≠ x.spork_deque_back →
      y.load r' = x.load r')
    (hprev : ∀ a ∈ l, (y.slots a).prev = (x.slots a).prev) : y.Chain r l := by
  induction l generalizing r with
  | nil => exact hback.trans h
  | cons a l ih =>
    have hne := h.ne_back hr
    obtain ⟨h₁, h₂, h₃⟩ := h
    rw [List.nodup_cons] at hnd
    refine ⟨?_, ?_, ih h₃ hnd.2 ?_ ?_ ?_⟩
    · rw [hload r (.inl rfl) hne]
      exact h₁
    · rw [hprev a List.mem_cons_self]
      exact h₂
    · intro b hb heq
      injection heq with heq
      exact hnd.1 (heq ▸ hb)
    · intro r' hr' hne'
      apply hload r' _ hne'
      rcases hr' with hr' | ⟨b, hb, hr'⟩
      · exact .inr ⟨a, List.mem_cons_self, hr'⟩
      · exact .inr ⟨b, List.mem_cons_of_mem _ hb, hr'⟩
    · intro b hb
      exact hprev b (List.mem_cons_of_mem _ hb)

omit [DecidableEq A] in
/-- The commit of a slot that has been linked. -/
theorem Chain.snoc (h : x.Chain r l) (hlink : x.load x.spork_deque_back = some a)
    (hprev : (x.slots a).prev = x.spork_deque_back) :
    Chain { x with spork_deque_back := .slot a } r (l ++ [a]) := by
  induction l generalizing r with
  | nil =>
    have hr : x.spork_deque_back = r := h
    subst hr
    exact ⟨hlink, hprev, rfl⟩
  | cons b l ih => exact ⟨h.1, h.2.1, ih h.2.2⟩

omit [DecidableEq A] in
/-- The back pointer is reset to what the last slot remembers. -/
theorem Chain.pop (h : x.Chain r (l ++ [a])) :
    Chain { x with spork_deque_back := (x.slots a).prev } r l := by
  induction l generalizing r with
  | nil => exact h.2.1
  | cons b l ih => exact ⟨h.1, h.2.1, ih h.2.2⟩

/-- The walk along a chain visits its slots. -/
theorem Chain.follow_eq (h : x.Chain r l) (hnd : l.Nodup) (hr : ∀ b ∈ l, r ≠ .slot b) {fuel : ℕ}
    (hfuel : l.length < fuel) : x.follow fuel r = some l := by
  induction l generalizing r fuel with
  | nil =>
    obtain ⟨fuel, rfl⟩ : ∃ n, fuel = n + 1 := ⟨fuel - 1, by omega⟩
    have hback : r = x.spork_deque_back := Eq.symm h
    simp [follow, hback]
  | cons a l ih =>
    obtain ⟨fuel, rfl⟩ : ∃ n, fuel = n + 1 := ⟨fuel - 1, by omega⟩
    have hne := h.ne_back hr
    rw [List.nodup_cons] at hnd
    have hrest : x.follow fuel (.slot a) = some l := by
      apply ih h.2.2 hnd.2
      · intro b hb heq
        injection heq with heq
        exact hnd.1 (heq ▸ hb)
      · simpa using hfuel
    simp [follow, hne, h.1, hrest]

/-! ## The handler along a chain -/

variable (eff : Effect)

/-- `promote_front` along a list of slots: it stops when no token is left. -/
def visits : List A → Worker A → Worker A × List A
  | [], x => (x, [])
  | a :: l, x =>
      if x.heartbeat_tokens = 0 then (x, [])
      else
        let r := visits l (if (x.slots a).promoted then x else x.promote eff a)
        (r.1, a :: r.2)

theorem visits_cons (a : A) (l : List A) (x : Worker A) :
    visits eff (a :: l) x =
      if x.heartbeat_tokens = 0 then (x, [])
      else
        ((visits eff l (if (x.slots a).promoted then x else x.promote eff a)).1,
          a :: (visits eff l (if (x.slots a).promoted then x else x.promote eff a)).2) := rfl

/-- What is examined is a prefix. -/
theorem visits_prefix (l : List A) (x : Worker A) : (visits eff l x).2 <+: l := by
  induction l generalizing x with
  | nil => exact List.prefix_refl _
  | cons a l ih =>
    simp only [visits]
    split
    · exact List.nil_prefix
    · exact (List.prefix_cons_inj a).mpr (ih _)

/-- What every promotion on the way preserves. -/
theorem visits_induction {P : Worker A → Prop} (hx : P x)
    (hstep : ∀ y, ∀ a ∈ l, P y → y.heartbeat_tokens ≠ 0 → (y.slots a).promoted = false →
      P (y.promote eff a)) : P (visits eff l x).1 := by
  induction l generalizing x with
  | nil => exact hx
  | cons a l ih =>
    have hrest := fun y b hb => hstep y b (List.mem_cons_of_mem _ hb)
    simp only [visits]
    split
    · exact hx
    · next ht =>
      apply ih _ hrest
      split
      · exact hx
      · next hp => exact hstep x a List.mem_cons_self hx ht (by simpa using hp)

/-- A promotion writes no link. -/
theorem promote_links (x : Worker A) (a b : A) :
    ((x.promote eff a).slots b).next = (x.slots b).next ∧
      ((x.promote eff a).slots b).prev = (x.slots b).prev := by
  rw [promote, callProm, setSlot]
  by_cases hb : b = a
  · subst hb
    simp
  · simp [hb]

theorem promote_load (x : Worker A) (a : A) (r : NextAddr A) :
    (x.promote eff a).load r = x.load r := by
  cases r with
  | front => rfl
  | slot b => exact (promote_links eff x a b).1

theorem Chain.promote (h : x.Chain r l) (b : A) : (x.promote eff b).Chain r l := by
  induction l generalizing r with
  | nil => exact h
  | cons a l ih =>
    refine ⟨?_, ?_, ih h.2.2⟩
    · rw [promote_load]
      exact h.1
    · rw [(promote_links eff x b a).2]
      exact h.2.1

theorem promoteLoop_eq (h : x.Chain r (a :: l)) (hnd : (a :: l).Nodup) {fuel : ℕ}
    (hfuel : l.length + 1 < fuel) :
    promoteLoop eff fuel (x.load r) x = some (visits eff (a :: l) x) := by
  induction l generalizing x r a fuel with
  | nil =>
    obtain ⟨fuel, rfl⟩ : ∃ n, fuel = n + 1 := ⟨fuel - 1, by omega⟩
    simp only [promoteLoop, visits, h.1]
    split
    · rfl
    · set x' := if (x.slots a).promoted then x else x.promote eff a with hx'
      have hback : NextAddr.slot a = x'.spork_deque_back := by
        have hb : x.spork_deque_back = .slot a := h.2.2
        rw [hx']
        split <;> exact hb.symm
      simp only [if_pos hback]
  | cons b l ih =>
    obtain ⟨fuel, rfl⟩ : ∃ n, fuel = n + 1 := ⟨fuel - 1, by omega⟩
    rw [visits_cons, h.1]
    simp only [promoteLoop]
    split
    · rfl
    · set x' := if (x.slots a).promoted then x else x.promote eff a with hx'
      have hchain : x'.Chain (.slot a) (b :: l) := by
        rw [hx']
        split
        · exact h.2.2
        · exact h.2.2.promote eff a
      have hne : NextAddr.slot a ≠ x'.spork_deque_back := by
        apply hchain.ne_back
        intro c hc heq
        injection heq with heq
        exact (List.nodup_cons.mp hnd).1 (heq ▸ hc)
      have hfuel' : l.length + 1 < fuel := by
        simp at hfuel
        omega
      have hnext := ih hchain (List.nodup_cons.mp hnd).2 hfuel'
      have hload : x'.load (.slot a) = (x'.slots a).next := rfl
      rw [hload] at hnext
      simp only [if_neg hne, hnext, Option.map_some]

/-- `promote_front` terminates, and examines the chain from its start. -/
theorem promote_front_eq (h : x.Chain .front l) (hnd : l.Nodup) {fuel : ℕ}
    (hfuel : l.length < fuel) : x.promote_front eff fuel = some (visits eff l x) := by
  rw [promote_front]
  cases l with
  | nil =>
    have hback : NextAddr.front = x.spork_deque_back := Eq.symm h
    rw [if_pos hback, visits]
  | cons a l =>
    have hne : NextAddr.front ≠ x.spork_deque_back := h.ne_back (by simp)
    have hload : x.front = x.load .front := rfl
    rw [if_neg hne, hload]
    exact promoteLoop_eq eff h hnd hfuel

/-- More fuel changes no result. -/
theorem promoteLoop_mono {fuel fuel' : ℕ} (hle : fuel ≤ fuel') {slot : Option A}
    {res : Worker A × List A} (h : promoteLoop eff fuel slot x = some res) :
    promoteLoop eff fuel' slot x = some res := by
  induction fuel generalizing x slot fuel' res with
  | zero => cases h
  | succ fuel ih =>
    obtain ⟨n, rfl⟩ : ∃ n, fuel' = n + 1 := ⟨fuel' - 1, by omega⟩
    simp only [promoteLoop] at h ⊢
    split
    · next ht => rwa [if_pos ht] at h
    · next ht =>
      rw [if_neg ht] at h
      cases slot with
      | none => cases h
      | some a =>
        simp only at h ⊢
        generalize (if (x.slots a).promoted then x else x.promote eff a) = x' at h ⊢
        by_cases hb : .slot a = x'.spork_deque_back
        · rwa [if_pos hb] at h ⊢
        · rw [if_neg hb] at h ⊢
          obtain ⟨r, hr, hres⟩ := Option.map_eq_some_iff.mp h
          rw [ih (by omega) hr]
          exact congrArg some hres

/-- Whenever `promote_front` returns, it has examined the chain from its start. -/
theorem promote_front_some (h : x.Chain .front l) (hnd : l.Nodup) {fuel : ℕ}
    {res : Worker A × List A} (hres : x.promote_front eff fuel = some res) :
    res = visits eff l x := by
  have hmore : x.promote_front eff (fuel + l.length + 1) = some res := by
    rw [promote_front] at hres ⊢
    split
    · next hb => rwa [if_pos hb] at hres
    · next hb =>
      rw [if_neg hb] at hres
      exact promoteLoop_mono eff (by omega) hres
  rw [promote_front_eq eff h hnd (by omega)] at hmore
  exact (Option.some.inj hmore).symm

omit [DecidableEq A] in
/-- The innermost call is the last in the list, if its slot is open. -/
theorem openSlots_cons {f : Frame A} {rest : List (Frame A)} (hx : x.frames = f :: rest) :
    x.openSlots = openSlots { x with frames := rest } ++
      if f.pc.isOpen then [f.addr] else [] := by
  simp only [openSlots, hx, List.reverse_cons, List.filter_append, List.map_append]
  split <;> simp [*]

omit [DecidableEq A] in
theorem openSlots_sublist (x : Worker A) :
    x.openSlots.Sublist (x.frames.map Frame.addr).reverse := by
  rw [← List.map_reverse]
  exact List.filter_sublist.map _

omit [DecidableEq A] in
theorem openSlots_nodup (h : (x.frames.map Frame.addr).Nodup) : x.openSlots.Nodup :=
  (openSlots_sublist x).nodup (List.nodup_reverse.mpr h)

omit [DecidableEq A] in
theorem mem_openSlots {a : A} :
    a ∈ x.openSlots ↔ ∃ f ∈ x.frames, f.pc.isOpen = true ∧ f.addr = a := by
  simp [openSlots, and_assoc]

end Worker

/-! ## The invariant -/

open Spork.Scheduler.SporkDeque.Worker

/-- The slots that are open are linked, the addresses of all slots are distinct, and the call
that links its slot has remembered the back. -/
structure Linked (x : Worker A) : Prop where
  chain : x.Chain .front x.openSlots
  nodup : (x.frames.map Frame.addr).Nodup
  below : ∀ f ∈ x.frames.tail, f.pc = .body
  linking : ∀ f rest, x.frames = f :: rest → f.pc = .link →
    (x.slots f.addr).prev = x.spork_deque_back
  committing : ∀ f rest, x.frames = f :: rest → f.pc = .commit →
    (x.slots f.addr).prev = x.spork_deque_back ∧ x.load x.spork_deque_back = some f.addr

section
variable {x y : Worker A} {f : Frame A} {rest : List (Frame A)} {pc : Pc}

omit [DecidableEq A] in
theorem Linked.start (h : Start x) : Linked x := by
  have hopen : x.openSlots = [] := by simp [openSlots, h.frames]
  constructor
  · rw [hopen]
    exact h.back
  · simp [h.frames]
  · simp [h.frames]
  · intro f rest hx
    simp [h.frames] at hx
  · intro f rest hx
    simp [h.frames] at hx

omit [DecidableEq A] in
/-- A change of tokens, flags and log. -/
theorem Linked.same (h : Linked x) (hslots : ∀ a, (y.slots a).next = (x.slots a).next ∧
      (y.slots a).prev = (x.slots a).prev) (hfront : y.front = x.front)
    (hback : y.spork_deque_back = x.spork_deque_back) (hframes : y.frames = x.frames) :
    Linked y := by
  have hload : ∀ r, y.load r = x.load r := by
    intro r
    cases r with
    | front => exact hfront
    | slot a => exact (hslots a).1
  have hopen : y.openSlots = x.openSlots := by simp only [openSlots, hframes]
  constructor
  · rw [hopen]
    exact h.chain.congr (openSlots_nodup h.nodup) (by simp) hback (fun r _ _ => hload r)
      fun a _ => (hslots a).2
  · rw [hframes]
    exact h.nodup
  · rw [hframes]
    exact h.below
  · intro f rest hf hpc
    rw [(hslots _).2, hback]
    exact h.linking f rest (hframes ▸ hf) hpc
  · intro f rest hf hpc
    rw [(hslots _).2, hback, hload]
    exact h.committing f rest (hframes ▸ hf) hpc

omit [DecidableEq A] in
theorem nodup_goto (h : Linked x) (hx : x.frames = f :: rest)
    (hy : y.frames = { f with pc := pc } :: rest) : (y.frames.map Frame.addr).Nodup := by
  have hnd := h.nodup
  rw [hx] at hnd
  rw [hy]
  exact hnd

omit [DecidableEq A] in
/-- After a micro-step of the innermost call only the chain, and what the constructor has
remembered, are in question. -/
theorem Linked.of_chain (h : Linked x) (hx : x.frames = f :: rest)
    (hy : y.frames = { f with pc := pc } :: rest) (hchain : y.Chain .front y.openSlots)
    (hlink : pc = .link → (y.slots f.addr).prev = y.spork_deque_back)
    (hcommit : pc = .commit → (y.slots f.addr).prev = y.spork_deque_back ∧
      y.load y.spork_deque_back = some f.addr) : Linked y := by
  refine ⟨hchain, nodup_goto h hx hy, ?_, ?_, ?_⟩
  · have hbelow := h.below
    rw [hx] at hbelow
    rw [hy]
    exact hbelow
  · intro g rest' hg hpc
    rw [hy, List.cons.injEq] at hg
    obtain ⟨rfl, -⟩ := hg
    exact hlink hpc
  · intro g rest' hg hpc
    rw [hy, List.cons.injEq] at hg
    obtain ⟨rfl, -⟩ := hg
    exact hcommit hpc

omit [DecidableEq A] in
/-- The micro-steps that leave the slot as open as it was: they write to the slot of the
innermost call only while it is not open, and otherwise only to what lies past the back. -/
theorem Linked.goto (h : Linked x) (hx : x.frames = f :: rest)
    (hy : y.frames = { f with pc := pc } :: rest) (hopen : pc.isOpen = f.pc.isOpen)
    (hback : y.spork_deque_back = x.spork_deque_back)
    (hload : ∀ r, r ≠ x.spork_deque_back → (f.pc.isOpen = false → r ≠ .slot f.addr) →
      y.load r = x.load r)
    (hprev : ∀ a, (f.pc.isOpen = false → a ≠ f.addr) → (y.slots a).prev = (x.slots a).prev)
    (hlink : pc = .link → (y.slots f.addr).prev = y.spork_deque_back)
    (hcommit : pc = .commit → (y.slots f.addr).prev = y.spork_deque_back ∧
      y.load y.spork_deque_back = some f.addr) : Linked y := by
  have hsame : y.openSlots = x.openSlots := by
    have hrest : openSlots { y with frames := rest } = openSlots { x with frames := rest } := rfl
    rw [openSlots_cons hx, openSlots_cons hy, hrest, hopen]
  have hown : f.pc.isOpen = false → ∀ a ∈ x.openSlots, a ≠ f.addr := by
    intro hclosed a ha heq
    obtain ⟨g, hg, hgopen, rfl⟩ := mem_openSlots.mp ha
    rw [hx] at hg
    rcases List.mem_cons.mp hg with rfl | hg
    · simp [hclosed] at hgopen
    · have hnd := h.nodup
      rw [hx, List.map_cons, List.nodup_cons] at hnd
      exact hnd.1 (heq ▸ List.mem_map_of_mem hg)
  apply h.of_chain hx hy _ hlink hcommit
  rw [hsame]
  apply h.chain.congr (openSlots_nodup h.nodup) (by simp) hback
  · intro r hr hne
    apply hload r hne
    intro hclosed heq
    rcases hr with rfl | ⟨a, ha, rfl⟩
    · cases heq
    · injection heq with heq
      exact hown hclosed a ha heq
  · intro a ha
    exact hprev a fun hclosed => hown hclosed a ha

omit [DecidableEq A] in
/-- A commit: the back moves on to the slot that has been linked. -/
theorem Linked.commit (h : Linked x) (hx : x.frames = f :: rest) (hpc : f.pc = .commit)
    (hslots : y.slots = x.slots) (hfront : y.front = x.front)
    (hback : y.spork_deque_back = .slot f.addr)
    (hy : y.frames = { f with pc := .check } :: rest) : Linked y := by
  obtain ⟨hprev, hlink⟩ := h.committing f rest hx hpc
  have hopen : y.openSlots = x.openSlots ++ [f.addr] := by
    have hrest : openSlots { y with frames := rest } = openSlots { x with frames := rest } := rfl
    have hopen : Pc.check.isOpen = true := rfl
    have hclosed : Pc.commit.isOpen = false := rfl
    rw [openSlots_cons hx, openSlots_cons hy, hrest]
    simp [hpc, hopen, hclosed]
  apply h.of_chain hx hy _ (by simp) (by simp)
  have hsnoc := h.chain.snoc hlink hprev
  have hnodup := openSlots_nodup (nodup_goto h hx hy)
  rw [hopen] at hnodup ⊢
  apply hsnoc.congr hnodup (by simp) hback
  · intro r _ _
    cases r with
    | front => exact hfront
    | slot a => simp only [load, hslots]
  · intro a _
    rw [hslots]

omit [DecidableEq A] in
/-- `close` resets the back. -/
theorem Linked.reset (h : Linked x) (hx : x.frames = f :: rest) (hpc : f.pc = .reset)
    (hslots : y.slots = x.slots) (hfront : y.front = x.front)
    (hback : y.spork_deque_back = (x.slots f.addr).prev)
    (hy : y.frames = { f with pc := .result } :: rest) : Linked y := by
  have hopen : x.openSlots = y.openSlots ++ [f.addr] := by
    have hrest : openSlots { y with frames := rest } = openSlots { x with frames := rest } := rfl
    have hopen : Pc.reset.isOpen = true := rfl
    have hclosed : Pc.result.isOpen = false := rfl
    rw [openSlots_cons hx, openSlots_cons hy, hrest]
    simp [hpc, hopen, hclosed]
  apply h.of_chain hx hy _ (by simp) (by simp)
  have hchain := h.chain
  rw [hopen] at hchain
  apply hchain.pop.congr (openSlots_nodup (nodup_goto h hx hy)) (by simp) hback
  · intro r _ _
    cases r with
    | front => exact hfront
    | slot a => simp only [load, hslots]
  · intro a _
    rw [hslots]

theorem setSlot_load (x : Worker A) {a : A} {s : SporkSlot A} {r : NextAddr A}
    (h : r = .slot a → s.next = (x.slots a).next) : (x.setSlot a s).load r = x.load r := by
  cases r with
  | front => rfl
  | slot b =>
    by_cases hb : b = a
    · subst hb
      simpa [setSlot, load] using h rfl
    · simp [setSlot, load, hb]

theorem store_prev (x : Worker A) (r : NextAddr A) (p : Option A) (a : A) :
    ((x.store r p).slots a).prev = (x.slots a).prev := by
  cases r with
  | front => rfl
  | slot b =>
    by_cases hb : a = b
    · subst hb
      simp [store]
    · simp [store, hb]

theorem store_load (x : Worker A) (r : NextAddr A) (p : Option A) : (x.store r p).load r = p := by
  cases r <;> simp [store, load]

theorem store_load_ne (x : Worker A) {r r' : NextAddr A} (p : Option A) (h : r' ≠ r) :
    (x.store r p).load r' = x.load r' := by
  cases r with
  | front =>
    cases r' with
    | front => exact absurd rfl h
    | slot b => rfl
  | slot a =>
    cases r' with
    | front => rfl
    | slot b =>
      have hb : b ≠ a := fun hb => h (hb ▸ rfl)
      simp [store, load, hb]

@[simp] theorem store_back (x : Worker A) (r : NextAddr A) (p : Option A) :
    (x.store r p).spork_deque_back = x.spork_deque_back := by
  cases r <;> rfl

/-- A micro-step that sets a field of the slot without touching its links. -/
theorem Linked.setField (h : Linked x) (hx : x.frames = f :: rest) {s : SporkSlot A}
    (hnext : s.next = (x.slots f.addr).next) (hprev : s.prev = (x.slots f.addr).prev)
    (hopen : pc.isOpen = f.pc.isOpen) (hlink : pc ≠ .link) (hcommit : pc ≠ .commit) :
    Linked ((x.setSlot f.addr s).goto f rest pc) := by
  refine h.goto hx rfl hopen rfl ?_ ?_ ?_ ?_
  · intro r _ _
    exact setSlot_load x fun _ => hnext
  · intro a _
    by_cases ha : a = f.addr
    · subst ha
      simpa [setSlot, Worker.goto] using hprev
    · simp [setSlot, Worker.goto, ha]
  · intro hpc
    exact absurd hpc hlink
  · intro hpc
    exact absurd hpc hcommit

omit [DecidableEq A] in
/-- A micro-step that writes no slot. -/
theorem Linked.keep (h : Linked x) (hx : x.frames = f :: rest)
    (hy : y.frames = { f with pc := pc } :: rest) (hslots : y.slots = x.slots)
    (hfront : y.front = x.front) (hback : y.spork_deque_back = x.spork_deque_back)
    (hopen : pc.isOpen = f.pc.isOpen) (hlink : pc ≠ .link) (hcommit : pc ≠ .commit) :
    Linked y := by
  apply h.goto hx hy hopen hback
  · intro r _ _
    cases r with
    | front => exact hfront
    | slot a => simp only [load, hslots]
  · intro a _
    rw [hslots]
  · intro hpc
    exact absurd hpc hlink
  · intro hpc
    exact absurd hpc hcommit

/-- A micro-step of a call keeps the links. -/
theorem Linked.frameStep (h : Linked x) (eff : Effect) (hx : x.frames = f :: rest)
    (hstep : x.frameStep eff f rest = some y) : Linked y := by
  obtain ⟨c, a, pc⟩ := f
  cases pc with
  | initPromoted =>
    cases hstep
    exact h.setField hx rfl rfl rfl (by simp) (by simp)
  | initPromfn =>
    cases hstep
    exact h.setField hx rfl rfl rfl (by simp) (by simp)
  | initNext =>
    cases hstep
    refine h.goto hx rfl rfl rfl ?_ ?_ ?_ ?_
    · intro r _ hown
      exact store_load_ne x none (hown rfl)
    · intro b _
      exact store_prev x (.slot a) none b
    · simp
    · simp
  | loadPrev =>
    cases hstep
    refine h.goto hx rfl rfl rfl ?_ ?_ ?_ ?_
    · intro r _ hown
      exact setSlot_load x fun hr => absurd hr (hown rfl)
    · intro b hown
      simp [setSlot, Worker.goto, hown rfl]
    · simp [setSlot, Worker.goto]
    · simp
  | link =>
    cases hstep
    have hprev : (x.slots a).prev = x.spork_deque_back := h.linking _ _ hx rfl
    refine h.goto hx rfl rfl (store_back ..) ?_ ?_ ?_ ?_
    · intro r hne _
      exact store_load_ne x (some a) (by rwa [hprev])
    · intro b _
      exact store_prev x _ _ b
    · simp
    · intro _
      refine ⟨?_, ?_⟩
      · show ((x.store (x.slots a).prev (some a)).slots a).prev = _
        rw [store_prev, hprev]
        exact (store_back ..).symm
      · show (x.store (x.slots a).prev (some a)).load
          (x.store (x.slots a).prev (some a)).spork_deque_back = some a
        rw [store_back, ← hprev]
        exact store_load x _ _
  | commit =>
    cases hstep
    exact h.commit hx rfl rfl rfl rfl rfl
  | check =>
    cases hstep
    refine h.keep hx rfl rfl rfl rfl ?_ ?_ ?_ <;> split <;> simp [Pc.isOpen]
  | save =>
    cases hstep
    exact h.keep hx rfl rfl rfl rfl rfl (by simp) (by simp)
  | disable before =>
    cases hstep
    exact h.keep hx rfl rfl rfl rfl rfl (by simp) (by simp)
  | retest before =>
    cases hstep
    refine h.keep hx rfl rfl rfl rfl ?_ ?_ ?_ <;> split <;> simp [Pc.isOpen]
  | dec before =>
    cases hstep
    exact h.keep hx rfl rfl rfl rfl rfl (by simp) (by simp)
  | setPromoted before =>
    cases hstep
    exact h.setField hx rfl rfl rfl (by simp) (by simp)
  | prom before =>
    cases hstep
    exact h.keep hx rfl rfl rfl rfl rfl (by simp) (by simp)
  | restore before =>
    cases hstep
    exact h.keep hx rfl rfl rfl rfl rfl (by simp) (by simp)
  | body =>
    cases hstep
    exact h.keep hx rfl rfl rfl rfl rfl (by simp) (by simp)
  | reset =>
    cases hstep
    exact h.reset hx rfl rfl rfl rfl rfl
  | result =>
    cases hstep
    have hopen : x.openSlots = openSlots { x with frames := rest } := by
      rw [openSlots_cons hx]
      simp [Pc.isOpen]
    have hnd := h.nodup
    have hbelow := h.below
    have hchain := h.chain
    rw [hx] at hnd hbelow
    rw [hopen] at hchain
    have hbody : ∀ g rest', rest = g :: rest' → g.pc = .body := by
      intro g rest' hg
      exact hbelow g (hg ▸ List.mem_cons_self)
    constructor
    · exact hchain.congr (openSlots_nodup (List.nodup_cons.mp hnd).2) (by simp) rfl
        (fun _ _ _ => rfl) fun _ _ => rfl
    · exact (List.nodup_cons.mp hnd).2
    · intro g hg
      exact hbelow g (List.mem_of_mem_tail hg)
    · intro g rest' hg hpc
      simp [hbody g rest' hg] at hpc
    · intro g rest' hg hpc
      simp [hbody g rest' hg] at hpc

omit [DecidableEq A] in
theorem Linked.setTokens (h : Linked x) (t : UInt32) : Linked { x with heartbeat_tokens := t } :=
  h.same (fun _ => ⟨rfl, rfl⟩) rfl rfl rfl

/-- The handler writes no link, wherever it arrives. -/
theorem Linked.heartbeat (h : Linked x) {eff : Effect} {fuel : ℕ}
    (hy : x.heartbeat_handler eff fuel = some y) : Linked y := by
  rw [heartbeat_handler] at hy
  split at hy
  · cases hy
    exact h
  · obtain ⟨res, hres, rfl⟩ := Option.map_eq_some_iff.mp hy
    have h' := h.setTokens (if x.heartbeat_tokens + TOKENS_PER_HEARTBEAT > MAX_HEARTBEAT_TOKENS
      then MAX_HEARTBEAT_TOKENS else x.heartbeat_tokens + TOKENS_PER_HEARTBEAT)
    rw [promote_front_some eff h'.chain (openSlots_nodup h'.nodup) hres]
    apply visits_induction eff h'
    intro z a _ hz _ _
    exact hz.same (fun b => promote_links eff z a b) rfl rfl rfl

omit [DecidableEq A] in
theorem pc_of_inBody (h : x.inBody) (hx : x.frames = f :: rest) : f.pc = .body := by
  simpa [inBody, hx] using h

omit [DecidableEq A] in
/-- A new call: its slot is at an address that no open or closing slot has. -/
theorem Linked.enter (h : Linked x) (hb : x.inBody) {a : A} (ha : a ∉ x.frames.map Frame.addr) :
    Linked (x.enter a) := by
  have hopen : (x.enter a).openSlots = x.openSlots := by
    rw [openSlots_cons (x := x.enter a) rfl]
    simp [Pc.isOpen, openSlots]
  constructor
  · rw [hopen]
    exact h.chain.congr (openSlots_nodup h.nodup) (by simp) rfl (fun _ _ _ => rfl) fun _ _ => rfl
  · exact List.nodup_cons.mpr ⟨ha, h.nodup⟩
  · intro g hg
    have hg : g ∈ x.frames := hg
    cases hx : x.frames with
    | nil => simp [hx] at hg
    | cons f rest =>
      rw [hx] at hg
      rcases List.mem_cons.mp hg with rfl | hg
      · exact pc_of_inBody hb hx
      · exact h.below g (by rw [hx]; exact hg)
  · intro g rest hg hpc
    cases hg
    cases hpc
  · intro g rest hg hpc
    cases hg
    cases hpc

/-- Every step keeps the links. -/
theorem Linked.step (h : Linked x) (hstep : Step x y) : Linked y := by
  rcases hstep.cases with ⟨eff, f, rest, hx, hl⟩ | ⟨a, hb, ha, rfl⟩ | ⟨t, rfl⟩ | ⟨eff, fuel, hl⟩
  · exact h.frameStep eff hx hl
  · exact h.enter hb ha
  · exact h.setTokens t
  · exact h.heartbeat hl

theorem Linked.reachable {d : Bool} (h : Reachable d x) : Linked x := by
  obtain ⟨x₀, hstart, -, hrun⟩ := h
  induction hrun with
  | refl => exact .start hstart
  | tail _ hstep ih => exact ih.step hstep

end

/-- **The spork deque represents the open slots at every instant.** Between any two
micro-steps, the walk from `spork_deque_front.next` to the slot whose `&next` is
`spork_deque_back` visits exactly the slots that are committed and not closed, outermost
first and each once, whatever the memory outside of these slots holds; and `promote_front`,
with any number of tokens and whatever the promotion functions do to them, terminates having
examined a prefix of them. -/
theorem openSlots_followed {A : Type} [DecidableEq A] {d : Bool} {x : Worker A}
    (h : Reachable d x) :
    x.openSlots.Nodup ∧
    (∀ slots fuel, (∀ a ∈ x.openSlots, slots a = x.slots a) → x.openSlots.length < fuel →
      follow { x with slots := slots } fuel .front = some x.openSlots) ∧
    ∀ (tokens : UInt32) (eff : Effect) (fuel : ℕ), x.openSlots.length < fuel →
      ∃ y examined, promote_front { x with heartbeat_tokens := tokens } eff fuel =
        some (y, examined) ∧ examined <+: x.openSlots := by
  have hlinked := Linked.reachable h
  have hnd := openSlots_nodup hlinked.nodup
  refine ⟨hnd, ?_, ?_⟩
  · intro slots fuel hslots hfuel
    have hchain : Chain { x with slots := slots } .front x.openSlots := by
      refine hlinked.chain.congr hnd (by simp) rfl ?_ ?_
      · intro r hr _
        rcases hr with rfl | ⟨a, ha, rfl⟩
        · rfl
        · simp only [load, hslots a ha]
      · intro a ha
        simp only [hslots a ha]
    exact hchain.follow_eq hnd (by simp) hfuel
  · intro tokens eff fuel hfuel
    have hchain := (hlinked.setTokens tokens).chain
    exact ⟨_, _, promote_front_eq eff hchain hnd hfuel, visits_prefix eff _ _⟩

/-- In the inner of two nested calls, with its slot linked but not committed, over a stack
that holds the remains of other calls. -/
theorem openSlots_followed_nested :
    nestedState.openSlots.Nodup ∧
    (∀ slots fuel, (∀ a ∈ nestedState.openSlots, slots a = nestedState.slots a) →
      nestedState.openSlots.length < fuel →
      follow { nestedState with slots := slots } fuel .front = some nestedState.openSlots) ∧
    ∀ (tokens : UInt32) (eff : Effect) (fuel : ℕ), nestedState.openSlots.length < fuel →
      ∃ y examined, promote_front { nestedState with heartbeat_tokens := tokens } eff fuel =
        some (y, examined) ∧ examined <+: nestedState.openSlots :=
  openSlots_followed reachable_nestedState

end Spork.Scheduler.SporkDeque
