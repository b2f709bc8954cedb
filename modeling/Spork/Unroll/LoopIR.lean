import Spork.Lib.LLVMInt
import Spork.Lib.SSA
import Mathlib.Logic.Relation

/-!
# Loops of LLVM IR

Functions of LLVM IR, as far as the pass looks at them, and what runs of their loops do. The
instructions that the pass has no case for, and the accesses to ordinary memory, have their
meaning as a parameter. What another thread or a handler can see is written down as a trace:
volatile accesses, in order, and anything else that is observable as an effect. A volatile load
receives any value of its type.

## Main definitions

* `Instruction`, `Terminator`, `Function`, `Loop` — the code, and what LLVM says about a loop.
* `Val`, `Semantics`, `Event`, `State` — what a run is made of.
* `exec`, `target`, `State.enter` — one instruction, and one edge.
* `Loop.Step`, `Loop.Within`, `Loop.Reaches` — an iteration, and the iterations of a run.
-/
namespace Spork.Unroll.LoopIR

open LLVM SSA

inductive Ty
  | int (w : ℕ)
  | ptr
  | other
  deriving DecidableEq, Repr

def Ty.isIntegerTy : Ty → Bool
  | int _ => true
  | _ => false

inductive CastOps
  | Trunc
  | ZExt
  | SExt
  | BitCast
  /-- From or to another type than an integer. -/
  | Other
  deriving DecidableEq, Repr

inductive AtomicOrdering
  | NotAtomic
  | Unordered
  | Monotonic
  | Acquire
  | Release
  | AcquireRelease
  | SequentiallyConsistent
  deriving DecidableEq, Repr

/-- How memory is accessed. -/
structure Access where
  isVolatile : Bool
  align : ℕ
  ordering : AtomicOrdering
  syncScopeID : ℕ
  deriving DecidableEq, Repr

def Access.isAtomic (a : Access) : Bool := a.ordering ≠ .NotAtomic

/-- An instruction, or an argument, a constant or a global. -/
inductive Value (I C : Type)
  | inst (i : I)
  | const (c : C)
  deriving DecidableEq, Repr

inductive Instruction (B I C : Type)
  | PHINode (ty : Ty) (incoming : List (B × Value I C))
  | CastInst (op : CastOps) (src dest : Ty) (v : Value I C)
  /-- The other predicates are `none`. -/
  | ICmpInst (predicate : Option Pred) (x y : Value I C)
  | LoadInst (ty : Ty) (a : Access) (ptr : Value I C)
  | StoreInst (a : Access) (val ptr : Value I C)
  | CallBase (isIntrinsic isAssumeLike mayReadOrWriteMemory : Bool) (args : List (Value I C))
  /-- `AtomicRMWInst`, `AtomicCmpXchgInst` and `FenceInst`. -/
  | AtomicInst (args : List (Value I C))
  | AllocaInst
  | GetElementPtrInst (hasAllZeroIndices : Bool) (ptr : Value I C) (indices : List (Value I C))
  | other (args : List (Value I C))

inductive Terminator (B I C : Type)
  | UncondBrInst (t : B)
  | CondBrInst (cond : Value I C) (t f : B)
  | other (isCall mayThrow : Bool) (args : List (Value I C)) (successors : List B)

variable {B I C A M : Type}

def Instruction.operands : Instruction B I C → List (Value I C)
  | PHINode _ incoming => incoming.map Prod.snd
  | CastInst _ _ _ v => [v]
  | ICmpInst _ x y => [x, y]
  | LoadInst _ _ ptr => [ptr]
  | StoreInst _ val ptr => [val, ptr]
  | CallBase _ _ _ args => args
  | AtomicInst args => args
  | AllocaInst => []
  | GetElementPtrInst _ ptr indices => ptr :: indices
  | other args => args

def Instruction.isPHI : Instruction B I C → Bool
  | PHINode _ _ => true
  | _ => false

def Terminator.operands : Terminator B I C → List (Value I C)
  | UncondBrInst _ => []
  | CondBrInst cond _ _ => [cond]
  | other _ _ args _ => args

def Terminator.successors : Terminator B I C → List B
  | UncondBrInst t => [t]
  | CondBrInst _ t f => [t, f]
  | other _ _ _ successors => successors

/-- The operands of a phi. -/
def Instruction.incoming : Instruction B I C → List (B × Value I C)
  | PHINode _ incoming => incoming
  | _ => []

def Instruction.getIncomingValueForBlock [DecidableEq B] (i : Instruction B I C) (b : B) :
    Option (Value I C) :=
  (i.incoming.find? fun e => e.1 = b).map Prod.snd

/-- A function. -/
structure Function (B I C : Type) where
  blocks : List B
  phis : B → List I
  /-- The others, up to the terminator. -/
  insts : B → List I
  terminator : B → Terminator B I C
  instruction : I → Instruction B I C
  parent : I → B
  mayThrow : I → Bool
  stripPointerCasts : Value I C → Value I C
  mem_parent : ∀ i, i ∈ phis (parent i) ++ insts (parent i)
  parent_eq : ∀ b, ∀ i ∈ phis b ++ insts b, parent i = b
  nodup : ∀ b, (phis b ++ insts b).Nodup
  isPHI_iff : ∀ b i, i ∈ phis b ++ insts b → ((instruction i).isPHI = true ↔ i ∈ phis b)
  /-- A phi has an operand for every edge. -/
  incoming_covers : ∀ b t, t ∈ (terminator b).successors → ∀ i ∈ phis t,
    ∃ v, (b, v) ∈ (instruction i).incoming

/-- What uses a value. -/
inductive User (B I : Type)
  | inst (i : I)
  | term (b : B)
  deriving DecidableEq, Repr

namespace Function

variable (F : Function B I C)

/-- The uses in a block. -/
def blockUses (b : B) : List (User B I × Value I C) :=
  (F.phis b ++ F.insts b).flatMap (fun i => (F.instruction i).operands.map (.inst i, ·)) ++
    (F.terminator b).operands.map (.term b, ·)

def uses : List (User B I × Value I C) := F.blocks.flatMap F.blockUses

def hasOneUse [DecidableEq I] [DecidableEq C] (i : I) : Bool :=
  F.uses.countP (fun u => u.2 = .inst i) = 1

/-- The number of instructions. -/
def size : ℕ := (F.blocks.flatMap fun b => F.phis b ++ F.insts b).length

/-- The part of the code that an iteration of a loop runs through. -/
def region (header : B) (blocks : List B) : Region B I where
  entry := header
  phis := F.phis
  insts := F.insts
  next b t := t ∈ (F.terminator b).successors ∧ t ∈ blocks ∧ t ≠ header
  parent := F.parent
  parent_eq := F.parent_eq
  nodup := F.nodup

end Function

/-- A loop, and what LLVM's analyses say about it. -/
structure Loop (F : Function B I C) where
  header : B
  blocks : List B
  isLoopSimplifyForm : Bool
  isLCSSAForm : Bool
  hasSubLoops : Bool
  getLoopPreheader : Option B
  getLoopLatch : Option B
  getExitBlock : Option B
  getExitingBlock : Option B
  getInductionVariable : Option I
  /-- The scalar evolution of the phi is an affine recurrence of the loop with step one. -/
  isUnitAddRec : I → Bool
  /-- The dominator tree, above the marker. -/
  dominatesMarker : I → Bool
  header_mem : header ∈ blocks
  blocks_subset : blocks ⊆ F.blocks
  preheader_successors : ∀ b, getLoopPreheader = some b → (F.terminator b).successors = [header]
  latch_mem : ∀ b, getLoopLatch = some b → b ∈ blocks
  latch_unique : ∀ b, getLoopLatch = some b → ∀ b' ∈ blocks,
    header ∈ (F.terminator b').successors → b' = b
  exiting_unique : ∀ b, getExitingBlock = some b → ∀ b' ∈ blocks, b' ≠ b →
    (F.terminator b').successors ⊆ blocks
  exit_mem : ∀ b, getExitBlock = some b → b ∈ F.blocks ∧ b ∉ blocks
  induction_mem : ∀ i, getInductionVariable = some i → i ∈ F.phis header
  /-- Outside the loop, only phis use its instructions. -/
  lcssa : isLCSSAForm = true → ∀ c d, Value.inst d ∈ (F.instruction c).operands →
    (F.instruction c).isPHI = false → F.parent d ∈ blocks → F.parent c ∈ blocks
  /-- In an iteration, definitions dominate their uses. -/
  ssa : ∀ c d, Value.inst d ∈ (F.instruction c).operands → (F.instruction c).isPHI = false →
    F.parent c ∈ blocks → F.parent d ∈ blocks → (F.region header blocks).Precedes d c
  ssa_term : ∀ b ∈ blocks, ∀ d, Value.inst d ∈ (F.terminator b).operands →
    F.parent d ∈ blocks → (F.region header blocks).Dominates d ⟨b, []⟩
  ssa_phi : ∀ c, ∀ b ∈ blocks, ∀ d, (b, Value.inst d) ∈ (F.instruction c).incoming →
    F.parent d ∈ blocks → (F.region header blocks).Dominates d ⟨b, []⟩

namespace Loop

variable {F : Function B I C} (L : Loop F)

def region : Region B I := F.region L.header L.blocks

def contains [DecidableEq B] (i : I) : Bool := F.parent i ∈ L.blocks

end Loop

/-! ## Runs -/

/-- A value at run time. -/
inductive Val (A : Type)
  | int (w : ℕ) (x : BitVec w)
  | other (a : A)
  deriving DecidableEq

/-- An integer cast. -/
def castVal (op : CastOps) : Ty → Val A → Val A
  | .int w, .int _ x => .int w (match op with | .SExt => x.signExtend w | _ => x.setWidth w)
  | _, v => v

/-- An integer comparison. -/
def lessThan (p : Pred) : Val A → Val A → Bool
  | .int w x, .int _ y => p.lt x (y.setWidth w)
  | _, _ => false

def ofBool (b : Bool) : Val A := .int 1 (BitVec.ofBool b)

def isTrue : Val A → Bool
  | .int _ x => x.getLsbD 0
  | .other _ => false

@[simp] theorem isTrue_ofBool (b : Bool) : isTrue (ofBool b : Val A) = b := by
  cases b <;> rfl

/-- The meaning of what is left open. -/
structure Semantics (B I C A M : Type) where
  const : C → Val A
  load : I → Val A → M → Val A
  store : I → Val A → Val A → M → M
  op : I → List (Val A) → M → Val A × M
  /-- Which successor is taken. -/
  successor : B → List (Val A) → ℕ

/-- What can be seen of a run. -/
inductive Event (B I A : Type)
  /-- Volatile. -/
  | load (ptr v : Val A)
  /-- Volatile. -/
  | store (ptr v : Val A)
  | effect (u : User B I)

/-- A state of a run. -/
structure State (B I A M : Type) where
  place : Place B I
  env : I → Val A
  mem : M
  trace : List (Event B I A)

variable (S : Semantics B I C A M)

def eval (env : I → Val A) : Value I C → Val A
  | .inst i => env i
  | .const c => S.const c

variable (F : Function B I C)

/-- `isHarmlessCall`. -/
def isHarmlessCall (isIntrinsic isAssumeLike mayReadOrWriteMemory : Bool) : Bool :=
  isIntrinsic && (isAssumeLike || !mayReadOrWriteMemory)

/-- The value of an instruction, the memory after it and what can be seen of it, unless it
throws. -/
def action (input : Val A) (env : I → Val A) (mem : M) (i : I) :
    Val A × M × List (Event B I A) :=
  let ev := eval S env
  match F.instruction i with
  | .PHINode _ _ => (env i, mem, [])
  | .CastInst op src dest v =>
      if src.isIntegerTy && dest.isIntegerTy then (castVal op dest (ev v), mem, [])
      else ((S.op i [ev v] mem).1, mem, [])
  | .ICmpInst (some p) x y => (ofBool (lessThan p (ev x) (ev y)), mem, [])
  | .ICmpInst none x y => ((S.op i [ev x, ev y] mem).1, mem, [])
  | .LoadInst _ a ptr =>
      if a.isVolatile then (input, mem, [.load (ev ptr) input])
      else if a.isAtomic then (input, mem, [.effect (.inst i)])
      else (S.load i (ev ptr) mem, mem, [])
  | .StoreInst a val ptr =>
      -- a store has no value
      if a.isVolatile then (ev val, mem, [.store (ev ptr) (ev val)])
      else if a.isAtomic then (ev val, S.store i (ev val) (ev ptr) mem, [.effect (.inst i)])
      else (ev val, S.store i (ev val) (ev ptr) mem, [])
  | .CallBase isIntrinsic isAssumeLike mayReadOrWriteMemory args =>
      let (v, mem) := S.op i (args.map ev) mem
      if isHarmlessCall isIntrinsic isAssumeLike mayReadOrWriteMemory then (v, mem, [])
      else (input, mem, [.effect (.inst i)])
  | .AtomicInst args => (input, (S.op i (args.map ev) mem).2, [.effect (.inst i)])
  | .AllocaInst => ((S.op i [] mem).1, (S.op i [] mem).2, [])
  | .GetElementPtrInst _ ptr indices => ((S.op i (ev ptr :: indices.map ev) mem).1, mem, [])
  | .other args => ((S.op i (args.map ev) mem).1, (S.op i (args.map ev) mem).2, [])

/-- The execution of an instruction. -/
def exec (input : Val A) (env : I → Val A) (mem : M) (i : I) : Val A × M × List (Event B I A) :=
  let (v, mem, events) := action S F input env mem i
  (v, mem, if F.mayThrow i then events ++ [.effect (.inst i)] else events)

/-- Integers are loaded by integer loads. -/
def Fits (i : I) (input : Val A) : Prop :=
  ∀ w a ptr, F.instruction i = .LoadInst (.int w) a ptr → ∃ x, input = .int w x

/-- The successor of a block. -/
def target (b : B) (env : I → Val A) : Option B :=
  match F.terminator b with
  | .UncondBrInst t => some t
  | .CondBrInst cond t f => some (if isTrue (eval S env cond) then t else f)
  | .other _ _ args successors => successors[S.successor b (args.map (eval S env))]?

/-- What can be seen of a terminator. -/
def termEvents (b : B) : List (Event B I A) :=
  match F.terminator b with
  | .other isCall mayThrow _ _ => if isCall || mayThrow then [.effect (.term b)] else []
  | _ => []

section
variable [DecidableEq I]

/-- One instruction. -/
def State.next (s : State B I A M) (b : B) (i : I) (rest : List I) (input : Val A) :
    State B I A M :=
  let (v, mem, events) := exec S F input s.env s.mem i
  { place := ⟨b, rest⟩
    env := Function.update s.env i v
    mem := mem
    trace := s.trace ++ events }

variable {S F} (s : State B I A M) (b : B) (i : I) (rest : List I) (input : Val A)

@[simp] theorem next_place : (s.next S F b i rest input).place = ⟨b, rest⟩ := rfl

@[simp] theorem next_env_self :
    (s.next S F b i rest input).env i = (exec S F input s.env s.mem i).1 :=
  Function.update_self ..

theorem next_env_of_ne {d : I} (h : d ≠ i) : (s.next S F b i rest input).env d = s.env d :=
  Function.update_of_ne h ..

@[simp] theorem next_mem :
    (s.next S F b i rest input).mem = (exec S F input s.env s.mem i).2.1 := rfl

@[simp] theorem next_trace :
    (s.next S F b i rest input).trace = s.trace ++ (exec S F input s.env s.mem i).2.2 := rfl

end

section
variable [DecidableEq B] [DecidableEq I]

/-- The phis of a block receive their values all at once. -/
def phiEnv (b t : B) (env : I → Val A) (i : I) : Val A :=
  if i ∈ F.phis t then
    ((F.instruction i).getIncomingValueForBlock b).elim (env i) (eval S env)
  else env i

/-- One edge. -/
def State.enter (s : State B I A M) (t : B) : State B I A M :=
  { place := ⟨t, F.insts t⟩
    env := phiEnv S F s.place.block t s.env
    mem := s.mem
    trace := s.trace ++ termEvents F s.place.block }

section
variable {S F} (s : State B I A M) (b t : B)

@[simp] theorem enter_place : (s.enter S F t).place = ⟨t, F.insts t⟩ := rfl

@[simp] theorem enter_env : (s.enter S F t).env = phiEnv S F s.place.block t s.env := rfl

@[simp] theorem enter_mem : (s.enter S F t).mem = s.mem := rfl

@[simp] theorem enter_trace :
    (s.enter S F t).trace = s.trace ++ termEvents F s.place.block := rfl

variable {t}

theorem phiEnv_of_not_mem {env : I → Val A} {i : I} (h : i ∉ F.phis t) :
    phiEnv S F b t env i = env i := if_neg h

end

namespace Loop

variable {F} (L : Loop F)

/-- A step within an iteration. -/
inductive Step : State B I A M → State B I A M → Prop
  | inst {s : State B I A M} {b : B} {i : I} {rest : List I} {input : Val A}
      (hplace : s.place = ⟨b, i :: rest⟩) (hfits : Fits F i input) :
      Step s (s.next S F b i rest input)
  | edge {s : State B I A M} {b t : B} (hplace : s.place = ⟨b, []⟩)
      (htarget : target S F b s.env = some t) (hmem : t ∈ L.blocks) (hne : t ≠ L.header) :
      Step s (s.enter S F t)

/-- Some steps within an iteration. -/
abbrev Within : State B I A M → State B I A M → Prop := Relation.ReflTransGen (L.Step S)

/-- The end of the latch, after a number of iterations; a run starts at the end of the
preheader. -/
inductive Reaches (Latch : B) (s₀ : State B I A M) : ℕ → State B I A M → Prop
  | start : Reaches Latch s₀ 0 s₀
  | next {n : ℕ} {s s' : State B I A M} (h : Reaches Latch s₀ n s)
      (htarget : target S F s.place.block s.env = some L.header)
      (hwithin : L.Within S (s.enter S F L.header) s') (hplace : s'.place = ⟨Latch, []⟩) :
      Reaches Latch s₀ (n + 1) s'

end Loop

end

end Spork.Unroll.LoopIR
