import Mathlib

/-!
# Functions in static single assignment form

A function is a list of basic blocks. A block is a list of instructions, each of which
defines a value, and ends with a terminator. What an instruction computes is left to an
evaluation, which may trap.

Functions are built by a builder that stands at the end of its current block and only
ever appends. Blocks *grow*: what is in a block stays there, and a block with a
terminator is closed. A builder whose current block is open marks a position of every
function that its blocks grow into, and the lemmas say how a machine at that position
goes on: to the position of the builder after the instruction (`next_ins`), or out of
the block (`next_jump`, `next_brif`, `next_ret`). Code generators are so proved correct
along the way they emit code, without looking at the finished function.
-/

namespace Ssa

open Function

/-- How a block ends. -/
inductive Terminator
  | jump (block : ℕ)
  | brif (condition thenBlock elseBlock : ℕ)
  | ret (value : ℕ)
deriving DecidableEq

/-- **A basic block.** -/
structure Block (I : Type) where
  insts : List (ℕ × I)
  terminator : Option Terminator
deriving DecidableEq

/-- A block without instructions. -/
def Block.empty {I : Type} : Block I := ⟨[], none⟩

/-- **A builder**: the blocks so far, where it stands, and the next new value. -/
structure Builder (I : Type) where
  blocks : List (Block I)
  current : ℕ
  nextValue : ℕ

/-! ## Running a function -/

/-- A machine in the middle of a block. -/
structure Machine (V : Type) where
  block : ℕ
  index : ℕ
  env : ℕ → V

/-- How far a call has come. -/
inductive Config (V : Type)
  | running (m : Machine V)
  | returned (v : V)
  | trapped

section Run

variable {I V : Type} (eval : I → (ℕ → V) → Option V) (truth : V → Bool) (F : List (Block I))

/-- **One step**: an instruction, or the end of a block. -/
def next : Config V → Config V
  | .running m =>
    match F[m.block]? with
    | none => .trapped
    | some block =>
      match block.insts[m.index]? with
      | some (v, inst) =>
        match eval inst m.env with
        | some w => .running ⟨m.block, m.index + 1, update m.env v w⟩
        | none => .trapped
      | none =>
        match block.terminator with
        | some (.jump target) => .running ⟨target, 0, m.env⟩
        | some (.brif c t e) => .running ⟨if truth (m.env c) then t else e, 0, m.env⟩
        | some (.ret v) => .returned (m.env v)
        | none => .trapped
  | c => c

/-- A run gets from one configuration to another. -/
def Gets (c c' : Config V) : Prop := ∃ n, (next eval truth F)^[n] c = c'

variable {eval truth F}

theorem Gets.refl (c : Config V) : Gets eval truth F c c := ⟨0, rfl⟩

theorem Gets.trans {c₁ c₂ c₃ : Config V} (h : Gets eval truth F c₁ c₂)
    (h' : Gets eval truth F c₂ c₃) : Gets eval truth F c₁ c₃ := by
  obtain ⟨n, rfl⟩ := h
  obtain ⟨m, rfl⟩ := h'
  exact ⟨m + n, iterate_add_apply _ m n c₁⟩

theorem Gets.step {c c' : Config V} (h : next eval truth F c = c') : Gets eval truth F c c' :=
  ⟨1, h⟩

end Run

/-! ## Growth -/

variable {i : ℕ}

section Growth

variable {I : Type}

/-- **A block has grown**: it keeps its instructions, and is as it was if it was closed. -/
structure Block.Grown (block block' : Block I) : Prop where
  insts : block.insts <+: block'.insts
  closed : ∀ t, block.terminator = some t → block' = block

/-- Every block has grown. -/
def Grows (blocks blocks' : List (Block I)) : Prop :=
  ∀ (i : ℕ) (block : Block I), blocks[i]? = some block →
    ∃ block', blocks'[i]? = some block' ∧ block.Grown block'

theorem Block.Grown.refl (block : Block I) : block.Grown block := ⟨List.prefix_rfl, fun _ _ => rfl⟩

theorem Grows.refl (blocks : List (Block I)) : Grows blocks blocks :=
  fun _ block h => ⟨block, h, .refl block⟩

theorem Grows.trans {b₁ b₂ b₃ : List (Block I)} (h : Grows b₁ b₂) (h' : Grows b₂ b₃) :
    Grows b₁ b₃ := by
  intro i block hblock
  obtain ⟨block', hblock', hgrown⟩ := h i block hblock
  obtain ⟨block'', hblock'', hgrown'⟩ := h' i block' hblock'
  refine ⟨block'', hblock'', hgrown.insts.trans hgrown'.insts, fun t ht => ?_⟩
  obtain rfl := hgrown.closed t ht
  exact hgrown'.closed t ht

/-- One block is replaced by one that has grown. -/
theorem grows_modify {blocks : List (Block I)} {f : Block I → Block I}
    (h : ∀ block, blocks[i]? = some block → block.Grown (f block)) :
    Grows blocks (blocks.modify i f) := by
  intro j block hblock
  rw [List.getElem?_modify, hblock]
  by_cases hij : i = j
  · subst hij
    exact ⟨f block, by simp, h block hblock⟩
  · exact ⟨block, by simp [hij], .refl block⟩

end Growth

/-! ## Building -/

namespace Builder

variable {I V : Type} {b : Builder I} {n : ℕ} {inst : I}

/-- A new block, with the next number. -/
def createBlock (b : Builder I) : Builder I := { b with blocks := b.blocks ++ [.empty] }

/-- Goes on at another block. -/
def switchTo (b : Builder I) (block : ℕ) : Builder I := { b with current := block }

/-- Appends an instruction, which defines the next value. -/
def ins (b : Builder I) (inst : I) : Builder I :=
  { b with
    blocks := b.blocks.modify b.current
      (fun block => { block with insts := block.insts ++ [(b.nextValue, inst)] })
    nextValue := b.nextValue + 1 }

/-- Closes the current block. -/
def terminate (b : Builder I) (t : Terminator) : Builder I :=
  { b with blocks := b.blocks.modify b.current (fun block => { block with terminator := some t }) }

@[simp] theorem ins_current : (b.ins inst).current = b.current := rfl

@[simp] theorem ins_nextValue : (b.ins inst).nextValue = b.nextValue + 1 := rfl

variable {t : Terminator}

@[simp] theorem terminate_current : (b.terminate t).current = b.current := rfl

@[simp] theorem terminate_nextValue : (b.terminate t).nextValue = b.nextValue :=
  rfl

/-- **The current block is open**, and has so many instructions. -/
def Open (b : Builder I) (n : ℕ) : Prop :=
  ∃ block, b.blocks[b.current]? = some block ∧ block.terminator = none ∧ block.insts.length = n

theorem Open.of_empty (h : b.blocks[b.current]? = some .empty) : b.Open 0 := ⟨_, h, rfl, rfl⟩

theorem Open.ins (h : b.Open n) : (b.ins inst).Open (n + 1) := by
  obtain ⟨block, hblock, hopen, rfl⟩ := h
  refine ⟨{ block with insts := block.insts ++ [(b.nextValue, inst)] }, ?_, hopen, ?_⟩
  · simp [Builder.ins, hblock]
  · simp

theorem Open.createBlock (h : b.Open n) : b.createBlock.Open n := by
  obtain ⟨block, hblock, hopen, hn⟩ := h
  refine ⟨block, ?_, hopen, hn⟩
  exact (List.getElem?_append_left (List.getElem?_eq_some_iff.mp hblock).1).trans hblock

theorem Open.grows (h : b.Open n) {f : Block I → Block I}
    (hf : ∀ block, block.insts <+: (f block).insts) :
    Grows b.blocks (b.blocks.modify b.current f) := by
  obtain ⟨block, hblock, hopen, -⟩ := h
  refine grows_modify fun block' hblock' => ⟨hf block', fun t ht => ?_⟩
  obtain rfl := Option.some.inj (hblock.symm.trans hblock')
  cases hopen.symm.trans ht

theorem grows_ins (h : b.Open n) : Grows b.blocks (b.ins inst).blocks :=
  h.grows fun _ => List.prefix_append _ _

theorem grows_terminate (h : b.Open n) : Grows b.blocks (b.terminate t).blocks :=
  h.grows fun _ => List.prefix_rfl

theorem grows_createBlock (b : Builder I) : Grows b.blocks b.createBlock.blocks := by
  intro i block hblock
  have hi := (List.getElem?_eq_some_iff.mp hblock).1
  exact ⟨block, (List.getElem?_append_left hi).trans hblock, .refl block⟩

/-! ### Several instructions -/

/-- Appends instructions, one after the other. -/
def emit (b : Builder I) : List I → Builder I
  | [] => b
  | inst :: rest => (b.ins inst).emit rest

variable {l : List I}

@[simp] theorem emit_current : (b.emit l).current = b.current := by
  induction l generalizing b with
  | nil => rfl
  | cons inst rest ih => exact ih

@[simp] theorem emit_nextValue : (b.emit l).nextValue = b.nextValue + l.length := by
  induction l generalizing b with
  | nil => rfl
  | cons inst rest ih => exact ih.trans (by simp [Nat.add_comm, Nat.add_left_comm])

theorem Open.emit (h : b.Open n) : (b.emit l).Open (n + l.length) := by
  induction l generalizing b n with
  | nil => exact h
  | cons inst rest ih => exact (Nat.add_right_comm n 1 rest.length) ▸ ih h.ins

theorem grows_emit (h : b.Open n) : Grows b.blocks (b.emit l).blocks := by
  induction l generalizing b n with
  | nil => exact .refl _
  | cons inst rest ih => exact (grows_ins h).trans (ih h.ins)

/-! ### Other blocks -/

theorem ins_getElem? (hi : i ≠ b.current) : (b.ins inst).blocks[i]? = b.blocks[i]? := by
  simp [Builder.ins, hi.symm]

theorem terminate_getElem? (hi : i ≠ b.current) : (b.terminate t).blocks[i]? = b.blocks[i]? := by
  simp [Builder.terminate, hi.symm]

theorem createBlock_getElem? (hi : i < b.blocks.length) : b.createBlock.blocks[i]? = b.blocks[i]? :=
  List.getElem?_append_left hi

@[simp] theorem ins_length : (b.ins inst).blocks.length = b.blocks.length := List.length_modify ..

@[simp] theorem terminate_length : (b.terminate t).blocks.length = b.blocks.length :=
  List.length_modify ..

@[simp] theorem createBlock_length : b.createBlock.blocks.length = b.blocks.length + 1 := by
  simp [Builder.createBlock]

theorem emit_getElem? (hi : i ≠ b.current) : (b.emit l).blocks[i]? = b.blocks[i]? := by
  induction l generalizing b with
  | nil => rfl
  | cons inst rest ih => exact (ih (b := b.ins inst) hi).trans (ins_getElem? hi)

@[simp] theorem emit_length : (b.emit l).blocks.length = b.blocks.length := by
  induction l generalizing b with
  | nil => rfl
  | cons inst rest ih => exact ih.trans ins_length

/-- The current block is closed, and a new one opened. -/
theorem Open.branch (h : b.Open n) :
    ((b.createBlock.terminate t).switchTo b.blocks.length).Open 0 := by
  obtain ⟨block, hblock, -, -⟩ := h
  have hcurrent := (List.getElem?_eq_some_iff.mp hblock).1
  refine .of_empty ((terminate_getElem? (b := b.createBlock) hcurrent.ne').trans ?_)
  simp [Builder.createBlock]

/-! ### Steps at the position of a builder -/

section Step

variable {eval : I → (ℕ → V) → Option V} {truth : V → Bool} {F : List (Block I)} {env env' : ℕ → V}
  {v : ℕ}

/-- An emitted instruction is executed. -/
theorem next_ins (h : b.Open n) (hgrows : Grows (b.ins inst).blocks F) {w : V}
    (heval : eval inst env = some w) :
    next eval truth F (.running ⟨b.current, n, env⟩) =
      .running ⟨b.current, n + 1, update env b.nextValue w⟩ := by
  obtain ⟨block, hblock, hopen, rfl⟩ := h
  have hins : (b.ins inst).blocks[b.current]? =
      some { block with insts := block.insts ++ [(b.nextValue, inst)] } := by
    simp [Builder.ins, hblock]
  obtain ⟨block', hblock', hgrown⟩ := hgrows _ _ hins
  have hinst : block'.insts[block.insts.length]? = some (b.nextValue, inst) := by
    obtain ⟨rest, hrest⟩ := hgrown.insts
    rw [← hrest]
    simp
  simp [next, hblock', hinst, heval]

/-- The values of instructions that define values from `v` on. -/
def evalFrom (eval : I → (ℕ → V) → Option V) : List I → ℕ → (ℕ → V) → Option (ℕ → V)
  | [], _, env => some env
  | inst :: rest, v, env =>
    match eval inst env with
    | some w => evalFrom eval rest (v + 1) (update env v w)
    | none => none

theorem evalFrom_singleton {w : V} (heval : eval inst env = some w) :
    evalFrom eval [inst] v env = some (update env v w) := by
  simp [evalFrom, heval]

/-- Values that were defined before keep their values. -/
theorem evalFrom_of_lt (heval : evalFrom eval l v env = some env') {u : ℕ} (hu : u < v) :
    env' u = env u := by
  induction l generalizing v env with
  | nil =>
    cases heval
    rfl
  | cons inst rest ih =>
    unfold evalFrom at heval
    split at heval
    next w hw => rw [ih heval (hu.trans (Nat.lt_succ_self v)), update_of_ne hu.ne]
    next => cases heval

variable (h : b.Open n)
include h

/-- Emitted instructions are executed one after the other. -/
theorem gets_emit (hgrows : Grows (b.emit l).blocks F)
    (heval : evalFrom eval l b.nextValue env = some env') :
    Gets eval truth F (.running ⟨b.current, n, env⟩)
      (.running ⟨b.current, n + l.length, env'⟩) := by
  induction l generalizing b n env with
  | nil =>
    cases heval
    exact .refl _
  | cons inst rest ih =>
    unfold evalFrom at heval
    split at heval
    next w hw =>
      have hstep : next eval truth F _ = _ := next_ins h ((grows_emit h.ins).trans hgrows) hw
      refine (Gets.step hstep).trans ?_
      rw [List.length_cons, Nat.add_comm rest.length 1, ← Nat.add_assoc]
      exact ih (b := b.ins inst) h.ins hgrows heval
    next => cases heval

theorem next_terminate {t : Terminator} (hgrows : Grows (b.terminate t).blocks F) :
    ∃ block, F[b.current]? = some block ∧ block.insts[n]? = none ∧ block.terminator = some t := by
  obtain ⟨block, hblock, hopen, rfl⟩ := h
  have hterm : (b.terminate t).blocks[b.current]? = some { block with terminator := some t } := by
    simp [Builder.terminate, hblock]
  obtain ⟨block', hblock', hgrown⟩ := hgrows _ _ hterm
  obtain rfl := hgrown.closed t rfl
  exact ⟨_, hblock', by simp, rfl⟩

theorem next_jump {target : ℕ} (hgrows : Grows (b.terminate (.jump target)).blocks F) :
    next eval truth F (.running ⟨b.current, n, env⟩) = .running ⟨target, 0, env⟩ := by
  obtain ⟨block, hblock, hend, hterm⟩ := next_terminate h hgrows
  simp [next, hblock, hend, hterm]

theorem next_brif {c t e : ℕ} (hgrows : Grows (b.terminate (.brif c t e)).blocks F) :
    next eval truth F (.running ⟨b.current, n, env⟩) =
      .running ⟨if truth (env c) then t else e, 0, env⟩ := by
  obtain ⟨block, hblock, hend, hterm⟩ := next_terminate h hgrows
  simp [next, hblock, hend, hterm]

theorem next_ret (hgrows : Grows (b.terminate (.ret v)).blocks F) :
    next eval truth F (.running ⟨b.current, n, env⟩) = .returned (env v) := by
  obtain ⟨block, hblock, hend, hterm⟩ := next_terminate h hgrows
  simp [next, hblock, hend, hterm]

end Step

end Builder

end Ssa
