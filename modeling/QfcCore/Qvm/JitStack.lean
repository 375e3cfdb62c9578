import QfcCore.Qvm.Jit

/-!
# What the generator does to its stack and its builder

Code is generated in the order of the instructions, whatever order they are executed in.
The names on the stack of the generator before an instruction are so determined by the
instructions in front of it: `Virtual.after` says what an instruction does to them.

The builder only grows (`Emitted`): most instructions append to the current block, a
jump or a return ends it, and a branch goes on in a new one. When the generator comes to
an instruction, the block of that instruction is still empty, so that a machine that
enters the block is where the generator is.
-/

namespace Qfc.Qvm.Jit

open Ssa (Block Builder Terminator)
open Gen Act List Nat

/-! ## The virtual stack -/

/-- **The virtual stack and the virtual local variables**: labels of values. -/
structure Virtual where
  stack : List ℕ
  locals : List ℕ
deriving DecidableEq

namespace Virtual

variable (f : ℕ → ℕ) (label : ℕ) (instr : Instruction)

/-- The labels with other names. -/
def map (v : Virtual) : Virtual := ⟨v.stack.map f, v.locals.map f⟩

/-- So many values are taken off. -/
def drop : ℕ → Virtual → Option Virtual
  | 0, v => some v
  | n + 1, v =>
    match v.stack with
    | _ :: rest => drop n { v with stack := rest }
    | [] => none

/-- A value is put on. -/
def put (v : Virtual) : Virtual := { v with stack := label :: v.stack }

/-- The index of a local variable as the generator reads it. -/
def index : ℕ := fromLeBytes ((instr.operand.getD []).take 2)

/-- What an instruction does; a value that it computes gets the label. -/
def after (v : Virtual) : Option Virtual :=
  match instr.opcode with
  | .push | .caller | .callValue | .address | .blockNumber | .timestamp | .gas => v.put label
  | .pop | .jumpIf | .jumpIfNot => v.drop 1
  | .dup => v.stack.head?.map (fun a => v.put a)
  | .swap =>
    match v.stack with
    | a :: b :: rest => some { v with stack := b :: a :: rest }
    | _ => none
  | .add | .sub | .mul | .div | .mod | .eq | .ne | .lt | .le | .gt | .ge | .and | .or | .bitAnd
  | .bitOr | .bitXor | .shl | .shr => (v.drop 2).map (put label)
  | .neg | .not | .bitNot | .sLoad => (v.drop 1).map (put label)
  | .sStore => v.drop 2
  | .loadLocal => v.locals[index instr]?.map (fun a => v.put a)
  | .storeLocal =>
    match v.stack with
    | a :: rest => some ⟨rest, v.locals.set (index instr) a⟩
    | [] => none
  | .ret => some { v with stack := v.stack.tail }
  | .jump | .halt | .nop => some v
  | _ => none

theorem drop_map (n : ℕ) (v : Virtual) : (v.map f).drop n = (v.drop n).map (map f) := by
  induction n generalizing v with
  | zero => rfl
  | succ n ih =>
    obtain ⟨stack, locals⟩ := v
    cases stack with
    | nil => rfl
    | cons a rest => exact ih ⟨rest, locals⟩

/-- Instructions do not look at the labels. -/
theorem after_map (v : Virtual) :
    (v.map f).after (f label) instr = (v.after label instr).map (map f) := by
  obtain ⟨opcode, operand⟩ := instr
  cases opcode with
  | push | caller | callValue | address | blockNumber | timestamp | gas => rfl
  | pop | jumpIf | jumpIfNot | sStore => exact drop_map f _ v
  | dup =>
    obtain ⟨stack, locals⟩ := v
    cases stack <;> rfl
  | swap =>
    obtain ⟨stack, locals⟩ := v
    rcases stack with _ | ⟨a, _ | ⟨b, rest⟩⟩ <;> rfl
  | add | sub | mul | div | mod | eq | ne | lt | le | gt | ge | and | or | bitAnd | bitOr | bitXor
  | shl | shr | neg | not | bitNot | sLoad =>
    show ((v.map f).drop _).map (put (f label)) = ((v.drop _).map (put label)).map (map f)
    rw [drop_map, Option.map_map, Option.map_map]
    rfl
  | loadLocal =>
    show ((v.locals.map f)[_]?).map _ = (v.locals[_]?.map _).map _
    rw [getElem?_map, Option.map_map, Option.map_map]
    rfl
  | storeLocal =>
    obtain ⟨stack, locals⟩ := v
    cases stack with
    | nil => rfl
    | cons a rest => simp [after, map, map_set]
  | ret =>
    obtain ⟨stack, locals⟩ := v
    simp [after, map]
  | jump | halt | nop => rfl
  | _ => rfl

end Virtual

/-- **The virtual stack before the `i`-th instruction**: the local variables have the
first labels, then comes one for every instruction. -/
def virtualAt (total : ℕ) (instructions : List Instruction) : ℕ → Option Virtual
  | 0 => some ⟨[], range total⟩
  | i + 1 => do
    let v ← virtualAt total instructions i
    let instr ← instructions[i]?
    v.after (total + i) instr

/-! ## The parts of the generator -/

variable {g' g : CodeGenerator}

section Parts

variable {α : Type}

@[simp] theorem succeeds_push {value : ℕ} {Q : Unit → CodeGenerator → Prop} :
    (push value).Succeeds g Q ↔
      ¬ (g.boundsCheck = true ∧ MAX_STACK_DEPTH ≤ g.stack.length) ∧
        Q () { g with stack := value :: g.stack } := by
  unfold push Succeeds
  dsimp only
  split <;> simp_all [Unique.exists_iff]

variable {Q : ℕ → CodeGenerator → Prop} {r : Except JitError α}

@[simp] theorem succeeds_pop :
    pop.Succeeds g Q ↔ ∃ value rest, g.stack = value :: rest ∧ Q value { g with stack := rest } := by
  unfold pop Succeeds
  dsimp only
  split <;> simp_all

@[simp] theorem succeeds_peek :
    peek.Succeeds g Q ↔ ∃ value rest, g.stack = value :: rest ∧ Q value g := by
  unfold peek Succeeds
  dsimp only
  split <;> simp_all

@[simp] theorem succeeds_ins {inst : Inst} :
    (ins inst).Succeeds g Q ↔
      Q g.builder.nextValue { g with builder := g.builder.ins inst } := by
  unfold ins Succeeds
  simp

@[simp] theorem succeeds_createBlock :
    createBlock.Succeeds g Q ↔
      Q g.builder.blocks.length { g with builder := g.builder.createBlock } := by
  unfold createBlock Succeeds
  simp

@[simp] theorem succeeds_fail {e : JitError} {Q : α → CodeGenerator → Prop} :
    (fail e : Gen α).Succeeds g Q ↔ False := by
  unfold fail Succeeds
  simp

@[simp] theorem succeeds_ofResult {Q : α → CodeGenerator → Prop} :
    (ofResult r).Succeeds g Q ↔ ∃ a, r = .ok a ∧ Q a g := by
  cases r with
  | ok a | error e => simp [ofResult]

theorem succeeds_of_eq {x : Gen α} {a : α} (h : x g = (.ok a, g')) :
    x.Succeeds g (fun _ t => t = g') :=
  ⟨a, g', h, rfl⟩

theorem ofResult_bind_eq_ok {β : Type} {f : α → Gen β} {b : β}
    (h : (ofResult r >>= f) g = (.ok b, g')) : ∃ a, r = .ok a ∧ f a g = (.ok b, g') := by
  cases r with
  | ok a => exact ⟨a, rfl, h⟩
  | error e => cases h

theorem readOperandU16_index {instr : Instruction} {idx : ℕ} (h : readOperandU16 instr = .ok idx) :
    idx = Virtual.index instr := by
  unfold readOperandU16 readOperand at h
  unfold Virtual.index
  split at h
  · cases h
  next operand hoperand =>
    split at h
    · cases h
    · cases h
      rw [hoperand]
      rfl

end Parts

/-! ## What is emitted -/

/-- **Nothing but instructions is appended**, and the names are old or new. -/
structure Straight (g g' : CodeGenerator) (insts : List Inst) : Prop where
  builder : g'.builder = g.builder.emit insts
  terminated : g'.blockTerminated = g.blockTerminated
  locals : g'.locals.length = g.locals.length
  names : ∀ v ∈ g'.stack ++ g'.locals, v ∈ g.stack ++ g.locals ∨
    g.builder.nextValue ≤ v ∧ v < g.builder.nextValue + insts.length

/-- The code of a conditional jump, which creates the block it goes on in. -/
abbrev branching (b : Builder Inst) (cc : IntCC) (cond target : ℕ) : Builder Inst :=
  (b.emit [.iconst 0, .icmp cc cond b.nextValue]).createBlock.terminate
    (.brif (b.nextValue + 1) target b.blocks.length)

/-- **What generating code for an instruction does.** -/
inductive Emitted (blocks : ℕ) (g : CodeGenerator) : CodeGenerator → Prop
  | straight {g' : CodeGenerator} (insts : List Inst) (h : Straight g g' insts) : Emitted blocks g g'
  | jump (target : ℕ) (htarget : target < blocks) :
    Emitted blocks g
      { g with builder := g.builder.terminate (.jump target), blockTerminated := true }
  | branch (cc : IntCC) (cond target : ℕ) (rest : List ℕ) (hstack : g.stack = cond :: rest)
    (htarget : target < blocks) :
    Emitted blocks g
      { g with
        stack := rest
        builder := (branching g.builder cc cond target).switchTo g.builder.blocks.length }
  | ret (insts : List Inst) (value : ℕ) (rest : List ℕ) (hstack : rest = g.stack.tail) :
    Emitted blocks g
      { g with
        stack := rest
        builder := (g.builder.emit insts).terminate (.ret value)
        blockTerminated := true }

variable {instr : Instruction} {blocks : ℕ}

section Generate

variable {cc : IntCC}

/-- **A value is computed**: names are taken off, code is emitted, and the name of its
last value is put on. -/
def Computes (g : CodeGenerator) (args : List ℕ) (insts : List Inst) (g' : CodeGenerator) : Prop :=
  ∃ rest, g.stack = args ++ rest ∧
    g' = { g with
      stack := (g.builder.nextValue + insts.length - 1) :: rest
      builder := g.builder.emit insts }

theorem emitted_binary {inst : ℕ → ℕ → Inst} (h : binary inst g = (.ok (), g')) :
    ∃ b a, Computes g [b, a] [inst a b] g' := by
  have h := succeeds_of_eq h
  simp only [binary, succeeds_bind, succeeds_pop, succeeds_ins, succeeds_push] at h
  obtain ⟨b, _, hstack, a, rest, rfl, -, rfl⟩ := h
  exact ⟨b, a, rest, hstack, rfl⟩

theorem emitted_unary {inst : ℕ → Inst} (h : unary inst g = (.ok (), g')) :
    ∃ a, Computes g [a] [inst a] g' := by
  have h := succeeds_of_eq h
  simp only [unary, succeeds_bind, succeeds_pop, succeeds_ins, succeeds_push] at h
  obtain ⟨a, rest, hstack, -, rfl⟩ := h
  exact ⟨a, rest, hstack, rfl⟩

theorem emitted_compare (h : compare cc g = (.ok (), g')) :
    ∃ b a, Computes g [b, a] [.icmp cc a b, .uextend g.builder.nextValue] g' := by
  have h := succeeds_of_eq h
  simp only [compare, succeeds_bind, succeeds_pop, succeeds_ins, succeeds_push] at h
  obtain ⟨b, _, hstack, a, rest, rfl, -, rfl⟩ := h
  exact ⟨b, a, rest, hstack, rfl⟩

theorem emitted_not (h : generateNot g = (.ok (), g')) :
    ∃ a, Computes g [a] [.iconst 0, .icmp .equal a g.builder.nextValue,
      .uextend (g.builder.nextValue + 1)] g' := by
  have h := succeeds_of_eq h
  simp only [generateNot, succeeds_bind, succeeds_pop, succeeds_ins, succeeds_push] at h
  obtain ⟨a, rest, hstack, -, rfl⟩ := h
  exact ⟨a, rest, hstack, rfl⟩

theorem emitted_context (h : generateContext g = (.ok (), g')) : Computes g [] [.iconst 0] g' := by
  have h := succeeds_of_eq h
  simp only [generateContext, callRuntime, succeeds_bind, succeeds_ins, succeeds_push] at h
  exact ⟨g.stack, rfl, h.2.symm⟩

theorem emitted_jumpIf {target : ℕ} (h : generateJumpIf blocks cc target g = (.ok (), g')) :
    ∃ cond rest, g.stack = cond :: rest ∧
      if target < blocks then
        g' = { g with
          stack := rest
          builder := (branching g.builder cc cond target).switchTo g.builder.blocks.length }
      else g' = { g with stack := rest } := by
  have h := succeeds_of_eq h
  simp only [generateJumpIf, succeeds_bind, succeeds_pop] at h
  obtain ⟨cond, rest, hstack, h⟩ := h
  refine ⟨cond, rest, hstack, ?_⟩
  split at h
  next hlt =>
    rw [if_pos hlt]
    simp only [succeeds_bind, succeeds_ins, succeeds_createBlock, terminate, switchToBlock,
      succeeds_modify] at h
    simpa [branching, Builder.emit, eq_comm] using h
  next hlt =>
    rw [if_neg hlt]
    simpa [succeeds_pure, eq_comm] using h

section Instructions

variable (h : generateInstruction blocks instr g = (.ok (), g'))
include h

theorem emitted_push (hop : instr.opcode = .push) :
    ∃ n, readOperandU64 instr = .ok n ∧ Computes g [] [.iconst (.ofNat 64 n)] g' := by
  have h := succeeds_of_eq h
  simp only [generateInstruction, hop, succeeds_bind, succeeds_ofResult, succeeds_ins,
    succeeds_push] at h
  obtain ⟨n, hn, -, rfl⟩ := h
  exact ⟨n, hn, g.stack, rfl, rfl⟩

theorem emitted_sLoad (hop : instr.opcode = .sLoad) : ∃ a, Computes g [a] [.iconst 0] g' := by
  have h := succeeds_of_eq h
  simp only [generateInstruction, hop, callRuntime, succeeds_bind, succeeds_pop, succeeds_ins,
    succeeds_push] at h
  obtain ⟨a, rest, hstack, -, rfl⟩ := h
  exact ⟨a, rest, hstack, rfl⟩

theorem emitted_pop (hop : instr.opcode = .pop) :
    ∃ a rest, g.stack = a :: rest ∧ g' = { g with stack := rest } := by
  have h := succeeds_of_eq h
  simp only [generateInstruction, hop, succeeds_bind, succeeds_pop, succeeds_pure] at h
  obtain ⟨a, rest, hstack, rfl⟩ := h
  exact ⟨a, rest, hstack, rfl⟩

theorem emitted_dup (hop : instr.opcode = .dup) :
    ∃ a rest, g.stack = a :: rest ∧ g' = { g with stack := a :: a :: rest } := by
  have h := succeeds_of_eq h
  simp only [generateInstruction, hop, succeeds_bind, succeeds_peek, succeeds_push] at h
  obtain ⟨a, rest, hstack, -, rfl⟩ := h
  exact ⟨a, rest, hstack, by rw [hstack]⟩

theorem emitted_swap (hop : instr.opcode = .swap) :
    ∃ a b rest, g.stack = a :: b :: rest ∧ g' = { g with stack := b :: a :: rest } := by
  have h := succeeds_of_eq h
  simp only [generateInstruction, hop, succeeds_bind, succeeds_pop, succeeds_push] at h
  obtain ⟨a, _, hstack, b, rest, rfl, -, -, rfl⟩ := h
  exact ⟨a, b, rest, hstack, rfl⟩

theorem emitted_loadLocal (hop : instr.opcode = .loadLocal) :
    ∃ a, g.locals[Virtual.index instr]? = some a ∧ g' = { g with stack := a :: g.stack } := by
  have h := succeeds_of_eq h
  simp only [generateInstruction, hop, generateLoadLocal, succeeds_bind, succeeds_ofResult,
    succeeds_get] at h
  obtain ⟨idx, hidx, h⟩ := h
  obtain rfl := readOperandU16_index hidx
  split at h
  next a ha =>
    simp only [succeeds_push] at h
    exact ⟨a, ha, h.2.symm⟩
  next => simp only [succeeds_fail] at h

theorem emitted_storeLocal (hop : instr.opcode = .storeLocal) :
    ∃ a rest, g.stack = a :: rest ∧ Virtual.index instr < g.locals.length ∧
      g' = { g with stack := rest, locals := g.locals.set (Virtual.index instr) a } := by
  have h := succeeds_of_eq h
  simp only [generateInstruction, hop, generateStoreLocal, succeeds_bind, succeeds_ofResult,
    succeeds_pop, succeeds_get] at h
  obtain ⟨idx, hidx, a, rest, hstack, h⟩ := h
  obtain rfl := readOperandU16_index hidx
  split at h
  next hlt =>
    simp only [succeeds_modify] at h
    exact ⟨a, rest, hstack, hlt, h.symm⟩
  next => simp only [succeeds_fail] at h

theorem emitted_sStore (hop : instr.opcode = .sStore) :
    ∃ a b rest, g.stack = a :: b :: rest ∧
      g' = { g with stack := rest, builder := g.builder.emit [.iconst 0] } := by
  have h := succeeds_of_eq h
  simp only [generateInstruction, hop, callRuntime, succeeds_bind, succeeds_pop, succeeds_ins,
    succeeds_pure] at h
  obtain ⟨a, _, hstack, b, rest, rfl, rfl⟩ := h
  exact ⟨a, b, rest, hstack, rfl⟩

/-- A jump ends the block, if there is a block to go to. -/
theorem emitted_jump (hop : instr.opcode = .jump) :
    if Virtual.index instr < blocks then
      g' = { g with
        builder := g.builder.terminate (.jump (Virtual.index instr))
        blockTerminated := true }
    else g' = g := by
  have h := succeeds_of_eq h
  simp only [generateInstruction, hop, generateJump, succeeds_bind, succeeds_ofResult] at h
  obtain ⟨idx, hidx, h⟩ := h
  obtain rfl := readOperandU16_index hidx
  split at h
  next hlt =>
    rw [if_pos hlt]
    simpa [terminate, setTerminated, eq_comm] using h
  next hlt =>
    rw [if_neg hlt]
    simpa only [succeeds_pure, eq_comm] using h

theorem emitted_ret (hop : instr.opcode = .ret) :
    (g.stack = [] ∧ g' = { g with
      builder := (g.builder.emit [.iconst 0]).terminate (.ret g.builder.nextValue)
      blockTerminated := true }) ∨
    ∃ a rest, g.stack = a :: rest ∧ g' = { g with
      stack := rest
      builder := g.builder.terminate (.ret a)
      blockTerminated := true } := by
  have h := succeeds_of_eq h
  simp only [generateInstruction, hop, generateReturn, returnValue, succeeds_bind,
    succeeds_get, terminate, setTerminated, succeeds_modify] at h
  cases hstack : g.stack with
  | nil =>
    refine .inl ⟨rfl, ?_⟩
    simp only [hstack, isEmpty_nil, if_true, succeeds_ins] at h
    exact hstack ▸ h.symm
  | cons a rest =>
    refine .inr ⟨a, rest, rfl, ?_⟩
    simp only [hstack, isEmpty_cons, Bool.false_eq_true, if_false, succeeds_pop] at h
    obtain ⟨_, _, heq, rfl⟩ := h
    cases heq
    rfl

theorem jumpIf_eq (hop : instr.opcode = .jumpIf) :
    generateJumpIf blocks .notEqual (Virtual.index instr) g = (.ok (), g') := by
  simp only [generateInstruction, hop] at h
  obtain ⟨idx, hidx, h⟩ := ofResult_bind_eq_ok h
  exact readOperandU16_index hidx ▸ h

theorem jumpIfNot_eq (hop : instr.opcode = .jumpIfNot) :
    generateJumpIf blocks .equal (Virtual.index instr) g = (.ok (), g') := by
  simp only [generateInstruction, hop] at h
  obtain ⟨idx, hidx, h⟩ := ofResult_bind_eq_ok h
  exact readOperandU16_index hidx ▸ h

end Instructions

/-! ### The builder and the names -/

/-- The virtual stack of the generator. -/
def CodeGenerator.virtual (g : CodeGenerator) : Virtual := ⟨g.stack, g.locals⟩

theorem Computes.emitted {args : List ℕ} {insts : List Inst} (h : Computes g args insts g')
    (hne : 0 < insts.length) (hafter : ∀ label rest,
      Virtual.after label instr ⟨args ++ rest, g.locals⟩ = some ⟨label :: rest, g.locals⟩) :
    Emitted blocks g g' ∧ g.virtual.after (g'.stack.headD 0) instr = some g'.virtual := by
  obtain ⟨rest, hstack, rfl⟩ := h
  refine ⟨.straight insts ⟨rfl, rfl, rfl, fun v hv => ?_⟩, ?_⟩
  · have hv : v = g.builder.nextValue + insts.length - 1 ∨ v ∈ rest ∨ v ∈ g.locals := by
      simpa using hv
    rcases hv with rfl | hv | hv
    · exact .inr (by omega)
    · exact .inl (by simp [hstack, hv])
    · exact .inl (by simp [hv])
  · unfold CodeGenerator.virtual
    rw [hstack]
    exact hafter _ rest

theorem emitted_move {before stack locals : List ℕ} (insts : List Inst) (hstack : g.stack = before)
    (hlength : locals.length = g.locals.length)
    (hnames : ∀ v ∈ stack ++ locals, v ∈ before ++ g.locals)
    (hafter : ∀ label, Virtual.after label instr ⟨before, g.locals⟩ = some ⟨stack, locals⟩) :
    let g' := { g with stack := stack, locals := locals, builder := g.builder.emit insts }
    Emitted blocks g g' ∧ g.virtual.after (g'.stack.headD 0) instr = some g'.virtual := by
  subst hstack
  exact ⟨.straight insts ⟨rfl, rfl, hlength, fun v hv => .inl (hnames v hv)⟩, hafter _⟩

theorem emitted_generateJumpIf {target : ℕ} (h : generateJumpIf blocks cc target g = (.ok (), g'))
    (hafter : ∀ label cond rest,
      Virtual.after label instr ⟨cond :: rest, g.locals⟩ = some ⟨rest, g.locals⟩) :
    Emitted blocks g g' ∧ g.virtual.after (g'.stack.headD 0) instr = some g'.virtual := by
  obtain ⟨cond, rest, hstack, h⟩ := emitted_jumpIf h
  split at h <;> subst h
  next hlt =>
    refine ⟨.branch cc cond target rest hstack hlt, ?_⟩
    unfold CodeGenerator.virtual
    rw [hstack]
    exact hafter _ cond rest
  next =>
    exact emitted_move [] hstack rfl (fun v => mem_cons_of_mem cond) fun _ => hafter _ cond rest

/-- Generating code for an instruction appends, ends the block, or branches; and the
names change as `Virtual.after` says. -/
theorem generateInstruction_emitted (h : generateInstruction blocks instr g = (.ok (), g')) :
    Emitted blocks g g' ∧ g.virtual.after (g'.stack.headD 0) instr = some g'.virtual := by
  obtain ⟨opcode, operand⟩ := instr
  cases opcode with
  | push =>
    obtain ⟨n, -, h⟩ := emitted_push h rfl
    exact h.emitted one_pos fun _ _ => rfl
  | add | sub | mul | div | mod | and | or | bitAnd | bitOr | bitXor | shl | shr =>
    obtain ⟨b, a, h⟩ := emitted_binary h
    exact h.emitted one_pos fun _ _ => rfl
  | neg | bitNot =>
    obtain ⟨a, h⟩ := emitted_unary h
    exact h.emitted one_pos fun _ _ => rfl
  | eq | ne | lt | le | gt | ge =>
    obtain ⟨b, a, h⟩ := emitted_compare h
    exact h.emitted two_pos fun _ _ => rfl
  | not =>
    obtain ⟨a, h⟩ := emitted_not h
    exact h.emitted (succ_pos 2) fun _ _ => rfl
  | sLoad =>
    obtain ⟨a, h⟩ := emitted_sLoad h rfl
    exact h.emitted one_pos fun _ _ => rfl
  | caller | callValue | address | blockNumber | timestamp | gas =>
    exact (emitted_context h).emitted one_pos fun _ _ => rfl
  | pop =>
    obtain ⟨a, rest, hstack, rfl⟩ := emitted_pop h rfl
    exact emitted_move [] hstack rfl (fun v => mem_cons_of_mem a) fun _ => rfl
  | dup =>
    obtain ⟨a, rest, hstack, rfl⟩ := emitted_dup h rfl
    exact emitted_move [] hstack rfl (fun v hv => by simpa using hv) fun _ => rfl
  | swap =>
    obtain ⟨a, b, rest, hstack, rfl⟩ := emitted_swap h rfl
    exact emitted_move [] hstack rfl (fun v hv => by simp at hv ⊢; tauto) fun _ => rfl
  | loadLocal =>
    obtain ⟨a, ha, rfl⟩ := emitted_loadLocal h rfl
    have hmem := mem_of_getElem? ha
    refine emitted_move [] rfl rfl (fun v hv => by simp at hv ⊢; grind) fun _ => ?_
    simp [Virtual.after, Virtual.put, ha]
  | storeLocal =>
    obtain ⟨a, rest, hstack, -, rfl⟩ := emitted_storeLocal h rfl
    refine emitted_move [] hstack length_set (fun v hv => ?_) fun _ => rfl
    rcases mem_append.mp hv with hv | hv
    · simp [hv]
    · rcases mem_or_eq_of_mem_set hv with hv | rfl <;> simp [*]
  | sStore =>
    obtain ⟨a, b, rest, hstack, rfl⟩ := emitted_sStore h rfl
    exact emitted_move _ hstack rfl (fun v hv => by simp at hv ⊢; tauto) fun _ => rfl
  | jump =>
    have h := emitted_jump h rfl
    split at h <;> subst h
    next hlt => exact ⟨.jump _ hlt, rfl⟩
    next => exact emitted_move [] rfl rfl (fun _ hv => hv) fun _ => rfl
  | jumpIf => exact emitted_generateJumpIf (jumpIf_eq h rfl) fun _ _ _ => rfl
  | jumpIfNot => exact emitted_generateJumpIf (jumpIfNot_eq h rfl) fun _ _ _ => rfl
  | ret =>
    unfold CodeGenerator.virtual
    obtain ⟨hstack, rfl⟩ | ⟨a, rest, hstack, rfl⟩ := emitted_ret h rfl
    · exact ⟨.ret _ _ _ (by rw [hstack]; rfl), by rw [hstack]; rfl⟩
    · exact ⟨.ret [] _ _ (by rw [hstack]; rfl), by rw [hstack]; rfl⟩
  | halt | nop =>
    cases h
    exact emitted_move [] rfl rfl (fun _ hv => hv) fun _ => rfl
  | _ => cases h

end Generate

/-! ## The generator on its way -/

/-- **The generator after `i` instructions**: the blocks of the others are empty. -/
structure Stage (total blocks i : ℕ) (g : CodeGenerator) : Prop where
  length : blocks ≤ g.builder.blocks.length
  /-- The blocks to come. -/
  pristine : ∀ j, i ≤ j → 0 < j → j < blocks → g.builder.blocks[j]? = some .empty
  away : g.builder.current < max i 1 ∨ blocks ≤ g.builder.current
  isOpen : g.blockTerminated = false → ∃ n, g.builder.Open n
  fresh : ∀ v ∈ g.stack ++ g.locals, v < g.builder.nextValue
  locals : g.locals.length = total

variable {total i : ℕ}

section Stages

/-- Where the generator goes on for an instruction. -/
def entered (i : ℕ) (g : CodeGenerator) : CodeGenerator :=
  if 0 < i then
    { g with
      builder := (if g.blockTerminated then g.builder else g.builder.terminate (.jump i)).switchTo i
      blockTerminated := false }
  else g

theorem enterBlock_eq : enterBlock i g = (.ok (), entered i g) := by
  unfold enterBlock entered
  split
  · cases hterm : g.blockTerminated with
    | true | false => simp [bind_ok _ (rfl : get g = (.ok g, g)), hterm]; rfl
  · rfl

/-- **The generator at the beginning of an instruction**, with so many instructions in its
block. -/
structure Entered (total blocks i n : ℕ) (g : CodeGenerator) : Prop where
  isOpen : g.builder.Open n
  current : g.builder.current = i
  terminated : g.blockTerminated = false
  index : i < blocks
  length : blocks ≤ g.builder.blocks.length
  pristine : ∀ j, i < j → j < blocks → g.builder.blocks[j]? = some .empty
  fresh : ∀ v ∈ g.stack ++ g.locals, v < g.builder.nextValue
  locals : g.locals.length = total

@[simp] theorem entered_stack : (entered i g).stack = g.stack := by
  unfold entered
  split <;> rfl

@[simp] theorem entered_locals : (entered i g).locals = g.locals := by
  unfold entered
  split <;> rfl

theorem entered_builder (hi : 0 < i) : (entered i g).builder =
    (if g.blockTerminated then g.builder else g.builder.terminate (.jump i)).switchTo i := by
  unfold entered
  rw [if_pos hi]

/-- The block of the next instruction is entered; the block before leads to it. -/
theorem Stage.entered (h : Stage total blocks i g) (hi : 0 < i) (hblocks : i < blocks) :
    Entered total blocks i 0 (entered i g) ∧
      Ssa.Grows g.builder.blocks (entered i g).builder.blocks := by
  obtain ⟨b, hb, hbuilder⟩ : ∃ b, b = (if g.blockTerminated then g.builder
      else g.builder.terminate (.jump i)) ∧ (Jit.entered i g).builder = b.switchTo i :=
    ⟨_, rfl, entered_builder hi⟩
  -- the blocks to come are not the current one
  have hkeep : ∀ j, i ≤ j → j < blocks → b.blocks[j]? = some .empty := by
    intro j hij hj
    rw [hb]
    split
    · exact h.pristine j hij (hi.trans_le hij) hj
    · have haway := h.away
      rw [Builder.terminate_getElem? (by omega)]
      exact h.pristine j hij (hi.trans_le hij) hj
  have hnext : b.nextValue = g.builder.nextValue := by
    rw [hb]
    split <;> rfl
  have hlength : b.blocks.length = g.builder.blocks.length := by
    rw [hb]
    split <;> simp
  have hgrows : Ssa.Grows g.builder.blocks b.blocks := by
    rw [hb]
    split
    · exact .refl _
    next hterm =>
      obtain ⟨n, hopen⟩ := h.isOpen (by simpa using hterm)
      exact Builder.grows_terminate hopen
  refine ⟨⟨?_, ?_, ?_, hblocks, ?_, ?_, ?_, ?_⟩, ?_⟩
  · rw [hbuilder]
    exact .of_empty (hkeep i le_rfl hblocks)
  · rw [hbuilder]
    rfl
  · unfold Jit.entered
    rw [if_pos hi]
  · rw [hbuilder]
    exact h.length.trans hlength.ge
  · rw [hbuilder]
    exact fun j hij hj => hkeep j hij.le hj
  · rw [entered_stack, entered_locals, hbuilder]
    exact fun v hv => (h.fresh v hv).trans_eq hnext.symm
  · rw [entered_locals]
    exact h.locals
  · rw [hbuilder]
    exact hgrows

/-- Code has been generated for an instruction. -/
theorem Entered.emitted {n : ℕ} (h : Entered total blocks i n g) (he : Emitted blocks g g') :
    Stage total blocks (i + 1) g' ∧ Ssa.Grows g.builder.blocks g'.builder.blocks := by
  have hcurrent := h.current
  have hindex := h.index
  have hother : ∀ j, i + 1 ≤ j → j ≠ g.builder.current := fun j hj => by omega
  cases he with
  | straight insts hs =>
    have hb := hs.builder
    refine ⟨⟨?_, ?_, ?_, ?_, ?_, ?_⟩, ?_⟩
    · rw [hb, Builder.emit_length]
      exact h.length
    · intro j hij _ hj
      rw [hb, Builder.emit_getElem? (hother j hij)]
      exact h.pristine j hij hj
    · rw [hb, Builder.emit_current]
      exact .inl (by omega)
    · intro _
      rw [hb]
      exact ⟨_, h.isOpen.emit⟩
    · intro v hv
      rw [hb, Builder.emit_nextValue]
      obtain hv | hv := hs.names v hv
      · exact (h.fresh v hv).trans_le (le_add_right _ _)
      · exact hv.2
    · exact hs.locals.trans h.locals
    · rw [hb]
      exact Builder.grows_emit h.isOpen
  | jump target htarget =>
    refine ⟨⟨?_, ?_, .inl ?_, nofun, h.fresh, h.locals⟩, Builder.grows_terminate h.isOpen⟩
    · exact h.length.trans Builder.terminate_length.ge
    · intro j hij _ hj
      exact (Builder.terminate_getElem? (hother j hij)).trans (h.pristine j hij hj)
    · show g.builder.current < _
      omega
  | branch cc cond target rest hstack htarget =>
    have hopen := (h.isOpen.emit (l := [.iconst 0, .icmp cc cond g.builder.nextValue])).createBlock
    refine ⟨⟨?_, ?_, .inr h.length, fun _ => ⟨0, ?_⟩, ?_, h.locals⟩, ?_⟩
    · show _ ≤ (Builder.terminate _ _).blocks.length
      simp only [Builder.terminate_length, Builder.createBlock_length, Builder.emit_length]
      exact h.length.trans (le_succ _)
    · intro j hij _ hj
      have hlt : j < g.builder.blocks.length := hj.trans_le h.length
      refine (Builder.terminate_getElem? ?_).trans ?_
      · exact hother j hij
      · rw [Builder.createBlock_getElem? (by simpa using hlt), Builder.emit_getElem? (hother j hij)]
        exact h.pristine j hij hj
    · simpa [branching] using (h.isOpen.emit (l := [.iconst 0, .icmp cc cond g.builder.nextValue])).branch
    · intro v hv
      have hv : v ∈ g.stack ++ g.locals := by
        rw [hstack]
        simp at hv ⊢
        tauto
      refine (h.fresh v hv).trans_le ?_
      show _ ≤ (g.builder.emit _).nextValue
      rw [Builder.emit_nextValue]
      exact le_add_right _ _
    · exact ((Builder.grows_emit h.isOpen).trans (Builder.grows_createBlock _)).trans
        (Builder.grows_terminate hopen)
  | ret insts value rest hstack =>
    refine ⟨⟨?_, ?_, .inl ?_, nofun, ?_, h.locals⟩,
      (Builder.grows_emit h.isOpen).trans (Builder.grows_terminate h.isOpen.emit)⟩
    · exact h.length.trans (Builder.terminate_length.trans Builder.emit_length).ge
    · intro j hij _ hj
      refine (Builder.terminate_getElem? ?_).trans ?_
      · rw [Builder.emit_current]
        exact hother j hij
      · rw [Builder.emit_getElem? (hother j hij)]
        exact h.pristine j hij hj
    · show (g.builder.emit insts).current < _
      rw [Builder.emit_current]
      omega
    · intro v hv
      have hv : v ∈ g.stack ++ g.locals := by
        rw [hstack] at hv
        exact mem_append.mpr ((mem_append.mp hv).imp_left mem_of_mem_tail)
      refine (h.fresh v hv).trans_le ?_
      show _ ≤ (g.builder.emit _).nextValue
      rw [Builder.emit_nextValue]
      exact le_add_right _ _

/-! ### The start -/

theorem iterate_createBlock (b : Builder Inst) (k : ℕ) :
    Builder.createBlock^[k] b = { b with blocks := b.blocks ++ replicate k .empty } := by
  induction k generalizing b with
  | zero => simp
  | succ k ih =>
    rw [Function.iterate_succ_apply, ih]
    simp [Builder.createBlock, replicate_succ]

theorem iterate_ins (b : Builder Inst) (inst : Inst) (k : ℕ) :
    (fun b : Builder Inst => b.ins inst)^[k] b = b.emit (replicate k inst) := by
  induction k generalizing b with
  | zero => rfl
  | succ k ih =>
    rw [Function.iterate_succ_apply, ih]
    rfl

/-- The entry block. -/
def allocated (total : ℕ) : Builder Inst :=
  Builder.emit ⟨[.empty], 0, 1⟩ (replicate total (.iconst 0))

theorem entry_eq (total blocks : ℕ) : entry total blocks =
    { allocated total with
      blocks := (allocated total).blocks ++ replicate (blocks - 1) .empty } := by
  unfold entry allocated
  dsimp only
  rw [iterate_ins, iterate_createBlock]

theorem allocated_open (total : ℕ) : (allocated total).Open total := by
  have hopen : (Builder.mk [.empty] 0 1 : Builder Inst).Open 0 := .of_empty rfl
  simpa [allocated] using hopen.emit (l := replicate total (.iconst 0))

theorem entry_grows (total blocks : ℕ) :
    Ssa.Grows (allocated total).blocks (entry total blocks).blocks := by
  rw [entry_eq]
  intro j block hj
  exact ⟨block, (List.getElem?_append_left (List.getElem?_eq_some_iff.mp hj).1).trans hj, .refl _⟩

theorem start_entered {boundsCheck : Bool} (hblocks : 0 < blocks) :
    Entered total blocks 0 total (start total blocks boundsCheck) := by
  have hlength : (allocated total).blocks.length = 1 := by simp [allocated]
  have hnext : (allocated total).nextValue = 1 + total := by simp [allocated]
  obtain ⟨block, hblock, hopen, hn⟩ := allocated_open total
  have hcurrent : (allocated total).current = 0 := by simp [allocated]
  refine ⟨⟨block, ?_, hopen, hn⟩, ?_, rfl, hblocks, ?_, ?_, ?_, ?_⟩
  all_goals
    simp only [start, entry_eq]
  · rw [hcurrent] at hblock ⊢
    rw [getElem?_append_left (by omega)]
    exact hblock
  · exact hcurrent
  · simp [hlength]
    omega
  · intro j hij hj
    rw [getElem?_append_right (by omega), getElem?_replicate, if_pos (by omega)]
  · intro v hv
    rw [hnext]
    exact (by simpa using hv : 1 ≤ v ∧ v < 1 + total).2
  · simp

end Stages

/-! ## Whole functions -/

section Trace

variable {instructions : List Instruction}

theorem generateFrom_append (l l' : List Instruction) :
    generateFrom blocks i (l ++ l') =
      generateFrom blocks i l >>= fun _ => generateFrom blocks (i + l.length) l' := by
  induction l generalizing i with
  | nil => rfl
  | cons instr rest ih =>
    rw [cons_append, generateFrom, generateFrom, ih, bind_assoc]
    simp only [bind_assoc, length_cons, add_comm rest.length 1, add_assoc]

/-- **The generator after the first `i` instructions.** -/
def stageAt (blocks : ℕ) (instructions : List Instruction) (g : CodeGenerator) (i : ℕ) :
    CodeGenerator :=
  (generateFrom blocks 0 (instructions.take i) g).2

section

variable (h : generateFrom blocks 0 instructions g = (.ok (), g'))
include h

theorem generateFrom_take (i : ℕ) :
    generateFrom blocks 0 (instructions.take i) g = (.ok (), stageAt blocks instructions g i) := by
  rw [← take_append_drop i instructions, generateFrom_append] at h
  obtain ⟨u, g₁, htake, -⟩ := bind_eq_ok.mp h
  unfold stageAt
  rw [htake]

/-- Code for the next instruction is generated. -/
theorem stageAt_succ {instr : Instruction} (hinstr : instructions[i]? = some instr) :
    generateInstruction blocks instr (entered i (stageAt blocks instructions g i)) =
      (.ok (), stageAt blocks instructions g (i + 1)) := by
  obtain ⟨hi, rfl⟩ := List.getElem?_eq_some_iff.mp hinstr
  have hsucc := generateFrom_take h (i + 1)
  rw [take_add_one, hinstr, Option.toList_some, generateFrom_append,
    bind_ok _ (generateFrom_take h i), length_take, min_eq_left hi.le, zero_add,
    generateFrom, bind_ok _ enterBlock_eq] at hsucc
  obtain ⟨u, g₁, hgen, hnil⟩ := bind_eq_ok.mp hsucc
  cases hnil
  exact hgen

end

/-- Where the generator enters the block of an instruction. -/
abbrev enteredAt (blocks : ℕ) (instructions : List Instruction) (g : CodeGenerator) (i : ℕ) :
    CodeGenerator :=
  entered i (stageAt blocks instructions g i)

variable {boundsCheck : Bool}

/-- Only the entry block has instructions when it is entered. -/
def firstIndex (total i : ℕ) : ℕ := if i = 0 then total else 0

section

variable (hblocks : instructions.length ≤ blocks)
  (h : generateFrom blocks 0 instructions (start total blocks boundsCheck) = (.ok (), g'))
  (hi : i < instructions.length)
include hblocks h hi

/-- The generator gets through all instructions. -/
theorem stages : let g := start total blocks boundsCheck
    Entered total blocks i (firstIndex total i) (enteredAt blocks instructions g i) ∧
      Stage total blocks (i + 1) (stageAt blocks instructions g (i + 1)) ∧
      Ssa.Grows (enteredAt blocks instructions g i).builder.blocks
        (stageAt blocks instructions g (i + 1)).builder.blocks := by
  have hstep : ∀ j (hj : j < instructions.length) n, Entered total blocks j n
      (enteredAt blocks instructions (start total blocks boundsCheck) j) → _ :=
    fun j hj n hentered => hentered.emitted
      (generateInstruction_emitted (stageAt_succ h (getElem?_eq_getElem hj))).1
  induction i with
  | zero =>
    have hentered : Entered total blocks 0 total (start total blocks boundsCheck) :=
      start_entered (hi.trans_le hblocks)
    exact ⟨hentered, hstep 0 hi total hentered⟩
  | succ i ih =>
    obtain ⟨-, hstage, -⟩ := ih (lt_of_succ_lt hi)
    have hentered := (hstage.entered (succ_pos i) (hi.trans_le hblocks)).1
    exact ⟨hentered, hstep (i + 1) hi 0 hentered⟩

theorem stage_grows :
    Ssa.Grows (stageAt blocks instructions (start total blocks boundsCheck) (i + 1)).builder.blocks
      g'.builder.blocks := by
  obtain ⟨k, hk⟩ := Nat.exists_eq_add_of_le hi
  induction k generalizing i with
  | zero =>
    have hend := generateFrom_take h instructions.length
    rw [take_length, h] at hend
    rw [← show instructions.length = i + 1 by omega, ← (Prod.mk.inj hend).2]
    exact .refl _
  | succ k ih =>
    have hlt : i + 1 < instructions.length := by omega
    obtain ⟨-, hstage, -⟩ := stages hblocks h hi
    obtain ⟨-, -, hgrows⟩ := stages hblocks h hlt
    exact ((hstage.entered (succ_pos i) (hlt.trans_le hblocks)).2.trans hgrows).trans
      (ih hlt (by omega))

end

/-- The blocks at every instruction grow into the function. -/
theorem generate_grows {paramCount localCount : ℕ} {body : List (Block Inst)}
    (h : generate paramCount localCount boundsCheck instructions = .ok body)
    (hi : i < instructions.length) :
    ∃ g', generateFrom instructions.length 0 instructions
        (start (paramCount + localCount) instructions.length boundsCheck) = (.ok (), g') ∧
      Ssa.Grows g'.builder.blocks body := by
  have hblocks : max 1 instructions.length = instructions.length := by omega
  unfold generate at h
  dsimp only at h
  rw [hblocks] at h
  split at h
  next g hg =>
    cases h
    obtain ⟨u, g', hfrom, hfinish⟩ := bind_eq_ok.mp hg
    refine ⟨g', hfrom, ?_⟩
    have hfinish := succeeds_of_eq hfinish
    simp only [finish, succeeds_bind, succeeds_get] at hfinish
    split at hfinish
    next hterm =>
      simp only [succeeds_bind, succeeds_ins, terminate, succeeds_modify] at hfinish
      subst hfinish
      have hlast := (stages le_rfl hfrom (sub_one_lt_of_lt hi)).2.1
      rw [Nat.sub_add_cancel (by omega)] at hlast
      have hend := generateFrom_take hfrom instructions.length
      rw [take_length, hfrom] at hend
      rw [← (Prod.mk.inj hend).2] at hlast
      obtain ⟨n, hopen⟩ := hlast.isOpen (by simpa using hterm)
      exact (Builder.grows_ins hopen).trans (Builder.grows_terminate hopen.ins)
    next =>
      simp only [succeeds_pure] at hfinish
      subst hfinish
      exact .refl _
  · cases h
  · cases h

end Trace

end Qfc.Qvm.Jit
