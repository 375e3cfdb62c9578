import QfcCore.Qvm.Parts
import QfcCore.Qvm.JitStack
import QfcCore.Qvm.LowWord

/-!
# Native code of single instructions

The names on the stack of the generator *hold* the stack of an executor, if their values
are its low words, and so for the local variables. Code for an instruction that neither
jumps nor returns simulates it (`Simulates`): executed where the names hold one executor,
it computes values for which the names of the generator afterwards hold the next one.

That is so under a condition on the instruction and its operands (`agrees`). Arithmetic
modulo a power of two and bitwise operations always act on low words. Comparisons,
divisions and conditions need numbers that fit in a word, shifts need an amount below 64,
and logical operators, which are bitwise in native code, need zero or one. Operands of
instructions are in little endian in native code and in big endian for the interpreter.
The runtime always answers zero.
-/

namespace Qfc.Qvm.Jit

open Ssa (Block Builder Terminator)
open Function List Act Executor

/-- The local variables of the current frame. -/
def currentLocals (s : Executor) : List Value := (s.frames.head?.map CallFrame.locals).getD []

/-- **The names of a generator hold an executor.** -/
structure Holds (g : CodeGenerator) (env : ℕ → BitVec 64) (s : Executor) : Prop where
  stack : s.stack.values.map Value.low = g.stack.map env
  /-- A local variable that does not exist yet is zero. -/
  locals : ∀ (j v : ℕ), g.locals[j]? = some v →
    env v = (((currentLocals s)[j]?).getD .unit).low

/-- **The emitted code simulates an instruction.** -/
def Simulates (g g' : CodeGenerator) (s s' : Executor) : Prop :=
  ∃ insts, g'.builder = g.builder.emit insts ∧ g'.blockTerminated = g.blockTerminated ∧
    ∀ env, Holds g env s → ∃ env',
      Builder.evalFrom Inst.eval insts g.builder.nextValue env = some env' ∧ Holds g' env' s'

/-- Two numbers or two truth values. -/
def sameKind : Value → Value → Bool
  | .u256 _, .u256 _ => true
  | .bool _, .bool _ => true
  | _, _ => false

/-- **The operands of an operator** for which it acts on low words. -/
def operandsAgree : Opcode → List Value → Bool
  | .div, y :: x :: _ | .mod, y :: x :: _ => x.small && y.small && y.low ≠ 0
  | .eq, y :: x :: _ | .ne, y :: x :: _ => x.small && y.small && sameKind x y
  | .lt, y :: x :: _ | .le, y :: x :: _ | .gt, y :: x :: _ | .ge, y :: x :: _ =>
    x.small && y.small
  | .and, y :: x :: _ | .or, y :: x :: _ => x.isFlag && y.isFlag
  | .not, x :: _ => x.small
  | .shl, y :: _ => y.asU256.any (fun n => n.val < 64)
  | .shr, y :: x :: _ => x.small && y.asU256.any (fun n => n.val < 64)
  | _, _ => true

variable {flow : ControlFlow} {blake3 : Bytes → H256} {instr : Instruction} {g' g : CodeGenerator}
  {s' s : Executor} {blocks : ℕ}

section Simulation

variable (hfresh : ∀ v ∈ g.stack ++ g.locals, v < g.builder.nextValue)
include hfresh

theorem Holds.locals_of_lt {env env' : ℕ → BitVec 64} (h : Holds g env s)
    (henv : ∀ v < g.builder.nextValue, env' v = env v)
    (hlocals : currentLocals s' = currentLocals s) (j v : ℕ) (hv : g.locals[j]? = some v) :
    env' v = (((currentLocals s')[j]?).getD .unit).low := by
  rw [henv v (hfresh v (mem_append_right _ (mem_of_getElem? hv))), hlocals]
  exact h.locals j v hv

/-- An instruction takes values off and puts its result on. -/
theorem simulates_put {args : List ℕ} {insts : List Inst} (hc : Computes g args insts g')
    (operands : List Value) {restValues : List Value} {result : Value}
    (hlength : operands.length = args.length) (hvalues : s.stack.values = operands ++ restValues)
    (hvalues' : s'.stack.values = result :: restValues)
    (hlocals : currentLocals s' = currentLocals s)
    (heval : ∀ env, operands.map Value.low = args.map env → ∃ env',
      Builder.evalFrom Inst.eval insts g.builder.nextValue env = some env' ∧
        env' (g.builder.nextValue + insts.length - 1) = result.low) :
    Simulates g g' s s' := by
  obtain ⟨rest, hstack, rfl⟩ := hc
  refine ⟨insts, rfl, rfl, fun env henv => ?_⟩
  have hmap := henv.stack
  rw [hstack, hvalues, map_append, map_append] at hmap
  obtain ⟨hargs, hrest⟩ := append_inj hmap (by simpa using hlength)
  obtain ⟨env', heval, hresult⟩ := heval env hargs
  have hold : ∀ v < g.builder.nextValue, env' v = env v := fun v hv =>
    Builder.evalFrom_of_lt heval hv
  refine ⟨env', heval, ?_, henv.locals_of_lt hfresh hold hlocals⟩
  rw [hvalues', map_cons, map_cons, hresult, hrest]
  refine congrArg _ (map_congr_left fun v hv => (hold v (hfresh v ?_)).symm)
  rw [hstack]
  simp [hv]

theorem simulates_move (insts : List Inst) {stack : List ℕ} {env' : (ℕ → BitVec 64) → ℕ → BitVec 64}
    (heval : ∀ env, Builder.evalFrom Inst.eval insts g.builder.nextValue env = some (env' env))
    (hlocals : currentLocals s' = currentLocals s) (hnames : ∀ v ∈ stack, v ∈ g.stack ++ g.locals)
    (hstack : ∀ env, Holds g env s → s'.stack.values.map Value.low = stack.map env) :
    Simulates g { g with stack := stack, builder := g.builder.emit insts } s s' := by
  refine ⟨insts, rfl, rfl, fun env henv => ⟨env' env, heval env, ?_, ?_⟩⟩
  · rw [hstack env henv]
    refine map_congr_left fun v hv => ?_
    exact (Builder.evalFrom_of_lt (heval env) (hfresh v (hnames v hv))).symm
  · exact henv.locals_of_lt hfresh (fun v hv => Builder.evalFrom_of_lt (heval env) hv) hlocals

/-! ## Families of instructions -/

section Families

variable {α : Type} {operand : Instr α} {parse : Value → Option α} {opcode : Opcode}
  {inst : ℕ → ℕ → Inst}

section Two

variable (htakes : Takes operand parse) (hagrees : operandsAgree opcode s.stack.values = true)
  {f : α → α → Value}
include htakes hagrees

theorem simulates_two {insts : ℕ → ℕ → List Inst} (h : Executor.binary operand f s = (.ok flow, s'))
    (hgen : ∃ j i, Computes g [j, i] (insts i j) g')
    (hword : ∀ y x rest b a, operandsAgree opcode (y :: x :: rest) = true → parse y = some b →
      parse x = some a → ∀ env i j, env i = x.low → env j = y.low → ∃ env',
        Builder.evalFrom Inst.eval (insts i j) g.builder.nextValue env = some env' ∧
          env' (g.builder.nextValue + (insts i j).length - 1) = (f a b).low) :
    flow = .next ∧ Simulates g g' s s' := by
  have htakes : ∀ s Q, operand.Succeeds s Q ↔ _ := htakes
  have h := succeeds_self h
  simp only [Executor.binary, succeeds_bind, Executor.succeeds_push, succeeds_pure, htakes] at h
  obtain ⟨y, hy, b, hb, x, hx, a, ha, _, rfl, rfl⟩ := h
  obtain ⟨tail, hvalues⟩ := head?_eq_some_iff.mp hy
  have hx : s.stack.values.tail.head? = some x := hx
  rw [hvalues] at hx hagrees
  obtain ⟨rest, rfl⟩ : ∃ rest, tail = x :: rest := head?_eq_some_iff.mp hx
  have hvalues' : f a b :: s.stack.values.tail.tail = f a b :: rest := by rw [hvalues]; rfl
  obtain ⟨j, i, hc⟩ := hgen
  refine ⟨rfl, simulates_put hfresh hc [y, x] rfl hvalues hvalues' rfl fun env henv => ?_⟩
  obtain ⟨hy, hx⟩ : y.low = env j ∧ x.low = env i := by simpa using henv
  exact hword y x rest b a hagrees hb ha env i j hx.symm hy.symm

theorem simulates_binary (h : Executor.binary operand f s = (.ok flow, s'))
    (hgen : binary inst g = (.ok (), g'))
    (hword : ∀ y x rest b a, operandsAgree opcode (y :: x :: rest) = true → parse y = some b →
      parse x = some a → ∀ env i j, env i = x.low → env j = y.low →
      (inst i j).eval env = some (f a b).low) : flow = .next ∧ Simulates g g' s s' := by
  refine simulates_two hfresh htakes hagrees h (emitted_binary hgen) ?_
  intro y x rest b a hop hb ha env i j hi hj
  have heval := hword y x rest b a hop hb ha env i j hi hj
  exact ⟨_, Builder.evalFrom_singleton heval, update_self ..⟩

theorem simulates_compare {f : α → α → Bool} {cc : IntCC}
    (h : Executor.binary operand (fun a b => .bool (f a b)) s = (.ok flow, s'))
    (hgen : compare cc g = (.ok (), g'))
    (hword : ∀ y x rest b a, operandsAgree opcode (y :: x :: rest) = true → parse y = some b →
      parse x = some a → cc.holds x.low y.low = f a b) :
    flow = .next ∧ Simulates g g' s s' := by
  refine simulates_two hfresh htakes hagrees h (emitted_compare hgen) ?_
  intro y x rest b a hop hb ha env i j hi hj
  have hholds := hword y x rest b a hop hb ha
  rw [← hi, ← hj] at hholds
  refine ⟨_, rfl, ?_⟩
  simp [hholds, Value.low]

end Two

/-- An operation on numbers that acts on low words. -/
theorem simulates_arithmetic {op : U256 → U256 → U256} {wordOp : BitVec 64 → BitVec 64 → BitVec 64}
    (h : Executor.binary Executor.popU256 (fun a b => .u256 (op a b)) s = (.ok flow, s'))
    (hgen : binary inst g = (.ok (), g'))
    (heval : ∀ i j env, (inst i j).eval env = some (wordOp (env i) (env j)))
    (hop : ∀ a b, word (op a b) = wordOp (word a) (word b)) :
    flow = .next ∧ Simulates g g' s s' := by
  have hagrees : operandsAgree .add s.stack.values = true := rfl
  refine simulates_binary hfresh (takes_popAs Value.asU256 "u256") hagrees h hgen ?_
  intro y x rest b a _ hb ha env i j hi hj
  rw [heval, hi, hj, Value.low_of_asU256 hb, Value.low_of_asU256 ha, Value.low_u256, hop]

section One

variable (htakes : Takes operand parse) {f : α → Value}
include htakes

theorem simulates_one {insts : ℕ → List Inst} (h : Executor.unary operand f s = (.ok flow, s'))
    (hgen : ∃ i, Computes g [i] (insts i) g') (hagrees : operandsAgree opcode s.stack.values = true)
    (hword : ∀ x rest a, operandsAgree opcode (x :: rest) = true → parse x = some a →
      ∀ env i, i < g.builder.nextValue → env i = x.low → ∃ env',
        Builder.evalFrom Inst.eval (insts i) g.builder.nextValue env = some env' ∧
          env' (g.builder.nextValue + (insts i).length - 1) = (f a).low) :
    flow = .next ∧ Simulates g g' s s' := by
  have htakes : ∀ s Q, operand.Succeeds s Q ↔ _ := htakes
  have h := succeeds_self h
  simp only [Executor.unary, succeeds_bind, Executor.succeeds_push, succeeds_pure, htakes] at h
  obtain ⟨x, hx, a, ha, _, rfl, rfl⟩ := h
  obtain ⟨rest, hvalues⟩ := head?_eq_some_iff.mp hx
  rw [hvalues] at hagrees
  obtain ⟨i, hc⟩ := hgen
  have hi : i < g.builder.nextValue := by
    obtain ⟨names, hstack, -⟩ := hc
    exact hfresh i (by simp [hstack])
  have hvalues' : f a :: s.stack.values.tail = f a :: rest := by rw [hvalues]; rfl
  refine ⟨rfl, simulates_put hfresh hc [x] rfl hvalues hvalues' rfl fun env henv => ?_⟩
  have hx : x.low = env i := by simpa using henv
  exact hword x rest a hagrees ha env i hi hx.symm

theorem simulates_unary {inst : ℕ → Inst} (h : Executor.unary operand f s = (.ok flow, s'))
    (hgen : unary inst g = (.ok (), g'))
    (hword : ∀ x a, parse x = some a → ∀ env i, env i = x.low → (inst i).eval env = some (f a).low) :
    flow = .next ∧ Simulates g g' s s' := by
  have hagrees : operandsAgree .neg s.stack.values = true := rfl
  refine simulates_one hfresh htakes h (emitted_unary hgen) hagrees ?_
  intro x rest a _ ha env i _ hi
  exact ⟨_, Builder.evalFrom_singleton (hword x a ha env i hi), update_self ..⟩

theorem simulates_not {f : α → Bool}
    (h : Executor.unary operand (fun a => .bool (f a)) s = (.ok flow, s'))
    (hgen : generateNot g = (.ok (), g')) (hagrees : operandsAgree opcode s.stack.values = true)
    (hword : ∀ x rest a, operandsAgree opcode (x :: rest) = true → parse x = some a →
      decide (x.low = 0) = f a) :
    flow = .next ∧ Simulates g g' s s' := by
  refine simulates_one hfresh htakes h (emitted_not hgen) hagrees ?_
  intro x rest a hop ha env i hlt hi
  have hzero := hword x rest a hop ha
  rw [← hi] at hzero
  refine ⟨_, rfl, ?_⟩
  simp [IntCC.holds, update_of_ne hlt.ne, ← hzero, Value.low]

end One

theorem simulates_context {f : Executor → Value} (h : pushOf f s = (.ok flow, s'))
    (hgen : generateContext g = (.ok (), g')) (hzero : (f s).low = 0) :
    flow = .next ∧ Simulates g g' s s' := by
  have h := succeeds_self h
  simp only [Executor.pushOf, succeeds_bind, succeeds_get, Executor.succeeds_push,
    succeeds_pure] at h
  obtain ⟨_, rfl, rfl⟩ := h
  refine ⟨rfl, simulates_put hfresh (emitted_context hgen) [] rfl rfl rfl rfl
    fun env henv => ⟨_, rfl, ?_⟩⟩
  rw [hzero]
  exact update_self ..

end Families

/-! ## Instructions that compute nothing -/

section Moves

variable (h : executeInstruction blake3 instr s = (.ok flow, s'))
  (hgen : generateInstruction blocks instr g = (.ok (), g'))

include h hgen

theorem simulates_pop (hop : instr.opcode = .pop) :
    flow = .next ∧ Simulates g g' s s' := by
  have h := succeeds_self h
  simp only [executeInstruction, hop, executePop, succeeds_bind,
    Executor.succeeds_pop, succeeds_pure] at h
  obtain ⟨x, -, rfl, rfl⟩ := h
  obtain ⟨a, rest, hstack, rfl⟩ := emitted_pop hgen hop
  refine ⟨rfl, simulates_move hfresh [] (fun _ => rfl) rfl (fun v hv => by simp [hstack, hv])
    fun env henv => ?_⟩
  show s.stack.values.tail.map _ = _
  rw [map_tail, henv.stack, hstack]
  rfl

theorem simulates_dup (hop : instr.opcode = .dup) :
    flow = .next ∧ Simulates g g' s s' := by
  have h := succeeds_self h
  simp only [executeInstruction, hop, onStack, succeeds_bind,
    succeeds_get, succeeds_ofExcept, succeeds_modify, succeeds_pure] at h
  obtain ⟨stack, hdup, rfl, rfl⟩ := h
  obtain ⟨value, hhead, hvalues⟩ := dup_eq_ok hdup
  obtain ⟨a, rest, hstack, rfl⟩ := emitted_dup hgen hop
  refine ⟨rfl, simulates_move hfresh [] (fun _ => rfl) rfl (fun v hv => ?_) fun env henv => ?_⟩
  · have hv : v = a ∨ v ∈ rest := by simpa using hv
    rw [hstack]
    exact mem_append_left _ (mem_cons.mpr hv)
  · have hmap := henv.stack
    obtain ⟨tail, htail⟩ := head?_eq_some_iff.mp hhead
    rw [hstack, htail] at hmap
    show stack.values.map _ = _
    rw [hvalues, htail, map_cons, hmap]
    exact congrArg (· :: _) (cons.inj hmap).1

theorem simulates_swap (hop : instr.opcode = .swap) :
    flow = .next ∧ Simulates g g' s s' := by
  have h := succeeds_self h
  simp only [executeInstruction, hop, onStack, succeeds_bind,
    succeeds_get, succeeds_ofExcept, succeeds_modify, succeeds_pure] at h
  obtain ⟨stack, hswap, rfl, rfl⟩ := h
  obtain ⟨x, y, values, hvalues, hvalues'⟩ := swap_eq_ok hswap
  obtain ⟨a, b, rest, hstack, rfl⟩ := emitted_swap hgen hop
  refine ⟨rfl, simulates_move hfresh [] (fun _ => rfl) rfl (fun v hv => ?_) fun env henv => ?_⟩
  · have hv : v = b ∨ v = a ∨ v ∈ rest := by simpa using hv
    rw [hstack]
    refine mem_append_left _ ?_
    simp only [mem_cons]
    tauto
  · have hmap := henv.stack
    rw [hstack, hvalues] at hmap
    obtain ⟨hx, hy, hrest⟩ : x.low = env a ∧ y.low = env b ∧ values.map Value.low = rest.map env := by
      simpa using hmap
    show stack.values.map _ = _
    rw [hvalues']
    simp [hx, hy, hrest]

theorem simulates_nop (hop : instr.opcode = .nop) :
    flow = .next ∧ Simulates g g' s s' := by
  simp only [executeInstruction, hop] at h
  simp only [generateInstruction, hop] at hgen
  cases h
  cases hgen
  exact ⟨rfl, simulates_move hfresh [] (fun _ => rfl) rfl (fun v hv => mem_append_left _ hv)
    fun env henv => henv.stack⟩

theorem simulates_sStore (hop : instr.opcode = .sStore) :
    flow = .next ∧ Simulates g g' s s' := by
  have h := succeeds_self h
  simp only [executeInstruction, hop, executeSstore, succeeds_bind, succeeds_get] at h
  split at h
  · simp only [Executor.succeeds_fail] at h
  · simp only [succeeds_bind, popU256, popH256, succeeds_popAs,
      succeeds_get, succeeds_charge, succeeds_modify, succeeds_pure] at h
    obtain ⟨y, -, b, -, x, -, a, -, -, rfl, rfl⟩ := h
    obtain ⟨i, j, rest, hstack, rfl⟩ := emitted_sStore hgen hop
    refine ⟨rfl, simulates_move hfresh _ (fun _ => rfl) rfl (fun v hv => by simp [hstack, hv])
      fun env henv => ?_⟩
    show s.stack.values.tail.tail.map _ = _
    rw [map_tail, map_tail, henv.stack, hstack]
    rfl

theorem simulates_loadLocal (hop : instr.opcode = .loadLocal)
    (hindex : decodeU16 instr = Virtual.index instr) :
    flow = .next ∧ Simulates g g' s s' := by
  have h := succeeds_self h
  simp only [executeInstruction, hop, executeLoadLocal, succeeds_bind,
    Executor.succeeds_currentFrame, Executor.succeeds_ofExcept, Executor.succeeds_push,
    succeeds_pure] at h
  obtain ⟨frame, hframe, value, hvalue, _, rfl, rfl⟩ := h
  obtain ⟨a, ha, rfl⟩ := emitted_loadLocal hgen hop
  have hlocal : (currentLocals s)[Virtual.index instr]? = some value := by
    unfold currentLocals
    rw [hframe, ← hindex]
    exact CallFrame.getLocal_eq_ok.mp hvalue
  refine ⟨rfl, simulates_move hfresh [] (fun _ => rfl) rfl (fun v hv => ?_) fun env henv => ?_⟩
  · obtain rfl | hv := mem_cons.mp hv
    · exact mem_append_right _ (mem_of_getElem? ha)
    · exact mem_append_left _ hv
  · show value.low :: s.stack.values.map _ = env a :: _
    rw [henv.stack, henv.locals _ a ha, hlocal]
    rfl

omit hfresh in
theorem simulates_storeLocal (hop : instr.opcode = .storeLocal)
    (hindex : decodeU16 instr = Virtual.index instr) :
    flow = .next ∧ Simulates g g' s s' := by
  have h := succeeds_self h
  simp only [executeInstruction, hop, executeStoreLocal, succeeds_bind,
    Executor.succeeds_pop, Executor.succeeds_currentFrame, Executor.succeeds_ofExcept,
    Executor.setCurrentFrame, succeeds_modify, succeeds_pure] at h
  obtain ⟨value, hhead, frame, hframe, frame', hset, rfl, rfl⟩ := h
  obtain ⟨a, rest, hstack, hlt, rfl⟩ := emitted_storeLocal hgen hop
  refine ⟨rfl, [], rfl, rfl, fun env henv => ⟨env, rfl, ?_, ?_⟩⟩
  · show s.stack.values.tail.map _ = rest.map env
    rw [map_tail, henv.stack, hstack]
    rfl
  · obtain ⟨tail, htail⟩ := head?_eq_some_iff.mp hhead
    have htop := henv.stack
    rw [htail, hstack] at htop
    have hlocals : currentLocals s = frame.locals := by
      unfold currentLocals
      rw [show s.frames.head? = some frame from hframe]
      rfl
    unfold CallFrame.setLocal at hset
    split at hset
    · cases hset
    · cases hset
      intro j v hv
      show env v = (((frame.locals ++ _).set _ value)[j]?.getD .unit).low
      rw [hindex]
      by_cases hj : Virtual.index instr = j
      · subst hj
        rw [getElem?_set_self hlt] at hv
        cases hv
        rw [getElem?_set_self (by simp; omega)]
        exact (cons.inj htop).1.symm
      · rw [getElem?_set_ne hj] at hv
        rw [getElem?_set_ne hj, henv.locals j v hv, hlocals]
        by_cases hlen : j < frame.locals.length
        · rw [getElem?_append_left hlen]
        · rw [getElem?_append_right (by omega), getElem?_replicate, getElem?_eq_none (by omega)]
          split <;> rfl

theorem simulates_push (hop : instr.opcode = .push)
    (hsame : ∀ operand, instr.operand = some operand →
      word (.fromBeBytes operand) = .ofNat 64 (fromLeBytes (operand.take 8))) :
    flow = .next ∧ Simulates g g' s s' := by
  obtain ⟨n, hn, hc⟩ := emitted_push hgen hop
  obtain ⟨operand, hoperand, rfl⟩ : ∃ operand, instr.operand = some operand ∧
      n = fromLeBytes (operand.take 8) := by
    unfold readOperandU64 readOperand at hn
    split at hn
    · cases hn
    next operand hoperand =>
      split at hn
      · cases hn
      · cases hn
        exact ⟨operand, hoperand, rfl⟩
  have h := succeeds_self h
  simp only [executeInstruction, hop, executePush, decodePushValue, hoperand, succeeds_bind] at h
  split at h
  · simp only [succeeds_pure, Executor.succeeds_push] at h
    obtain ⟨_, rfl, rfl⟩ := h
    refine ⟨rfl, simulates_put hfresh hc [] rfl rfl rfl rfl fun env _ => ⟨_, rfl, ?_⟩⟩
    exact (update_self ..).trans (hsame operand hoperand).symm
  · simp only [succeeds_orPanic] at h
    obtain ⟨_, h, -⟩ := h
    cases h

/-- Storage that is read is zero. -/
theorem simulates_sLoad (hop : instr.opcode = .sLoad)
    (hzero : ∀ value key, s.stack.values.head? = some value → value.asH256 = some key →
      word (s.storage.load key).word = 0) :
    flow = .next ∧ Simulates g g' s s' := by
  have h := succeeds_self h
  simp only [executeInstruction, hop, executeSload, succeeds_bind,
    popH256, succeeds_popAs, succeeds_charge, succeeds_get,
    Executor.succeeds_push, succeeds_pure] at h
  obtain ⟨value, hhead, key, hkey, -, _, rfl, rfl⟩ := h
  obtain ⟨i, hc⟩ := emitted_sLoad hgen hop
  obtain ⟨tail, htail⟩ := head?_eq_some_iff.mp hhead
  have hvalues' : Value.u256 (s.storage.load key).word :: s.stack.values.tail =
      .u256 (s.storage.load key).word :: tail := by rw [htail]; rfl
  refine ⟨rfl, simulates_put hfresh hc [value] rfl htail hvalues' rfl
    fun env _ => ⟨_, rfl, ?_⟩⟩
  exact (update_self ..).trans (hzero value key hhead hkey).symm

end Moves

end Simulation

/-! ## Where native code agrees with the interpreter -/

variable (total : ℕ) (code : List Instruction)

/-- A jump that finds the virtual stack as it is, at a target that is read the same way
in both byte orders. The entry block is no target. -/
def joins (pc : ℕ) (instr : Instruction) : Bool :=
  let target := decodeU16 instr
  target = Virtual.index instr && 0 < target && target < code.length &&
    virtualAt total code (pc + 1) = virtualAt total code target

/-- Whether a condition is a number that fits in a word, and leads nowhere or to a join. -/
def branchAgrees (values : List Value) (truth joined : Bool) : Bool :=
  match values with
  | cond :: _ => cond.small && (cond.isTruthy ≠ truth || joined)
  | [] => true

/-- **Whether native code of an instruction agrees with the interpreter**, in an executor
that has paid for the instruction. -/
def instructionAgrees (pc : ℕ) (instr : Instruction) (s : Executor) : Bool :=
  match instr.opcode with
  | .push =>
    instr.operand.all (fun operand =>
      word (.fromBeBytes operand) = .ofNat 64 (fromLeBytes (operand.take 8)))
  | .loadLocal | .storeLocal => decodeU16 instr = Virtual.index instr
  | .jump => joins total code pc instr
  | .jumpIf => branchAgrees s.stack.values true (joins total code pc instr)
  | .jumpIfNot => branchAgrees s.stack.values false (joins total code pc instr)
  | .sLoad =>
    (s.stack.values.head?.bind Value.asH256).all (fun key => word (s.storage.load key).word = 0)
  | .callValue => word s.context.value = 0
  | .blockNumber => (Value.fromU64 s.context.blockNumber).low = 0
  | .timestamp => (Value.fromU64 s.context.timestamp).low = 0
  | .gas => (Value.fromU64 s.gas.remaining).low = 0
  | opcode => operandsAgree opcode s.stack.values

/-- **Whether native code agrees with the next round**: it does not run off the end. -/
def agrees (s : Executor) : Bool :=
  match s.frames with
  | [frame] =>
    match code[frame.pc]? with
    | some instr =>
      instructionAgrees total code frame.pc instr
        { s with gas := (s.gas.consumeOpcode instr.opcode).2 }
    | none => false
  | _ => true

section Operators

variable {x y : Value} {a b : U256}

theorem holds_compare (hx : x.asU256 = some a) (hy : y.asU256 = some b)
    (hsmall : (x.small && y.small) = true) :
    IntCC.holds .unsignedLessThan x.low y.low = decide (a.val < b.val) ∧
    IntCC.holds .unsignedLessThanOrEqual x.low y.low = decide (a.val ≤ b.val) ∧
    IntCC.holds .unsignedGreaterThan x.low y.low = decide (a.val > b.val) ∧
    IntCC.holds .unsignedGreaterThanOrEqual x.low y.low = decide (a.val ≥ b.val) := by
  obtain ⟨hsx, hsy⟩ := Bool.and_eq_true_iff.mp hsmall
  have ha := Value.lt_of_small hx hsx
  have hb := Value.lt_of_small hy hsy
  rw [Value.low_of_asU256 hx, Value.low_of_asU256 hy]
  simp [IntCC.holds, BitVec.lt_def, BitVec.le_def, word_toNat ha, word_toNat hb]

theorem holds_equal (hsmall : (x.small && y.small && sameKind x y) = true) :
    IntCC.holds .equal x.low y.low = x.beq y ∧ IntCC.holds .notEqual x.low y.low = !x.beq y := by
  obtain ⟨hsmall, hkind⟩ := Bool.and_eq_true_iff.mp hsmall
  obtain ⟨hsx, hsy⟩ := Bool.and_eq_true_iff.mp hsmall
  have heq : x.low = y.low ↔ x.beq y = true := by
    unfold sameKind at hkind
    split at hkind
    · obtain ⟨_, hx, ha⟩ := Value.small_iff.mp hsx
      obtain ⟨_, hy, hb⟩ := Value.small_iff.mp hsy
      cases hx
      cases hy
      exact (word_eq_iff ha hb).trans (by simp [Value.beq])
    next p q => exact Value.low_bool_eq_iff.trans (by simp [Value.beq])
    · cases hkind
  cases hb : x.beq y <;> simp_all [IntCC.holds]

theorem divides (hx : x.asU256 = some a) (hy : y.asU256 = some b)
    (hsmall : (x.small && y.small && decide (y.low ≠ 0)) = true) :
    ∀ {env : ℕ → BitVec 64} {i j : ℕ}, env i = x.low → env j = y.low →
      (Inst.udiv i j).eval env = some (if b.isZero then Value.zero else
        .u256 (.wrap (a.val / b.val))).low ∧
      (Inst.urem i j).eval env = some (if b.isZero then Value.zero else
        .u256 (.wrap (a.val % b.val))).low := by
  intro env i j hi hj
  obtain ⟨hsmall, hne⟩ := Bool.and_eq_true_iff.mp hsmall
  obtain ⟨hsx, hsy⟩ := Bool.and_eq_true_iff.mp hsmall
  have ha := Value.lt_of_small hx hsx
  have hb := Value.lt_of_small hy hsy
  have hne : word b ≠ 0 := by
    rw [← Value.low_of_asU256 hy]
    exact of_decide_eq_true hne
  have hzero : ¬ b.isZero = true := fun h => hne ((word_eq_zero hb).mpr h)
  rw [Inst.eval, Inst.eval, hi, hj, Value.low_of_asU256 hx, Value.low_of_asU256 hy,
    if_neg hne, if_neg hne, if_neg hzero, if_neg hzero, Value.low_u256, Value.low_u256,
    word_div ha hb, word_mod ha hb]
  exact ⟨rfl, rfl⟩

theorem shift_amount {n : U256} (hy : y.asU256 = some n)
    (hlt : y.asU256.any (fun n => n.val < 64) = true) :
    n.val < 64 ∧ y.low.toNat % 64 = n.val := by
  rw [hy] at hlt
  have hlt : n.val < 64 := by simpa using hlt
  refine ⟨hlt, ?_⟩
  rw [Value.low_of_asU256 hy, word_toNat (by omega), Nat.mod_eq_of_lt hlt]

theorem low_logical {p q : Bool} (hx : x.asBool = some p) (hy : y.asBool = some q)
    (hflags : (x.isFlag && y.isFlag) = true) :
    x.low &&& y.low = (Value.bool (p && q)).low ∧ x.low ||| y.low = (Value.bool (p || q)).low := by
  obtain ⟨hfx, hfy⟩ := Bool.and_eq_true_iff.mp hflags
  rw [Value.low_of_isFlag hfx hx, Value.low_of_isFlag hfy hy]
  cases p <;> cases q <;> simp [Value.low]

end Operators

section Agree

variable {total pc : ℕ} {code : List Instruction}

/-- Instructions after which the next one follows. -/
def continues : Opcode → Bool
  | .jump | .jumpIf | .jumpIfNot | .ret | .halt => false
  | _ => true

/-- Native code simulates every instruction with which it agrees and which goes on
to the next one. -/
theorem simulates_instruction (hcontinues : continues instr.opcode = true)
    (hfresh : ∀ v ∈ g.stack ++ g.locals, v < g.builder.nextValue)
    (hagrees : instructionAgrees total code pc instr s = true)
    (h : executeInstruction blake3 instr s = (.ok flow, s'))
    (hgen : generateInstruction blocks instr g = (.ok (), g')) :
    flow = .next ∧ Simulates g g' s s' := by
  obtain ⟨opcode, operand⟩ := instr
  have htakes := takes_popAs Value.asU256 "u256"
  have htakesBool := takes_popAs Value.asBool "bool"
  cases opcode with
  | jump | jumpIf | jumpIfNot | ret | halt => cases hcontinues
  | push =>
    refine simulates_push hfresh h hgen rfl (fun bytes hbytes => ?_)
    cases hbytes
    simpa [instructionAgrees] using hagrees
  | pop => exact simulates_pop hfresh h hgen rfl
  | dup => exact simulates_dup hfresh h hgen rfl
  | swap => exact simulates_swap hfresh h hgen rfl
  | add => exact simulates_arithmetic hfresh h hgen (fun _ _ _ => rfl) word_overflowingAdd
  | sub => exact simulates_arithmetic hfresh h hgen (fun _ _ _ => rfl) word_overflowingSub
  | mul => exact simulates_arithmetic hfresh h hgen (fun _ _ _ => rfl) word_overflowingMul
  | bitAnd => exact simulates_arithmetic hfresh h hgen (fun _ _ _ => rfl) word_and
  | bitOr => exact simulates_arithmetic hfresh h hgen (fun _ _ _ => rfl) word_or
  | bitXor => exact simulates_arithmetic hfresh h hgen (fun _ _ _ => rfl) word_xor
  | div =>
    refine simulates_binary hfresh htakes hagrees h hgen fun y x rest b a hop hb ha env i j hi hj => ?_
    exact (divides ha hb hop hi hj).1
  | mod =>
    refine simulates_binary hfresh htakes hagrees h hgen fun y x rest b a hop hb ha env i j hi hj => ?_
    exact (divides ha hb hop hi hj).2
  | shl =>
    refine simulates_binary hfresh htakes hagrees h hgen fun y x rest b a hop hb ha env i j hi hj => ?_
    obtain ⟨hlt, hamount⟩ := shift_amount hb hop
    rw [Inst.eval, hi, hj, hamount, if_neg (by omega), Value.low_u256, word_shl,
      Value.low_of_asU256 ha]
  | shr =>
    refine simulates_binary hfresh htakes hagrees h hgen fun y x rest b a hop hb ha env i j hi hj => ?_
    obtain ⟨hsmall, hlt⟩ := Bool.and_eq_true_iff.mp hop
    obtain ⟨hlt, hamount⟩ := shift_amount hb hlt
    rw [Inst.eval, hi, hj, hamount, if_neg (by omega), Value.low_u256,
      word_shr (Value.lt_of_small ha hsmall), Value.low_of_asU256 ha]
  | neg =>
    refine simulates_unary hfresh htakes h hgen fun x a ha env i hi => ?_
    rw [Inst.eval, hi, Value.low_of_asU256 ha, Value.low_u256, word_neg]
  | bitNot =>
    refine simulates_unary hfresh htakes h hgen fun x a ha env i hi => ?_
    rw [Inst.eval, hi, Value.low_of_asU256 ha, Value.low_u256, word_not]
  | lt =>
    refine simulates_compare hfresh htakes hagrees h hgen fun y x rest b a hop hb ha => ?_
    exact (holds_compare ha hb hop).1
  | le =>
    refine simulates_compare hfresh htakes hagrees h hgen fun y x rest b a hop hb ha => ?_
    exact (holds_compare ha hb hop).2.1
  | gt =>
    refine simulates_compare hfresh htakes hagrees h hgen fun y x rest b a hop hb ha => ?_
    exact (holds_compare ha hb hop).2.2.1
  | ge =>
    refine simulates_compare hfresh htakes hagrees h hgen fun y x rest b a hop hb ha => ?_
    exact (holds_compare ha hb hop).2.2.2
  | eq =>
    refine simulates_compare hfresh Executor.takes_pop hagrees h hgen fun y x rest b a hop hb ha => ?_
    cases hb
    cases ha
    exact (holds_equal hop).1
  | ne =>
    refine simulates_compare hfresh Executor.takes_pop hagrees h hgen fun y x rest b a hop hb ha => ?_
    cases hb
    cases ha
    exact (holds_equal hop).2
  | and =>
    refine simulates_binary hfresh htakesBool hagrees h hgen
      fun y x rest q p hop hq hp env i j hi hj => ?_
    simp [Inst.eval, hi, hj, (low_logical hp hq hop).1]
  | or =>
    refine simulates_binary hfresh htakesBool hagrees h hgen
      fun y x rest q p hop hq hp env i j hi hj => ?_
    simp [Inst.eval, hi, hj, (low_logical hp hq hop).2]
  | not =>
    refine simulates_not hfresh htakesBool h hgen hagrees fun x rest p hop hp => ?_
    have hzero := Value.low_eq_zero_iff hop
    rw [Value.isTruthy_of_asBool hp] at hzero
    rw [decide_eq_decide.mpr hzero]
    cases p <;> rfl
  | loadLocal =>
    exact simulates_loadLocal hfresh h hgen rfl (by simpa [instructionAgrees] using hagrees)
  | storeLocal =>
    exact simulates_storeLocal h hgen rfl (by simpa [instructionAgrees] using hagrees)
  | sLoad =>
    refine simulates_sLoad hfresh h hgen rfl (fun value key hvalue hkey => ?_)
    simpa [instructionAgrees, hvalue, hkey] using hagrees
  | sStore => exact simulates_sStore hfresh h hgen rfl
  | caller | address => exact simulates_context hfresh h hgen rfl
  | callValue | blockNumber | timestamp | gas =>
    exact simulates_context hfresh h hgen (by simpa [instructionAgrees] using hagrees)
  | nop => exact simulates_nop hfresh h hgen rfl
  | _ => cases hgen

end Agree

end Qfc.Qvm.Jit
