import QfcCore.Qvm.Executor

/-!
# What an instruction can change

Instructions are put together from a few parts: the stack loses its top or gets
a new one, two values change places, the memory, the storage or the logs
change, gas is used. A relation between executors that all of these keep is
kept by whole instructions, whether they return or not (`Routine`, `Leads`). The
values that are pushed can be restricted, as long as plain values remain
allowed; an instruction is *ordinary* if it pushes only such values, and leaves
the local variables and the resources alone.

The relation used most is `Continues`: the frames stay where they are, the gas
limit and the context stay, and no gas is given back. It is kept by all
instructions.
-/

namespace Qfc.Qvm

open Act

/-- A value without parts. -/
def Value.plain : Value → Bool
  | .tuple _ | .array _ | .struct _ _ | .resource _ _ _ => false
  | _ => true

/-- The instructions that work with plain values, and leave local variables and
resources alone. -/
def Opcode.ordinary : Opcode → Bool
  | .dup | .loadLocal | .storeLocal | .resourceCreate | .resourceDestroy | .resourceMove
  | .resourceBorrow | .resourceBorrowMut => false
  | _ => true

/-- The instructions after which the loop goes somewhere else. -/
def Opcode.branches : Opcode → Bool
  | .jump | .jumpIf | .jumpIfNot | .ret | .revert | .halt => true
  | _ => false

/-- The instructions that take a size from the stack or bytes from the code, or
compute the index of the current frame. -/
def Opcode.panics : Opcode → Bool
  | .push | .load | .store | .keccak256 | .log0 | .log1 | .log2 | .log3 | .log4 | .ret
  | .resourceCreate | .resourceMove | .resourceBorrow | .resourceBorrowMut => true
  | _ => false

/-- **What an instruction may do with the tracker.** -/
inductive ResourceTracker.Changes (t : ResourceTracker) (owner : ℕ) : ResourceTracker → Prop
  | create (typeName : String) (pc : ℕ) : Changes t owner (t.create typeName owner pc).2
  | destroy {id : ℕ} {t' : ResourceTracker} (h : t.destroy id = .ok t') : Changes t owner t'
  | transfer {id : ℕ} {t' : ResourceTracker} (h : t.transfer id owner = .ok t') :
      Changes t owner t'
  | borrow {id : ℕ} {isMutable : Bool} {t' : ResourceTracker}
      (h : t.borrow id owner isMutable = .ok t') : Changes t owner t'

/-! ## Gas -/

namespace GasMeter

/-- The meter has gone on. -/
structure Advances (m m' : GasMeter) : Prop where
  limit : m'.limit = m.limit
  used : m.used ≤ m'.used

theorem Advances.refl (m : GasMeter) : Advances m m := ⟨rfl, le_rfl⟩

theorem Advances.trans {m m' m'' : GasMeter} (h : Advances m m') (h' : Advances m' m'') :
    Advances m m'' :=
  ⟨h'.limit.trans h.limit, h.used.trans h'.used⟩

variable (m : GasMeter)
include m

theorem le_satAdd64 (amount : ℕ) : m.used ≤ satAdd64 m.used amount :=
  le_min (Nat.le_add_right _ _) (Nat.le_sub_one_of_lt (m.used_le.trans_lt m.limit_lt))

theorem advances_consume (amount : ℕ) : Advances m (m.consume amount).2 := by
  unfold consume
  split
  · exact ⟨rfl, m.le_satAdd64 amount⟩
  · exact .refl m

theorem advances_warmSlot (slot : H256) : Advances m (m.warmSlot slot).2 := by
  unfold warmSlot
  split
  · exact .refl m
  · exact ⟨rfl, le_rfl⟩

theorem advances_consumeSload (slot : H256) : Advances m (m.consumeSload slot).2 :=
  (m.advances_warmSlot slot).trans (advances_consume _ _)

theorem advances_consumeSstore (slot : H256) (original current new : Bool) :
    Advances m (m.consumeSstore slot original current new).2 := by
  have hconsume := (m.advances_warmSlot slot).trans (advances_consume (m.warmSlot slot).2
    (GasCosts.default.sstoreCost original current new).1)
  unfold consumeSstore
  dsimp only
  split
  · rename_i m' heq
    rw [heq] at hconsume
    exact ⟨hconsume.limit, hconsume.used⟩
  · rename_i e m' heq
    rw [heq] at hconsume
    exact hconsume

end GasMeter

namespace Executor

/-! ## Relations that the parts keep -/

/-- **A relation that the parts of instructions keep**, as long as only values
in `P` are pushed. -/
structure Routine (P : Value → Prop) (R : Executor → Executor → Prop) : Prop where
  plain : ∀ value, value.plain = true → P value
  refl : ∀ s, R s s
  trans : ∀ {s t u}, R s t → R t u → R s u
  pop : ∀ s, R s { s with stack := s.stack.tail }
  push : ∀ s value stack, P value → s.stack.push value = .ok stack → R s { s with stack := stack }
  swap : ∀ s stack, s.stack.swap = .ok stack → R s { s with stack := stack }
  memory : ∀ s memory, R s { s with memory := memory }
  storage : ∀ s storage, R s { s with storage := storage }
  logs : ∀ s logs, R s { s with logs := logs }
  gas : ∀ s gas, GasMeter.Advances s.gas gas → R s { s with gas := gas }

/-- **A relation that all instructions keep**, whatever they push, and also when
local variables or the tracker change. -/
structure Thorough (R : Executor → Executor → Prop) : Prop where
  refl : ∀ s, R s s
  trans : ∀ {s t u}, R s t → R t u → R s u
  stack : ∀ s stack, R s { s with stack := stack }
  memory : ∀ s memory, R s { s with memory := memory }
  storage : ∀ s storage, R s { s with storage := storage }
  logs : ∀ s logs, R s { s with logs := logs }
  gas : ∀ s gas, GasMeter.Advances s.gas gas → R s { s with gas := gas }
  locals : ∀ s frame frame' rest index value, s.frames = frame :: rest →
    frame.setLocal index value = .ok frame' → R s { s with frames := frame' :: rest }
  resources : ∀ s resources, s.resources.Changes s.frameIndex resources →
    R s { s with resources := resources }

theorem Thorough.routine {R : Executor → Executor → Prop} (h : Thorough R) :
    Routine (fun _ => True) R :=
  ⟨fun _ _ => trivial, h.refl, h.trans, fun s => h.stack s _, fun s _ _ _ _ => h.stack s _,
    fun s _ _ => h.stack s _, h.memory, h.storage, h.logs, h.gas⟩

/-- However the action ends, the state it leaves is related to the one before. -/
def Leads {α : Type} (R : Executor → Executor → Prop) (x : Instr α) : Prop := ∀ s, R s (x s).2

/-- **How an action ends**: the state it leaves is related to the one before,
what it returns is a `Q`, and it panics only if that is allowed. -/
def Ends {α : Type} (C : Prop) (R : Executor → Executor → Prop) (Q : α → Prop) (x : Instr α) :
    Prop :=
  ∀ s, R s (x s).2 ∧ match (x s).1 with
    | .ok a => Q a
    | .err _ => True
    | .panic => C

variable {f : GasMeter → Except GasError Unit × GasMeter} {instr : Instruction} {value : Value}
  {frame : CallFrame}

variable {R : Executor → Executor → Prop} {C : Prop}

section Frames

variable {s : Executor} {rest : List CallFrame}

theorem currentFrame_cons (hframes : s.frames = frame :: rest) :
    currentFrame s = (.ok frame, s) := by
  unfold currentFrame
  rw [bind_ok _ (rfl : get s = (.ok s, s)), hframes]
  rfl

theorem lastIndex_nil (hframes : s.frames = []) : lastIndex s = (.panic, s) := by
  unfold lastIndex
  rw [bind_ok _ (rfl : get s = (.ok s, s)), hframes]
  rfl

theorem lastIndex_cons (hframes : s.frames = frame :: rest) :
    lastIndex s = (.ok s.frameIndex, s) := by
  unfold lastIndex
  rw [bind_ok _ (rfl : get s = (.ok s, s)), hframes]
  rfl

end Frames

section Parts

variable {α β : Type} {P : Value → Prop} {Q : α → Prop} {x : Instr α}

theorem Ends.leads (hx : Ends C R Q x) : Leads R x := fun s => (hx s).1

theorem Ends.mono {Q' : α → Prop} (hx : Ends C R Q x) (hQ : ∀ a, Q a → Q' a) : Ends C R Q' x := by
  intro s
  obtain ⟨hR, hQs⟩ := hx s
  refine ⟨hR, ?_⟩
  generalize (x s).1 = o at hQs ⊢
  cases o with
  | ok a => exact hQ a hQs
  | err e => trivial
  | panic => exact hQs

variable (h : Routine P R)

include h

theorem Ends.bind {Q : β → Prop} {f : α → Instr β} (hx : Ends C R ⊤ x) (hf : ∀ a, Ends C R Q (f a)) :
    Ends C R Q (x >>= f) := by
  intro s
  obtain ⟨hs, hpanic⟩ := hx s
  rcases hxs : x s with ⟨o, s'⟩
  rw [hxs] at hs hpanic
  cases o with
  | ok a => rw [bind_ok f hxs]; exact ⟨h.trans hs (hf a s').1, (hf a s').2⟩
  | err e => rw [bind_err f hxs]; exact ⟨hs, trivial⟩
  | panic => rw [bind_panic f hxs]; exact ⟨hs, hpanic⟩

theorem ends_pure {a : α} (ha : Q a) : Ends C R Q (pure a : Instr α) := fun s => ⟨h.refl s, ha⟩

theorem ends_get : Ends C R ⊤ (get : Instr Executor) := fun s => ⟨h.refl s, trivial⟩

theorem ends_fail (e : ExecutionError) : Ends C R Q (fail e : Instr α) :=
  fun s => ⟨h.refl s, trivial⟩

theorem ends_ofExcept {ε : Type} {w : ε → ExecutionError} (r : Except ε α) :
    Ends C R ⊤ (ofExcept w r) := by
  cases r with
  | ok a => exact ends_pure h trivial
  | error e => exact ends_fail h _

theorem ends_charge (hf : ∀ m, GasMeter.Advances m (f m).2) : Ends C R ⊤ (charge f) := by
  intro s
  have hgas := h.gas s _ (hf s.gas)
  unfold charge
  rcases hgas' : f s.gas with ⟨r, m⟩
  rw [hgas'] at hgas
  cases r <;> exact ⟨hgas, trivial⟩

theorem ends_push (hvalue : P value) : Ends C R ⊤ (push value) := by
  intro s
  unfold push
  rw [bind_ok _ (rfl : get s = (.ok s, s))]
  cases hpush : s.stack.push value with
  | error e => exact ⟨h.refl s, trivial⟩
  | ok stack => exact ⟨h.push s value stack hvalue hpush, trivial⟩

theorem ends_pop : Ends C R ⊤ Executor.pop := by
  intro s
  unfold Executor.pop Stack.pop
  rw [bind_ok _ (rfl : get s = (.ok s, s))]
  cases s.stack.values.head? with
  | none => exact ⟨h.refl s, trivial⟩
  | some value => exact ⟨h.pop s, trivial⟩

theorem ends_popAs (parse : Value → Option α) (expected : String) :
    Ends C R ⊤ (popAs parse expected) := by
  refine .bind h (ends_pop h) fun value => ?_
  split
  · exact ends_pure h trivial
  · exact ends_fail h _

theorem ends_orPanic {o : Option α} (hC : o = none → C) : Ends C R ⊤ (orPanic o) := by
  cases o with
  | none => exact fun s => ⟨h.refl s, hC rfl⟩
  | some a => exact ends_pure h trivial

theorem ends_popUsize (hC : C) : Ends C R ⊤ popUsize :=
  .bind h (ends_popAs h _ _) fun _ => ends_orPanic h fun _ => hC

theorem ends_ofMemory {r : Except MemoryError (Option α)} (hC : r = .ok none → C) :
    Ends C R ⊤ (ofMemory r) := by
  cases r with
  | error e => exact ends_fail h _
  | ok o => exact ends_orPanic h fun ho => hC (congrArg _ ho)

/-- The index of the current frame, before the rest. -/
theorem Ends.lastIndex {x : ℕ → Instr α} (hC : C)
    (hx : ∀ s, ∃ y, Ends C R Q y ∧ y s = x s.frameIndex s) : Ends C R Q (lastIndex >>= x) := by
  intro s
  cases hframes : s.frames with
  | nil =>
    rw [bind_panic _ (lastIndex_nil hframes)]
    exact ⟨h.refl s, hC⟩
  | cons frame rest =>
    obtain ⟨y, hy, hys⟩ := hx s
    rw [bind_ok _ (lastIndex_cons hframes), ← hys]
    exact hy s

theorem ends_currentFrame : Ends C R ⊤ currentFrame := by
  refine .bind h (ends_get h) fun s => ?_
  split
  · exact ends_pure h trivial
  · exact ends_fail h _

theorem ends_decodeString (instr : Instruction) : Ends C R ⊤ (decodeString instr) := by
  unfold decodeString
  split
  · exact ends_pure h trivial
  · exact ends_fail h _

/-- What is left of an instruction after it has computed its result. -/
theorem ends_push_next (hvalue : P value) :
    Ends C R (· = .next) (push value >>= fun _ => pure ControlFlow.next) :=
  .bind h (ends_push h hvalue) fun _ => ends_pure h rfl

variable {operand : Instr α}

theorem ends_binary (hoperand : Ends C R ⊤ operand) {f : α → α → Value}
    (hf : ∀ a b, (f a b).plain = true) : Ends C R (· = .next) (binary operand f) :=
  .bind h hoperand fun b => .bind h hoperand fun a => ends_push_next h (h.plain _ (hf a b))

theorem ends_unary (hoperand : Ends C R ⊤ operand) {f : α → Value} (hf : ∀ a, (f a).plain = true) :
    Ends C R (· = .next) (unary operand f) :=
  .bind h hoperand fun a => ends_push_next h (h.plain _ (hf a))

theorem ends_pushOf {f : Executor → Value} (hf : ∀ s, (f s).plain = true) :
    Ends C R (· = .next) (pushOf f) :=
  .bind h (ends_get h) fun s => ends_push_next h (h.plain _ (hf s))

theorem ends_popTopics (n : ℕ) : Ends C R ⊤ (popTopics n) := by
  induction n with
  | zero => exact ends_pure h trivial
  | succ n ih =>
    exact .bind h (ends_popAs h _ _) fun _ => .bind h ih fun _ => ends_pure h trivial

/-- What is left of an instruction that ends with a change of a part. -/
theorem ends_modify_next {f : Executor → Executor} (hf : ∀ s, R s (f s)) :
    Ends C R (· = .next) (modify f >>= fun _ => pure ControlFlow.next) :=
  .bind h (fun s => ⟨hf s, trivial⟩) fun _ => ends_pure h rfl

/-! ## Ordinary instructions -/

theorem ends_emitLog (hC : C) (n : ℕ) : Ends C R (· = .next) (emitLog n) := by
  refine .bind h (ends_get h) fun s => ?_
  split
  · exact ends_fail h _
  · exact .bind h (ends_popUsize h hC) fun _ => .bind h (ends_popUsize h hC) fun _ =>
      .bind h (ends_popTopics h n) fun _ => .bind h (ends_get h) fun _ =>
      .bind h (ends_ofMemory h fun _ => hC) fun _ => ends_modify_next h fun s => h.logs s _

theorem ends_executePush (hC : C) (instr : Instruction) :
    Ends C R (· = .next) (executePush instr) := by
  intro s
  unfold executePush decodePushValue
  split
  · split
    · exact ends_push_next h (h.plain _ rfl) s
    · exact ⟨h.refl s, hC⟩
  · exact ends_push_next h (h.plain _ rfl) s

theorem ends_executeSstore : Ends C R (· = .next) executeSstore := by
  refine .bind h (ends_get h) fun s => ?_
  split
  · exact ends_fail h _
  · exact .bind h (ends_popAs h _ _) fun _ => .bind h (ends_popAs h _ _) fun _ =>
      .bind h (ends_get h) fun _ =>
      .bind h (ends_charge h fun m => m.advances_consumeSstore _ _ _ _) fun _ =>
      ends_modify_next h fun s => h.storage s _

theorem ends_executeCall (instr : Instruction) : Ends C R (· = .next) (executeCall instr) := by
  refine .bind h (ends_decodeString h instr) fun _ => .bind h (ends_get h) fun s => ?_
  split
  · exact ends_fail h _
  · exact ends_pure h rfl

theorem ends_swap : Ends C R (· = .next) (onStack Stack.swap) := by
  intro s
  unfold onStack
  rw [bind_ok _ (rfl : get s = (.ok s, s))]
  cases hswap : s.stack.swap with
  | error e => exact ⟨h.refl s, trivial⟩
  | ok stack => exact ⟨h.swap s stack hswap, rfl⟩

theorem ends_branch (blake3 : Bytes → H256) (hC : instr.opcode.panics = true → C)
    (hbranches : instr.opcode.branches = true) : Ends C R ⊤ (executeInstruction blake3 instr) := by
  obtain ⟨opcode, operand⟩ := instr
  cases opcode with
  | jump | revert | halt => exact ends_pure h trivial
  | jumpIf | jumpIfNot => exact .bind h (ends_pop h) fun _ => ends_pure h trivial
  | ret =>
    exact .lastIndex h (hC rfl) fun _ => ⟨_, .bind h (ends_get h) fun _ =>
      .bind h (ends_ofExcept h _) fun _ => ends_pure h trivial, rfl⟩
  | _ => cases hbranches

/-- Ordinary instructions keep the relation, and go on with the next one. -/
theorem ends_ordinary (blake3 : Bytes → H256) (hC : instr.opcode.panics = true → C)
    (hordinary : instr.opcode.ordinary = true) (hbranches : instr.opcode.branches = false) :
    Ends C R (· = .next) (executeInstruction blake3 instr) := by
  obtain ⟨opcode, operand⟩ := instr
  cases opcode with
  | dup | loadLocal | storeLocal | resourceCreate | resourceDestroy | resourceMove
  | resourceBorrow | resourceBorrowMut => cases hordinary
  | jump | jumpIf | jumpIfNot | ret | revert | halt => cases hbranches
  | push => exact ends_executePush h (hC rfl) _
  | pop => exact .bind h (ends_pop h) fun _ => ends_pure h rfl
  | swap => exact ends_swap h
  | add | sub | mul | pow | lt | le | gt | ge | bitAnd | bitOr | bitXor | and | or =>
    exact ends_binary h (ends_popAs h _ _) fun _ _ => rfl
  | div | mod | shl | shr =>
    refine ends_binary h (ends_popAs h _ _) fun a b => ?_
    split <;> rfl
  | neg | bitNot | not => exact ends_unary h (ends_popAs h _ _) fun _ => rfl
  | eq | ne => exact ends_binary h (ends_pop h) fun _ _ => rfl
  | load =>
    exact .bind h (ends_popUsize h (hC rfl)) fun _ => .bind h (ends_get h) fun _ =>
      .bind h (ends_ofMemory h fun _ => hC rfl) fun _ => ends_push_next h (h.plain _ rfl)
  | store =>
    exact .bind h (ends_popAs h _ _) fun _ => .bind h (ends_popUsize h (hC rfl)) fun _ =>
      .bind h (ends_get h) fun _ => .bind h (ends_ofMemory h fun _ => hC rfl) fun _ =>
      ends_modify_next h fun s => h.memory s _
  | sLoad =>
    exact .bind h (ends_popAs h _ _) fun _ =>
      .bind h (ends_charge h fun m => m.advances_consumeSload _) fun _ =>
      .bind h (ends_get h) fun _ => ends_push_next h (h.plain _ rfl)
  | sStore => exact ends_executeSstore h
  | call => exact ends_executeCall h _
  | log0 | log1 | log2 | log3 | log4 => exact ends_emitLog h (hC rfl) _
  | keccak256 =>
    exact .bind h (ends_popUsize h (hC rfl)) fun _ => .bind h (ends_popUsize h (hC rfl)) fun _ =>
      .bind h (ends_get h) fun _ => .bind h (ends_ofMemory h fun _ => hC rfl) fun _ =>
      ends_push_next h (h.plain _ rfl)
  | resourceCopy => exact ends_fail h _
  | parallelStart | parallelEnd | stateRead | stateWrite | nop => exact ends_pure h rfl
  | _ => exact ends_pushOf h fun _ => rfl

end Parts

/-! ## All instructions -/

section All

variable (h : Thorough R)

include h

theorem ends_storeLocal (index : ℕ) : Ends C R (· = .next) (executeStoreLocal index) := by
  refine .bind h.routine (ends_pop h.routine) fun value s => ?_
  cases hframes : s.frames with
  | nil =>
    rw [bind_err _ (show currentFrame s = (.err _, s) by
      unfold currentFrame; rw [bind_ok _ (rfl : get s = (.ok s, s)), hframes]; rfl)]
    exact ⟨h.refl s, trivial⟩
  | cons frame rest =>
    rw [bind_ok _ (currentFrame_cons hframes)]
    cases hset : frame.setLocal index value with
    | error e => exact ⟨h.refl s, trivial⟩
    | ok frame' =>
      have hlocals := h.locals s frame frame' rest index value hframes hset
      refine ⟨?_, rfl⟩
      show R s { s with frames := frame' :: s.frames.tail }
      rwa [hframes]

theorem ends_resources {f : Executor → Except ExecutionError ResourceTracker}
    {x : Instr ControlFlow}
    (hf : ∀ s resources, f s = .ok resources → s.resources.Changes s.frameIndex resources)
    (hx : Ends C R (· = .next) x) :
    Ends C R (· = .next) (get >>= fun s => ofResult (f s) >>= fun resources =>
      (modify fun s => { s with resources := resources }) >>= fun _ => x) := by
  intro s
  rw [bind_ok _ (rfl : get s = (.ok s, s))]
  cases hresources : f s with
  | error e => exact ⟨h.refl s, trivial⟩
  | ok resources =>
    exact ⟨h.trans (h.resources s resources (hf s resources hresources)) (hx _).1, (hx _).2⟩

/-- Instructions that do not branch go on with the next one. -/
theorem ends_next (blake3 : Bytes → H256) (hC : instr.opcode.panics = true → C)
    (hbranches : instr.opcode.branches = false) :
    Ends C R (· = .next) (executeInstruction blake3 instr) := by
  have hr := h.routine
  cases hordinary : instr.opcode.ordinary with
  | true => exact ends_ordinary hr blake3 hC hordinary hbranches
  | false =>
    obtain ⟨opcode, operand⟩ := instr
    cases opcode with
    | dup =>
      exact .bind hr (ends_get hr) fun _ => .bind hr (ends_ofExcept hr _) fun _ =>
        ends_modify_next hr fun s => h.stack s _
    | loadLocal =>
      exact .bind hr (ends_currentFrame hr) fun _ => .bind hr (ends_ofExcept hr _) fun _ =>
        ends_push_next hr trivial
    | storeLocal => exact ends_storeLocal h _
    | resourceCreate =>
      refine .bind hr (ends_decodeString hr _) fun typeName s => ?_
      cases hframes : s.frames with
      | nil =>
        rw [bind_panic _ (lastIndex_nil hframes)]
        exact ⟨h.refl s, hC rfl⟩
      | cons frame rest =>
        rw [bind_ok _ (lastIndex_cons hframes), bind_ok _ (currentFrame_cons hframes)]
        have hcreate := h.resources s _ (.create typeName frame.pc)
        have hpush : Ends C R (· = ControlFlow.next)
            (push (.resource typeName [] s.resources.nextId) >>= fun _ => pure .next) :=
          ends_push_next hr trivial
        exact ⟨h.trans hcreate (hpush _).1, (hpush _).2⟩
    | resourceDestroy =>
      refine .bind hr (ends_pop hr) fun value => ?_
      split
      · exact ends_resources h (fun _ _ => .destroy) (ends_pure hr rfl)
      · exact ends_fail hr _
    | resourceMove =>
      refine .bind hr (ends_pop hr) fun value => ?_
      split
      · exact .lastIndex hr (hC rfl) fun _ =>
          ⟨_, ends_resources h (fun _ _ => .transfer) (ends_push_next hr trivial), rfl⟩
      · exact ends_fail hr _
    | resourceBorrow | resourceBorrowMut =>
      refine .bind hr (ends_get hr) fun s => .bind hr (ends_ofExcept hr _) fun value => ?_
      split
      · exact .lastIndex hr (hC rfl) fun _ =>
          ⟨_, ends_resources h (fun _ _ => .borrow) (ends_pure hr rfl), rfl⟩
      · exact ends_pure hr rfl
    | _ => cases hordinary

theorem ends_executeInstruction (blake3 : Bytes → H256) (hC : instr.opcode.panics = true → C) :
    Ends C R ⊤ (executeInstruction blake3 instr) := by
  cases hbranches : instr.opcode.branches with
  | true => exact ends_branch h.routine blake3 hC hbranches
  | false => exact (ends_next h blake3 hC hbranches).mono fun _ _ => trivial

end All

/-! ## What all instructions keep -/

/-- **An instruction has been executed**: the frames are where they were, and
gas has been used at most. -/
structure Continues (s t : Executor) : Prop where
  pcs : t.frames.map CallFrame.pc = s.frames.map CallFrame.pc
  gas : GasMeter.Advances s.gas t.gas
  context : t.context = s.context

theorem Continues.refl (s : Executor) : Continues s s := ⟨rfl, .refl _, rfl⟩

theorem Continues.trans {s t u : Executor} (h : Continues s t) (h' : Continues t u) :
    Continues s u :=
  ⟨h'.pcs.trans h.pcs, h.gas.trans h'.gas, h'.context.trans h.context⟩

theorem setLocal_pc {frame' : CallFrame} {index : ℕ} (h : frame.setLocal index value = .ok frame') :
    frame'.pc = frame.pc := by
  unfold CallFrame.setLocal at h
  split at h
  · cases h
  · cases h
    rfl

theorem thorough_continues : Thorough Continues where
  refl := .refl
  trans := .trans
  stack _ _ := ⟨rfl, .refl _, rfl⟩
  memory _ _ := ⟨rfl, .refl _, rfl⟩
  storage _ _ := ⟨rfl, .refl _, rfl⟩
  logs _ _ := ⟨rfl, .refl _, rfl⟩
  gas _ _ hgas := ⟨rfl, hgas, rfl⟩
  locals s frame frame' rest index value hframes hset := by
    refine ⟨?_, .refl _, rfl⟩
    rw [hframes, List.map_cons, List.map_cons, setLocal_pc hset]
  resources _ _ _ := ⟨rfl, .refl _, rfl⟩

theorem continues_charge (hf : ∀ m, GasMeter.Advances m (f m).2) : Leads Continues (charge f) :=
  (ends_charge (C := True) thorough_continues.routine hf).leads

/-- Every instruction leaves the frames where they are and only uses gas. -/
theorem continues_executeInstruction (blake3 : Bytes → H256) (instr : Instruction) :
    Leads Continues (executeInstruction blake3 instr) :=
  (ends_executeInstruction (C := True) thorough_continues blake3 fun _ => trivial).leads

/-! ## Rounds -/

section Rounds

variable {blake3 : Bytes → H256} {code : List Instruction} {s s' : Executor} {rest : List CallFrame}

theorem step_nil (h : s.frames = []) : step blake3 code s = (.ok false, s) := by
  unfold step
  rw [bind_ok _ (rfl : get s = (.ok s, s)), h]
  rfl

theorem step_end (hframes : s.frames = frame :: rest) (hend : code[frame.pc]? = none) :
    step blake3 code s = (.ok true, { s with frames := rest }) := by
  unfold step
  rw [bind_ok _ (rfl : get s = (.ok s, s)), hframes]
  dsimp only
  rw [if_pos (List.getElem?_eq_none_iff.mp hend)]
  rfl

theorem step_some (hframes : s.frames = frame :: rest) (hinstr : code[frame.pc]? = some instr) :
    step blake3 code s = (do
      charge (fun m => m.consumeOpcode instr.opcode)
      follow (← executeInstruction blake3 instr)
      return true : Instr Bool) { s with frames := { frame with pc := frame.pc + 1 } :: rest } := by
  have hset : setCurrentFrame { frame with pc := frame.pc + 1 } s
      = (.ok (), { s with frames := { frame with pc := frame.pc + 1 } :: rest }) := by
    show (_, { s with frames := { frame with pc := frame.pc + 1 } :: s.frames.tail }) = _
    rw [hframes]
    rfl
  have hin : ¬ code.length ≤ frame.pc := by
    rw [← List.getElem?_eq_none_iff, hinstr]
    nofun
  unfold step
  rw [bind_ok _ (rfl : get s = (.ok s, s)), hframes]
  dsimp only
  rw [if_neg hin, hinstr, bind_ok _ (rfl : orPanic (some instr) s = (.ok instr, s))]
  exact bind_ok _ hset

/-- What a round that goes on does: a frame at the end of the code returns,
or an instruction is paid for, executed and followed. -/
theorem step_cases (hstep : step blake3 code s = (.ok true, s')) :
    (∃ frame rest, s.frames = frame :: rest ∧ code[frame.pc]? = none ∧
      s' = { s with frames := rest }) ∨
    ∃ frame rest instr gas flow s₁, s.frames = frame :: rest ∧ code[frame.pc]? = some instr ∧
      s.gas.consumeOpcode instr.opcode = (.ok (), gas) ∧
      executeInstruction blake3 instr
        { s with gas := gas, frames := { frame with pc := frame.pc + 1 } :: rest }
          = (.ok flow, s₁) ∧
      follow flow s₁ = (.ok (), s') := by
  cases hframes : s.frames with
  | nil =>
    rw [step_nil hframes] at hstep
    cases hstep
  | cons frame rest =>
    cases hinstr : code[frame.pc]? with
    | none =>
      rw [step_end hframes hinstr] at hstep
      cases hstep
      exact .inl ⟨frame, rest, rfl, hinstr, rfl⟩
    | some instr =>
      rw [step_some hframes hinstr] at hstep
      obtain ⟨u, s₀, hcharge, hstep⟩ := bind_eq_ok.mp hstep
      obtain ⟨flow, s₁, hexec, hstep⟩ := bind_eq_ok.mp hstep
      obtain ⟨u', s₂, hfollow, hstep⟩ := bind_eq_ok.mp hstep
      cases hstep
      unfold charge at hcharge
      dsimp only at hcharge
      rcases hgas : s.gas.consumeOpcode instr.opcode with ⟨r, gas⟩
      rw [hgas] at hcharge
      cases r with
      | error e => cases hcharge
      | ok v =>
        cases hcharge
        exact .inr ⟨frame, rest, instr, gas, flow, s₁, rfl, hinstr, hgas, hexec, hfollow⟩

/-- A round of the loop after which there is another one. -/
def GoesOn (blake3 : Bytes → H256) (code : List Instruction) (s s' : Executor) : Prop :=
  step blake3 code s = (.ok true, s')

/-- **The loop gets from a state to another**, in any number of rounds. -/
def Reaches (blake3 : Bytes → H256) (code : List Instruction) : Executor → Executor → Prop :=
  Relation.ReflTransGen (GoesOn blake3 code)

/-- Whether the loop ends within so many rounds, and all states that it gets to
are in `P`. -/
def allRounds (P : Executor → Bool) (blake3 : Bytes → H256) (code : List Instruction) :
    ℕ → Executor → Bool
  | 0, _ => false
  | n + 1, s =>
    P s && match step blake3 code s with
      | (.ok true, s') => allRounds P blake3 code n s'
      | _ => true

theorem of_allRounds {P : Executor → Bool} {n : ℕ} (h : allRounds P blake3 code n s = true)
    (hreach : Reaches blake3 code s s') : P s' = true := by
  induction n generalizing s with
  | zero => cases h
  | succ n ih =>
    obtain ⟨hs, hnext⟩ := Bool.and_eq_true_iff.mp h
    obtain rfl | ⟨s₁, hgoes, hreach⟩ := Relation.ReflTransGen.cases_head hreach
    · exact hs
    · rw [show step blake3 code s = (.ok true, s₁) from hgoes] at hnext
      exact ih hnext hreach

theorem step_ends (hstep : step blake3 code s = (.ok false, s')) : s.frames = [] ∧ s = s' := by
  cases hframes : s.frames with
  | nil =>
    rw [step_nil hframes] at hstep
    cases hstep
    exact ⟨rfl, rfl⟩
  | cons frame rest =>
    cases hinstr : code[frame.pc]? with
    | none =>
      rw [step_end hframes hinstr] at hstep
      cases hstep
    | some instr =>
      rw [step_some hframes hinstr] at hstep
      obtain ⟨_, _, -, hstep⟩ := bind_eq_ok.mp hstep
      obtain ⟨_, _, -, hstep⟩ := bind_eq_ok.mp hstep
      obtain ⟨_, _, -, hstep⟩ := bind_eq_ok.mp hstep
      cases hstep

theorem reaches_of_runFor {n : ℕ} (hrun : runFor blake3 code n s = some (.ok (), s')) :
    Reaches blake3 code s s' ∧ s'.frames = [] := by
  induction n generalizing s with
  | zero => cases hrun
  | succ n ih =>
    unfold runFor at hrun
    rcases hstep : step blake3 code s with ⟨o, s₁⟩
    rw [hstep] at hrun
    match o with
    | .ok true =>
      obtain ⟨hreach, hframes⟩ := ih hrun
      exact ⟨.head hstep hreach, hframes⟩
    | .ok false =>
      cases hrun
      obtain ⟨hframes, rfl⟩ := step_ends hstep
      exact ⟨.refl, hframes⟩

end Rounds

end Executor

end Qfc.Qvm
