import QfcCore.Qvm.Termination

/-!
# Panics of the interpreter

The interpreter turns 256-bit numbers from the stack into sizes and offsets,
with a conversion that panics on what does not fit, and copies the operand of a
push into 32 bytes, which panics on a longer one. The other places where it could
panic are not reached: the slices of the memory are in range after the checks
before them, the code is indexed below its length, and there is a frame when the
index of the current one is computed. `safe` is the condition on a state under
which an instruction does neither of the two, and an execution returns exactly if
every instruction that it reaches is safe (`execute_returns_iff`).
-/

namespace Qfc.Qvm.Executor

open Act

/-! ## Safe instructions -/

/-- The numbers on top of a stack that are to be sizes fit one, up to the first
value that is no number. -/
def fits : List Bool → List Value → Bool
  | isSize :: operands, value :: values =>
    match value.asU256 with
    | some word => (!isSize || word.val < 2 ^ 64) && fits operands values
    | none => true
  | _, _ => true

/-- **An instruction is safe**: what it takes as a size fits, and what it pushes
has 32 bytes at most. -/
def safe (s : Executor) (instr : Instruction) : Bool :=
  match instr.opcode with
  | .push => instr.operand.all (fun operand => operand.length ≤ 32)
  | .load => fits [true] s.stack.values
  | .store => fits [false, true] s.stack.values
  | .log0 | .log1 | .log2 | .log3 | .log4 => s.context.isStatic || fits [true, true] s.stack.values
  | .keccak256 => fits [true, true] s.stack.values
  | _ => true

section Safe

variable {α : Type} {s : Executor} {f : ℕ → Instr α}

/-- The state without the top of its stack. -/
def dropped (s : Executor) : Executor := { s with stack := s.stack.tail }

theorem pop_eq (s : Executor) :
    Executor.pop s = match s.stack.values with
      | value :: _ => (.ok value, s.dropped)
      | [] => (.err (.memory .stackUnderflow), s) := by
  show (ofExcept .memory s.stack.pop >>= fun p => (modify fun s => { s with stack := p.2 })
    >>= fun _ => pure p.1 : Instr Value) s = _
  unfold Stack.pop
  cases s.stack.values <;> rfl

theorem popAs_eq (parse : Value → Option α) (expected : String) (s : Executor) :
    popAs parse expected s = match s.stack.values with
      | value :: _ => match parse value with
        | some a => (.ok a, s.dropped)
        | none => (.err (.typeError expected value.typeName), s.dropped)
      | [] => (.err (.memory .stackUnderflow), s) := by
  unfold popAs
  have hpop := pop_eq s
  cases hvalues : s.stack.values with
  | nil =>
    rw [hvalues] at hpop
    rw [bind_err _ hpop]
  | cons value values =>
    rw [hvalues] at hpop
    rw [bind_ok _ hpop]
    dsimp only
    cases parse value <;> rfl

theorem popU256_panic_iff {f : U256 → Instr α} :
    ((popU256 >>= f) s).1 = .panic ↔
      ∃ value values word, s.stack.values = value :: values ∧ value.asU256 = some word ∧
        (f word s.dropped).1 = .panic := by
  have hpop : popU256 s = _ := popAs_eq Value.asU256 "u256" s
  cases hvalues : s.stack.values with
  | nil =>
    rw [hvalues] at hpop
    rw [bind_err f hpop]
    simp
  | cons value values =>
    rw [hvalues] at hpop
    dsimp only at hpop
    cases hword : value.asU256 with
    | none =>
      rw [hword] at hpop
      rw [bind_err f hpop]
      simp [hword]
    | some word =>
      rw [hword] at hpop
      rw [bind_ok f hpop]
      simp [hword]

theorem orPanic_asUsize {word : U256} :
    ((orPanic word.asUsize >>= f) s).1 = .panic ↔
      (word.val < 2 ^ 64 → (f word.val s).1 = .panic) := by
  unfold U256.asUsize
  split
  next hword => exact ⟨fun h _ => h, fun h => h hword⟩
  next hword => exact ⟨fun _ h => absurd h hword, fun _ => rfl⟩

theorem popUsize_panic_iff :
    ((popUsize >>= f) s).1 = .panic ↔
      ∃ value values word, s.stack.values = value :: values ∧ value.asU256 = some word ∧
        (word.val < 2 ^ 64 → (f word.val s.dropped).1 = .panic) := by
  have hassoc : (popUsize >>= f) = popU256 >>= fun word => orPanic word.asUsize >>= f :=
    bind_assoc ..
  rw [hassoc, popU256_panic_iff]
  simp only [orPanic_asUsize]

/-- What an action takes from the stack is all that can make it panic. -/
def PanicsUnless (operands : List Bool) (x : Instr α) : Prop :=
  ∀ s, (x s).1 = .panic ↔ fits operands s.stack.values = false

theorem thorough_any : Thorough (fun _ _ => True) := by
  constructor <;> intros <;> trivial

variable {Q : α → Prop} {operands : List Bool}

theorem Ends.ne_panic {R : Executor → Executor → Prop} {x : Instr α} (hx : Ends False R Q x)
    (s : Executor) : (x s).1 ≠ .panic := by
  intro h
  have hs := (hx s).2
  rw [h] at hs
  exact hs

theorem Ends.panicsUnless {x : Instr α} (hx : Ends False (fun _ _ => True) Q x) :
    PanicsUnless [] x :=
  fun s => ⟨fun h => absurd h (hx.ne_panic s), nofun⟩

theorem dropped_values {value : Value} {values : List Value} (h : s.stack.values = value :: values) :
    s.dropped.stack.values = values := by
  show s.stack.values.tail = values
  rw [h, List.tail_cons]

theorem PanicsUnless.popU256 {f : U256 → Instr α} (hf : ∀ word, PanicsUnless operands (f word)) :
    PanicsUnless (false :: operands) (popU256 >>= f) := by
  intro s
  rw [popU256_panic_iff]
  cases hvalues : s.stack.values with
  | nil => simp [fits]
  | cons value values =>
    cases hword : value.asU256 with
    | none => simp [fits, hword]
    | some word => simp [fits, hword, hf word s.dropped, dropped_values hvalues]

theorem PanicsUnless.popUsize (hf : ∀ size < 2 ^ 64, PanicsUnless operands (f size)) :
    PanicsUnless (true :: operands) (popUsize >>= f) := by
  intro s
  rw [popUsize_panic_iff]
  cases hvalues : s.stack.values with
  | nil => simp [fits]
  | cons value values =>
    cases hword : value.asU256 with
    | none => simp [fits, hword]
    | some word =>
      have hrest (hword : word.val < 2 ^ 64) := hf word.val hword s.dropped
      simp only [dropped_values hvalues] at hrest
      simp +contextual [fits, hword, hrest]

theorem panicsUnless_load : PanicsUnless [true] executeLoad :=
  have hr := thorough_any.routine
  .popUsize fun _ hoffset => (Ends.bind hr (ends_get hr) fun _ =>
    .bind hr (ends_ofMemory hr (Memory.readU256_ne_panic hoffset)) fun _ =>
    ends_push_next hr trivial).panicsUnless

theorem panicsUnless_store : PanicsUnless [false, true] executeStore :=
  have hr := thorough_any.routine
  .popU256 fun _ => .popUsize fun _ _ => (Ends.bind hr (ends_get hr) fun _ =>
    .bind hr (ends_ofMemory hr Memory.write_ne_panic) fun _ =>
    ends_modify_next hr fun _ => trivial).panicsUnless

theorem panicsUnless_keccak256 (blake3 : Bytes → H256) :
    PanicsUnless [true, true] (executeKeccak256 blake3) :=
  have hr := thorough_any.routine
  .popUsize fun _ _ => .popUsize fun _ hoffset => (Ends.bind hr (ends_get hr) fun _ =>
    .bind hr (ends_ofMemory hr (Memory.read_ne_panic _ hoffset)) fun _ =>
    ends_push_next hr trivial).panicsUnless

/-- A log of a static call fails before it takes anything. -/
theorem emitLog_panic_iff (topicCount : ℕ) :
    (emitLog topicCount s).1 = .panic ↔
      (s.context.isStatic || fits [true, true] s.stack.values) = false := by
  have hr := thorough_any.routine
  have hlog : PanicsUnless [true, true] _ := .popUsize fun size _ => .popUsize fun offset hoffset =>
    (Ends.bind hr (ends_popTopics hr topicCount) fun topics => .bind hr (ends_get hr) fun s =>
      .bind hr (ends_ofMemory hr (s.memory.read_ne_panic size hoffset)) fun data =>
        ends_modify_next hr (f := fun s =>
          { s with logs := s.logs ++ [⟨s.context.address, topics, data⟩] })
          fun _ => trivial).panicsUnless
  unfold emitLog
  rw [bind_ok _ (rfl : get s = (.ok s, s))]
  cases s.context.isStatic with
  | true => exact ⟨nofun, nofun⟩
  | false => exact hlog s

theorem push_panic_iff (instr : Instruction) :
    (executePush instr s).1 = .panic ↔
      instr.operand.all (fun operand => operand.length ≤ 32) = false := by
  have hpush (value : Value) :
      ((push value >>= fun _ => pure ControlFlow.next : Instr ControlFlow) s).1 ≠ .panic :=
    (ends_push_next thorough_any.routine trivial).ne_panic s
  unfold executePush decodePushValue
  cases instr.operand with
  | none => exact ⟨fun h => absurd h (hpush _), nofun⟩
  | some operand =>
    dsimp only [Option.all_some]
    split
    next hlength =>
      rw [decide_eq_true hlength]
      exact ⟨fun h => absurd h (hpush _), nofun⟩
    next hlength =>
      rw [decide_eq_false hlength]
      exact ⟨fun _ => rfl, fun _ => rfl⟩

/-- An action that does not panic where there is a frame. -/
def Calm (x : Instr α) : Prop := ∀ s, s.frames ≠ [] → (x s).1 ≠ .panic

theorem Calm.lastIndex (hf : ∀ i, Ends False (fun _ _ => True) Q (f i)) :
    Calm (lastIndex >>= f) := by
  intro s hne
  obtain ⟨frame, rest, hframes⟩ := List.exists_cons_of_ne_nil hne
  rw [bind_ok _ (lastIndex_cons hframes)]
  exact (hf _).ne_panic s

theorem Calm.bind {β : Type} {x : Instr β} {f : β → Instr α} (hx : Ends False Continues ⊤ x)
    (hf : ∀ b, Calm (f b)) : Calm (x >>= f) := by
  intro s hne hpanic
  obtain hpanic | ⟨b, s₁, hxs, hpanic⟩ := bind_eq_panic.mp hpanic
  · exact hx.ne_panic s hpanic
  · have hpcs := (hx s).1.pcs
    rw [hxs] at hpcs
    refine hf b s₁ (fun hnil => hne ?_) hpanic
    rw [hnil] at hpcs
    exact List.map_eq_nil_iff.mp hpcs.symm

theorem calm_return : Calm executeReturn :=
  have hr := thorough_any.routine
  .lastIndex fun _ => .bind hr (ends_get hr) fun _ => .bind hr (ends_ofExcept hr _) fun _ =>
    ends_pure hr rfl

theorem calm_resourceCreate (instr : Instruction) : Calm (executeResourceCreate instr) :=
  have hr := thorough_any.routine
  .bind (ends_decodeString thorough_continues.routine _) fun _ => .lastIndex fun _ =>
    .bind hr (ends_currentFrame hr) fun _ => .bind hr (ends_get hr) fun _ =>
    .bind hr (fun _ => ⟨trivial, trivial⟩) fun _ => ends_push_next hr trivial

theorem calm_resourceMove : Calm executeResourceMove := by
  have hr := thorough_any.routine
  refine .bind (ends_pop thorough_continues.routine) fun value => ?_
  split
  · exact .lastIndex fun _ => .bind hr (ends_get hr) fun _ => .bind hr (ends_ofExcept hr _) fun _ =>
      .bind hr (fun _ => ⟨trivial, trivial⟩) fun _ => ends_push_next hr trivial
  · exact fun s _ => (ends_fail (Q := ⊤) hr _).ne_panic s

theorem calm_resourceBorrow (isMutable : Bool) : Calm (executeResourceBorrow isMutable) := by
  have hr := thorough_any.routine
  have hc := thorough_continues.routine
  refine .bind (ends_get hc) fun _ => .bind (ends_ofExcept hc _) fun value => ?_
  split
  · exact .lastIndex fun _ => .bind hr (ends_get hr) fun _ => .bind hr (ends_ofExcept hr _) fun _ =>
      ends_modify_next hr fun _ => trivial
  · exact fun s _ => (ends_pure hr (Q := ⊤) trivial).ne_panic s

/-- An instruction panics exactly if it is not safe. -/
theorem executeInstruction_panic_iff (hframes : s.frames ≠ []) (blake3 : Bytes → H256)
    (instr : Instruction) :
    (executeInstruction blake3 instr s).1 = .panic ↔ safe s instr = false := by
  cases hpanics : instr.opcode.panics with
  | true =>
    unfold executeInstruction safe
    cases hopcode : instr.opcode with
    | push => exact push_panic_iff instr
    | load => exact panicsUnless_load s
    | store => exact panicsUnless_store s
    | log0 | log1 | log2 | log3 | log4 => exact emitLog_panic_iff _
    | keccak256 => exact panicsUnless_keccak256 blake3 s
    | ret => exact ⟨fun h => absurd h (calm_return s hframes), nofun⟩
    | resourceCreate => exact ⟨fun h => absurd h (calm_resourceCreate instr s hframes), nofun⟩
    | resourceMove => exact ⟨fun h => absurd h (calm_resourceMove s hframes), nofun⟩
    | resourceBorrow | resourceBorrowMut =>
      exact ⟨fun h => absurd h (calm_resourceBorrow _ s hframes), nofun⟩
    | _ => rw [hopcode] at hpanics; cases hpanics
  | false =>
    have hcalm : (executeInstruction blake3 instr s).1 ≠ .panic :=
      (ends_executeInstruction thorough_any blake3 (by rw [hpanics]; nofun)).ne_panic s
    have hsafe : safe s instr = true := by
      unfold safe
      cases hopcode : instr.opcode <;> first | rfl | (rw [hopcode] at hpanics; cases hpanics)
    rw [hsafe]
    exact ⟨fun h => absurd h hcalm, nofun⟩

end Safe

/-! ## Safe runs -/

section Runs

variable {blake3 : Bytes → H256} {code : List Instruction} {s s' : Executor}
  {o : Outcome ExecutionError Unit}

/-- **A round is safe**: it ends the run or a frame, or the instruction that it
reaches cannot be paid or is safe. -/
def safeRound (code : List Instruction) (s : Executor) : Bool :=
  match s.frames with
  | [] => true
  | frame :: _ =>
    match code[frame.pc]? with
    | none => true
    | some instr =>
      match (s.gas.consumeOpcode instr.opcode).1 with
      | .ok () => safe s instr
      | .error _ => true

theorem step_panic_iff : (step blake3 code s).1 = .panic ↔ safeRound code s = false := by
  unfold safeRound
  cases hframes : s.frames with
  | nil =>
    simp [step_nil hframes]
  | cons frame rest =>
    dsimp only
    cases hinstr : code[frame.pc]? with
    | none =>
      simp [step_end hframes hinstr]
    | some instr =>
      rw [step_some hframes hinstr]
      set s₀ : Executor := { s with frames := { frame with pc := frame.pc + 1 } :: rest }
      dsimp only
      rcases hgas : s.gas.consumeOpcode instr.opcode with ⟨e | _, m⟩
      · rw [bind_err _ (show charge _ s₀ = (.err (.gas e), { s₀ with gas := m }) by
          simp only [charge, show s₀.gas = s.gas from rfl, hgas])]
        simp
      · rw [bind_ok _ (show charge _ s₀ = (.ok (), { s₀ with gas := m }) by
          simp only [charge, show s₀.gas = s.gas from rfl, hgas]),
          bind_eq_panic, executeInstruction_panic_iff (List.cons_ne_nil _ _)]
        constructor
        · rintro (h | ⟨flow, s₁, -, h⟩)
          · exact h
          · cases flow <;> cases h
        · exact .inl

theorem finish_panic_iff : (finish (o, s)).1 = .panic ↔ o = .panic := by
  match o with
  | .ok () => exact ⟨nofun, nofun⟩
  | .panic => exact ⟨fun _ => rfl, fun _ => rfl⟩
  | .err e => cases e <;> exact ⟨nofun, nofun⟩

/-- A round after which there is none, and a panic, reach no other state. -/
theorem Reaches.eq_of_step {o : Outcome ExecutionError Bool} {s₁ : Executor}
    (hreach : Reaches blake3 code s s') (hstep : step blake3 code s = (o, s₁))
    (ho : o ≠ .ok true) : s' = s := by
  obtain rfl | ⟨s₂, hgoes, -⟩ := Relation.ReflTransGen.cases_head hreach
  · rfl
  · exact absurd (congrArg Prod.fst (hstep.symm.trans hgoes)) ho

/-- A run that ends does so without a panic exactly if all its rounds are
safe. -/
theorem runFor_safe_iff {n : ℕ} (hrun : runFor blake3 code n s = some (o, s')) :
    o ≠ .panic ↔ ∀ s₁, Reaches blake3 code s s₁ → safeRound code s₁ = true := by
  induction n generalizing s with
  | zero => cases hrun
  | succ n ih =>
    unfold runFor at hrun
    rcases hstep : step blake3 code s with ⟨o₁, s₁⟩
    rw [hstep] at hrun
    have hround : o₁ ≠ .panic ↔ safeRound code s = true := by
      rw [← Bool.not_eq_false, ← (step_panic_iff : (step blake3 code s).1 = .panic ↔ _), hstep]
    -- a round that ends the run is the only one
    have hlast (ho : o₁ ≠ .ok true) :
        (∀ s₂, Reaches blake3 code s s₂ → safeRound code s₂ = true) ↔ o₁ ≠ .panic :=
      ⟨fun h => hround.mpr (h s .refl), fun h s₂ hreach =>
        (hreach.eq_of_step hstep ho) ▸ hround.mp h⟩
    rcases o₁ with (_ | _) | e | _
    case ok.true =>
      refine (ih hrun).trans ⟨fun h s₂ hreach => ?_, fun h s₂ hreach => h s₂ (.head hstep hreach)⟩
      obtain rfl | ⟨s₃, hgoes, hreach⟩ := Relation.ReflTransGen.cases_head hreach
      · exact hround.mp (by simp)
      · obtain rfl : s₁ = s₃ := congrArg Prod.snd (hstep.symm.trans hgoes)
        exact h s₂ hreach
    all_goals
      cases hrun
      rw [hlast (by simp)]
      simp

/-- **An execution returns exactly if all its rounds are safe**, for a gas limit
below the largest 64-bit number. -/
theorem execute_returns_iff (blake3 : Bytes → H256) (code : List Instruction) (s : Executor)
    (hlimit : s.gas.limit < 2 ^ 64 - 1) :
    (∃ result s', Executes blake3 code s result s' ∧ result ≠ .panic) ↔
      ∀ s₁, Reaches blake3 code s.enter s₁ → safeRound code s₁ = true := by
  constructor
  · rintro ⟨result, s', ⟨fuel, hrun⟩, hresult⟩
    unfold executeFor at hrun
    obtain ⟨⟨o, s₁⟩, hrun, hfinish⟩ := Option.map_eq_some_iff.mp hrun
    rw [← runFor_safe_iff hrun, ne_eq, ← finish_panic_iff, hfinish]
    exact hresult
  · intro hsafe
    obtain ⟨⟨o, s₁⟩, hrun⟩ : ∃ result, runFor blake3 code _ s.enter = some result :=
      runFor_ends hlimit (Nat.lt_succ_self _)
    refine ⟨_, _, ⟨_, congrArg (Option.map finish) hrun⟩, ?_⟩
    exact finish_panic_iff.not.mpr ((runFor_safe_iff hrun).mpr hsafe)

/-- An executor on which nothing has been executed. -/
def idle : Executor := .new 100000 limit_fits idleContext

/-- Loads from an offset that the stack gives. -/
def loading (offset : Bytes) : List Instruction := [⟨.push, some offset⟩, ⟨.load, none⟩]

/-- An offset of 64 bits is not in the memory, which is an error. -/
theorem loading_returns :
    (idle.gas.limit < 2 ^ 64 - 1) ∧
      ∀ s₁, Reaches (fun _ => .zero) (loading [255, 255, 255, 255, 255, 255, 255, 255])
        idle.enter s₁ →
          safeRound (loading [255, 255, 255, 255, 255, 255, 255, 255]) s₁ = true :=
  ⟨by decide, (execute_returns_iff _ _ _ (by decide)).mp ⟨_, _, ⟨3, rfl⟩, nofun⟩⟩

/-- With one more byte, the number does not fit a size, and with 33 bytes not
the stack. -/
theorem loading_panics :
    (∃ s', Executes (fun _ => .zero) (loading [1, 0, 0, 0, 0, 0, 0, 0, 0]) idle .panic s') ∧
      ∃ s', Executes (fun _ => .zero) (loading (List.replicate 33 0)) idle .panic s' :=
  ⟨⟨_, 2, rfl⟩, ⟨_, 1, rfl⟩⟩

end Runs

end Qfc.Qvm.Executor
