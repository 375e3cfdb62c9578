import QfcCore.Qvm.Instructions

/-!
# Executions end

Every jump costs gas, no instruction adds a frame, and what costs nothing goes
forward in the code or returns. So a potential goes down with every round: the
gas that is left, each unit of it worth more than the whole code, and for every
frame the way to the end of the code. The number of rounds is bounded by it.

There is one gap. The meter adds with saturation and then compares with the
limit, so with the largest 64-bit number as the limit the gas never runs out,
and a loop goes on for ever (`loop_never_ends`).
-/

namespace Qfc.Qvm

open GasMeter List

/-- What is not free is added up, as long as the sum stays below the largest
64-bit number. -/
theorem GasMeter.used_consume {m m' : GasMeter} {amount : ℕ} (h : m.consume amount = (.ok (), m'))
    (hlimit : m.limit < 2 ^ 64 - 1) : m'.used = m.used + amount := by
  unfold consume at h
  split at h
  · rename_i hle
    cases h
    show satAdd64 m.used amount = m.used + amount
    unfold satAdd64 at hle ⊢
    omega
  · cases h

/-- Free instructions do not jump. -/
theorem Opcode.free_cases {opcode : Opcode} (h : GasCosts.default.opcodeCost opcode = 0) :
    opcode = .nop ∨ opcode = .ret ∨ opcode = .revert ∨ opcode = .halt := by
  revert h
  cases opcode <;> decide

namespace Executor

/-! ## The potential -/

section Potential

variable (code : List Instruction)

/-- The way to the end of the code, counting the return. -/
def way (pc : ℕ) : ℕ := code.length - pc + 1

/-- **The potential of an executor.** -/
def potential (s : Executor) : ℕ :=
  s.gas.remaining * (code.length + 1) + ((s.frames.map CallFrame.pc).map (way code)).sum

variable {code} {blake3 : Bytes → H256} {s s' : Executor}

theorem way_le (pc : ℕ) : way code pc ≤ code.length + 1 := Nat.succ_le_succ (Nat.sub_le _ _)

variable {instr : Instruction}

theorem way_succ {pc : ℕ} (h : code[pc]? = some instr) : way code (pc + 1) < way code pc := by
  have hlt : pc < code.length := (List.getElem?_eq_some_iff.mp h).1
  unfold way
  omega

theorem remaining_le {m m' : GasMeter} (h : Advances m m') : m'.remaining ≤ m.remaining := by
  have hlimit := h.limit
  have hused := h.used
  unfold remaining
  omega

variable {flow : ControlFlow}

/-- The frames after an instruction: the current one goes on, jumps or
returns. -/
theorem follow_cases {pc : ℕ} {pcs : List ℕ} (hpcs : s.frames.map CallFrame.pc = pc :: pcs)
    (h : follow flow s = (.ok (), s')) :
    s'.gas = s.gas ∧
      (flow = .next ∧ s'.frames.map CallFrame.pc = pc :: pcs ∨
      (∃ target, flow = .jump target ∧ s'.frames.map CallFrame.pc = target :: pcs) ∨
      flow = .ret ∧ s'.frames.map CallFrame.pc = pcs) := by
  obtain ⟨frame, rest, hframes, rfl, rfl⟩ := map_eq_cons_iff.mp hpcs
  cases flow with
  | next =>
    cases h
    exact ⟨rfl, .inl ⟨rfl, hpcs⟩⟩
  | jump target =>
    rw [follow_jump, hframes] at h
    cases h
    exact ⟨rfl, .inr (.inl ⟨target, rfl, rfl⟩)⟩
  | ret =>
    cases h
    refine ⟨rfl, .inr (.inr ⟨rfl, ?_⟩)⟩
    show s.frames.tail.map CallFrame.pc = _
    rw [hframes]
    rfl
  | halt | revert => cases h

/-- The state behind an instruction that was executed. -/
theorem step_continues {frame : CallFrame} {rest : List CallFrame} {gas : GasMeter}
    (hexec : executeInstruction blake3 instr
      { s with gas := gas, frames := { frame with pc := frame.pc + 1 } :: rest } = (.ok flow, s')) :
    s'.frames.map CallFrame.pc = (frame.pc + 1) :: rest.map CallFrame.pc ∧
      Advances gas s'.gas := by
  have hcontinues := continues_executeInstruction blake3 instr
    { s with gas := gas, frames := { frame with pc := frame.pc + 1 } :: rest }
  rw [hexec] at hcontinues
  exact ⟨hcontinues.pcs, hcontinues.gas⟩

theorem free_flow {s₀ s₁ : Executor} (hfree : GasCosts.default.opcodeCost instr.opcode = 0)
    (hexec : executeInstruction blake3 instr s₀ = (.ok flow, s₁)) (target : ℕ) :
    flow ≠ .jump target := by
  rintro rfl
  obtain ⟨opcode, operand⟩ := instr
  obtain rfl | rfl | rfl | rfl := Opcode.free_cases hfree
  · cases hexec
  · obtain ⟨_, _, -, hexec⟩ := Act.bind_eq_ok.mp hexec
    obtain ⟨_, _, -, hexec⟩ := Act.bind_eq_ok.mp hexec
    obtain ⟨_, _, -, hexec⟩ := Act.bind_eq_ok.mp hexec
    cases hexec
  · cases hexec
  · cases hexec

/-- Every round that goes on takes from the potential, and leaves the
limit. -/
theorem potential_step (hlimit : s.gas.limit < 2 ^ 64 - 1)
    (hstep : step blake3 code s = (.ok true, s')) :
    potential code s' < potential code s ∧ s'.gas.limit = s.gas.limit := by
  obtain ⟨frame, rest, hframes, -, rfl⟩ |
    ⟨frame, rest, instr, gas, flow, s₁, hframes, hinstr, hgas, hexec, hfollow⟩ := step_cases hstep
  · refine ⟨?_, rfl⟩
    unfold potential way
    rw [hframes]
    simp only [map_cons, sum_cons]
    omega
  · obtain ⟨hpcs, hadvances⟩ := step_continues hexec
    have hconsume : Advances s.gas gas := by
      have h := s.gas.advances_consume (GasCosts.default.opcodeCost instr.opcode)
      rwa [show s.gas.consume _ = (.ok (), gas) from hgas] at h
    obtain ⟨hsame, hflow⟩ := follow_cases hpcs hfollow
    have hway : 0 < way code frame.pc := Nat.succ_pos _
    have hgas' : s'.gas.remaining ≤ s.gas.remaining := by
      rw [hsame]
      exact remaining_le (hconsume.trans hadvances)
    refine ⟨?_, by rw [hsame, hadvances.limit, hconsume.limit]⟩
    unfold potential
    rw [hframes]
    -- gas that is left is worth more than the whole code
    have hmul := Nat.mul_le_mul_right (code.length + 1) hgas'
    obtain ⟨-, hpcs'⟩ | ⟨target, rfl, hpcs'⟩ | ⟨-, hpcs'⟩ := hflow
    · have hsucc := way_succ hinstr
      rw [hpcs']
      simp only [map_cons, sum_cons]
      omega
    · have hcost : 0 < GasCosts.default.opcodeCost instr.opcode :=
        Nat.pos_of_ne_zero fun hfree => free_flow hfree hexec target rfl
      have hused := used_consume hgas hlimit
      have hless : s'.gas.remaining + 1 ≤ s.gas.remaining := by
        have hremaining := remaining_le hadvances
        have hused_le := gas.used_le
        have hlimit' := hconsume.limit
        rw [hsame]
        unfold remaining at hremaining ⊢
        omega
      have hjump := Nat.mul_le_mul_right (code.length + 1) hless
      have hle : way code target ≤ code.length + 1 := way_le target
      rw [Nat.add_mul, Nat.one_mul] at hjump
      rw [hpcs']
      simp only [map_cons, sum_cons]
      omega
    · rw [hpcs']
      simp only [map_cons, sum_cons]
      omega

theorem runFor_ends {n : ℕ} (hlimit : s.gas.limit < 2 ^ 64 - 1) (hn : potential code s < n) :
    ∃ result, runFor blake3 code n s = some result := by
  induction n generalizing s with
  | zero => cases hn
  | succ n ih =>
    unfold runFor
    rcases hstep : step blake3 code s with ⟨o, s'⟩
    cases o with
    | ok more =>
      cases more with
      | true =>
        obtain ⟨hless, hlimit'⟩ := potential_step hlimit hstep
        exact ih (hlimit' ▸ hlimit) (by omega)
      | false => exact ⟨_, rfl⟩
    | err e | panic => exact ⟨_, rfl⟩

end Potential

/-! ## Gas along a run -/

section Gas

variable (blake3 : Bytes → H256) (code : List Instruction)

/-- The state after so many rounds, or at the end of the run. -/
def rounds : ℕ → Executor → Executor
  | 0, s => s
  | n + 1, s =>
    match step blake3 code s with
    | (.ok true, s') => rounds n s'
    | (_, s') => s'

variable {blake3 code}

theorem follow_gas (flow : ControlFlow) (s : Executor) : (follow flow s).2.gas = s.gas := by
  cases flow with
  | next | ret | halt | revert => rfl
  | jump target => rw [follow_jump]

/-- However a round ends, gas has only been used. -/
theorem advances_step (blake3 : Bytes → H256) (code : List Instruction) (s : Executor) :
    Advances s.gas (step blake3 code s).2.gas := by
  cases hframes : s.frames with
  | nil =>
    rw [step_nil hframes]
    exact .refl _
  | cons frame rest =>
    cases hinstr : code[frame.pc]? with
    | none =>
      rw [step_end hframes hinstr]
      exact .refl _
    | some instr =>
      rw [step_some hframes hinstr]
      have hcharge := continues_charge fun m =>
        m.advances_consume (GasCosts.default.opcodeCost instr.opcode)
      -- the parts of the round, from any state that has gone on from `s`
      have hend : ∀ flow, Act.Keeps (fun t => Advances s.gas t.gas)
          (follow flow >>= fun _ => pure true) := by
        refine fun flow => .bind (fun t ht => ?_) fun _ t ht => ht
        show Advances s.gas (follow flow t).2.gas
        rw [follow_gas]
        exact ht
      exact Act.Keeps.bind (fun t ht => ht.trans (hcharge t).gas) (fun _ => .bind
        (fun t ht => ht.trans (continues_executeInstruction blake3 instr t).gas) hend) _ (.refl _)

/-- Along a run gas is only used, and the limit stays. -/
theorem advances_rounds (n : ℕ) (s : Executor) :
    Advances (rounds blake3 code n s).gas (rounds blake3 code (n + 1) s).gas := by
  induction n generalizing s with
  | zero =>
    have hstep := advances_step blake3 code s
    show Advances s.gas (match step blake3 code s with
      | (.ok true, s') => s'
      | (_, s') => s').gas
    rcases hs : step blake3 code s with ⟨o, s'⟩
    rw [hs] at hstep
    match o, hstep with
    | .ok true, hstep | .ok false, hstep | .err _, hstep | .panic, hstep => exact hstep
  | succ n ih =>
    rw [rounds, rounds]
    rcases step blake3 code s with ⟨o, s'⟩
    match o with
    | .ok true => exact ih s'
    | .ok false | .err _ | .panic => exact .refl _

theorem rounds_limit (n : ℕ) (s : Executor) :
    (rounds blake3 code n s).gas.limit = s.gas.limit := by
  induction n with
  | zero => rfl
  | succ n ih => rw [(advances_rounds n s).limit, ih]

end Gas

/-! ## The largest limit -/

/-- A context in which nothing is given. -/
def idleContext : ExecutionContext where
  address := .zero
  caller := .zero
  value := .zero
  origin := .zero
  gasPrice := .zero
  blockNumber := 0
  timestamp := 0
  coinbase := .zero
  difficulty := .zero
  gasLimit := 0
  chainId := 0
  isStatic := false

/-- A loop: it jumps to its own start. -/
def loop : List Instruction := [.new .jump]

/-- With the largest limit every round of the loop leads to the next. -/
theorem step_loop {blake3 : Bytes → H256} {s : Executor} {locals : List Value}
    (hlimit : s.gas.limit = 2 ^ 64 - 1) (hframes : s.frames = [⟨0, locals⟩]) :
    ∃ s', step blake3 loop s = (.ok true, s') ∧ s'.gas.limit = 2 ^ 64 - 1 ∧
      s'.frames = [⟨0, locals⟩] := by
  have hconsume : ∃ m, s.gas.consumeOpcode .jump = (.ok (), m) ∧ m.limit = 2 ^ 64 - 1 := by
    unfold consumeOpcode consume
    rw [dif_pos (hlimit ▸ min_le_right _ _)]
    exact ⟨_, rfl, hlimit⟩
  obtain ⟨m, hm, hm'⟩ := hconsume
  refine ⟨{ s with gas := m, frames := [⟨0, locals⟩] }, ?_, hm', rfl⟩
  rw [step_some hframes (rfl : loop[0]? = some (.new .jump))]
  have hcharge : charge (fun m => m.consumeOpcode (Instruction.new .jump).opcode)
      { s with frames := [⟨1, locals⟩] } = (.ok (), { s with gas := m, frames := [⟨1, locals⟩] }) := by
    unfold charge
    dsimp only
    rw [show s.gas.consumeOpcode (Instruction.new .jump).opcode = (.ok (), m) from hm]
  rw [Act.bind_ok _ hcharge]
  rfl

theorem loop_never_ends {blake3 : Bytes → H256} {s : Executor} {locals : List Value}
    (hlimit : s.gas.limit = 2 ^ 64 - 1) (hframes : s.frames = [⟨0, locals⟩]) (n : ℕ) :
    runFor blake3 loop n s = none := by
  induction n generalizing s with
  | zero => rfl
  | succ n ih =>
    obtain ⟨s', hstep, hlimit', hframes'⟩ := step_loop hlimit hframes
    unfold runFor
    rw [hstep]
    exact ih hlimit' hframes'

/-! ## The bound -/

/-- The frames and the gas limit bound the potential. -/
theorem potential_enter_le (code : List Instruction) (s : Executor) :
    potential code s.enter ≤ (s.gas.limit + s.frames.length + 1) * (code.length + 1) := by
  have hgas : s.enter.gas.remaining ≤ s.gas.limit := Nat.sub_le _ _
  have hways : ((s.enter.frames.map CallFrame.pc).map (way code)).sum
      ≤ (s.frames.length + 1) * (code.length + 1) := by
    have h := sum_le_card_nsmul ((s.enter.frames.map CallFrame.pc).map (way code))
      (code.length + 1) fun n hn => by
        obtain ⟨pc, -, rfl⟩ := mem_map.mp hn
        exact way_le pc
    rw [length_map, length_map] at h
    exact h
  have hmul := Nat.mul_le_mul_right (code.length + 1) hgas
  unfold potential
  rw [Nat.add_assoc, Nat.add_mul]
  exact Nat.add_le_add hmul hways

/-- **With a gas limit below the largest 64-bit number every execution ends**,
within a number of rounds that the limit, the length of the code and the number
of frames give; with that limit some do not. The gas used goes up along a run,
and stays within the limit. -/
theorem run_ends_iff (limit : ℕ) :
    (∀ (blake3 : Bytes → H256) (code : List Instruction) (s : Executor), s.gas.limit = limit →
      (∃ result, runFor blake3 code
        ((limit + s.frames.length + 1) * (code.length + 1) + 1) s.enter = some result) ∧
      ∀ n, (rounds blake3 code n s.enter).gas.used ≤ (rounds blake3 code (n + 1) s.enter).gas.used ∧
        (rounds blake3 code n s.enter).gas.used ≤ limit) ↔
      limit ≠ 2 ^ 64 - 1 := by
  constructor
  · rintro hends rfl
    let s := Executor.new (2 ^ 64 - 1) (by decide) idleContext
    obtain ⟨⟨result, hrun⟩, -⟩ := hends (fun _ => .zero) loop s rfl
    have hnever : ∀ n, runFor (fun _ => .zero) loop n s.enter = none := loop_never_ends rfl rfl
    rw [hnever] at hrun
    cases hrun
  · rintro hlimit blake3 code s rfl
    refine ⟨runFor_ends ?_ (Nat.lt_succ_of_le (potential_enter_le code s)), fun n =>
      ⟨(advances_rounds n _).used, ?_⟩⟩
    · have := s.gas.limit_lt
      show s.gas.limit < 2 ^ 64 - 1
      omega
    · rw [show s.gas.limit = s.enter.gas.limit from rfl, ← rounds_limit n s.enter]
      exact used_le _

theorem loop_runs_for_ever :
    loop.length = 1 ∧ ∀ n, runFor (fun _ => .zero) loop n
      (Executor.new (2 ^ 64 - 1) (by decide) idleContext).enter = none :=
  ⟨rfl, loop_never_ends rfl rfl⟩

end Executor

end Qfc.Qvm
