import QfcCore.Qvm.Parts
import QfcCore.Qvm.Instructions

/-!
# Failed executions

An execution that fails is not undone. The storage keeps what was stored, the
logs stay, and so do the values on the stack, the resources and the frame that
failed: `Storage::revert` exists and is never called. A later execution on the
same executor meets all that; in particular the loop goes on with the frame
that failed, in the code of the later execution, after the frame of the latter
has returned.

So whatever the code does before it fails, there is a later code that shows the
difference: no failing execution of an executor without frames and without
resources of its first frame is atomic (`execute_atomic_iff_succeeds`).
-/

namespace Qfc.Qvm.Executor

open List Act

/-! ## Frames -/

section Frames

variable {α : Type}

/-- An action that leaves every frame where it is. -/
def Still (x : Instr α) : Prop :=
  ∀ pcs, Act.Keeps (fun s => s.frames.map CallFrame.pc = pcs) x

theorem Still.length_le {x : Instr α} (hx : Still x) (n : ℕ) :
    Act.Keeps (fun s => s.frames.length ≤ n) x := by
  intro s hs
  have hpcs := congrArg length (hx _ s rfl)
  rw [length_map, length_map] at hpcs
  exact hpcs.trans_le hs

theorem still_of_leads {x : Instr α} (hx : Leads Continues x) : Still x :=
  fun _ s hs => (hx s).pcs.trans hs

theorem still_consumeOpcode (opcode : Opcode) : Still (charge fun m => m.consumeOpcode opcode) :=
  still_of_leads (continues_charge fun m => m.advances_consume _)

/-- No instruction moves a frame. -/
theorem still_executeInstruction (blake3 : Bytes → H256) (instr : Instruction) :
    Still (executeInstruction blake3 instr) :=
  still_of_leads (continues_executeInstruction blake3 instr)

end Frames

/-! ## Rounds -/

variable {frame : CallFrame} {fuel : ℕ} {result : Outcome ExecutionError ExecutionOutput}

variable {s' s : Executor} {blake3 : Bytes → H256}

section Rounds

variable {code : List Instruction} {rest : List CallFrame}

variable (blake3) in
/-- A round that fails leaves its frame, behind the instruction that failed. -/
theorem step_failing {instr : Instruction} (hframes : s.frames = frame :: rest)
    (hinstr : code[frame.pc]? = some instr) (hfails : ∀ more, (step blake3 code s).1 ≠ .ok more) :
    (step blake3 code s).2.frames.map CallFrame.pc = (frame.pc + 1) :: rest.map CallFrame.pc := by
  rw [step_some hframes hinstr] at hfails ⊢
  refine (still_consumeOpcode _ _).bind_failing (fun _ =>
    (still_executeInstruction blake3 instr _).bind_failing fun flow => ?_) _ rfl hfails
  cases flow with
  | next | jump | ret => exact fun _ _ hne => absurd rfl (hne true)
  | halt | revert => exact fun _ hs _ => hs

/-- No round adds a frame. -/
theorem step_frames_le (blake3 : Bytes → H256) (code : List Instruction) (n : ℕ) :
    Act.Keeps (fun s => s.frames.length ≤ n) (step blake3 code) := by
  intro s hs
  cases hframes : s.frames with
  | nil =>
    rw [step_nil hframes]
    exact hs
  | cons frame rest =>
    rw [hframes] at hs
    cases hinstr : code[frame.pc]? with
    | none =>
      rw [step_end hframes hinstr]
      exact (Nat.le_succ _).trans hs
    | some instr =>
      rw [step_some hframes hinstr]
      refine ((still_consumeOpcode _).length_le n).bind (fun _ =>
        ((still_executeInstruction blake3 instr).length_le n).bind fun flow => ?_) _ hs
      refine Act.Keeps.bind (fun s hs => ?_) fun _ _ hs => hs
      cases flow with
      | next | halt | revert => exact hs
      | jump target =>
        rw [follow_jump]
        exact length_modifyHead.trans_le hs
      | ret =>
        show s.frames.tail.length ≤ n
        rw [length_tail]
        exact (Nat.sub_le _ _).trans hs

end Rounds

/-! ## Runs -/

section Runs

variable {code : List Instruction} {o : Outcome ExecutionError Unit}

/-- A run of one frame that fails leaves the frame behind the instruction
that failed. -/
theorem runFor_failing (hone : s.frames.length ≤ 1) (hrun : runFor blake3 code fuel s = some (o, s'))
    (hfails : o ≠ .ok ()) : ∃ pc, s'.frames.map CallFrame.pc = [pc + 1] := by
  induction fuel generalizing s with
  | zero => cases hrun
  | succ fuel ih =>
    unfold runFor at hrun
    cases hframes : s.frames with
    | nil =>
      rw [step_nil hframes] at hrun
      cases hrun
      exact absurd rfl hfails
    | cons frame rest =>
      obtain rfl : rest = [] := by
        rw [hframes] at hone
        exact eq_nil_of_length_eq_zero (by simpa using hone)
      cases hinstr : code[frame.pc]? with
      | none =>
        rw [step_end hframes hinstr] at hrun
        exact ih (Nat.zero_le _) hrun
      | some instr =>
        have hlen := step_frames_le blake3 code 1 s hone
        have hpcs := step_failing blake3 hframes hinstr
        rcases hstep : step blake3 code s with ⟨(_ | _) | e | _, s₁⟩ <;> rw [hstep] at hrun hlen hpcs
        · cases hrun
          exact absurd rfl hfails
        · exact ih hlen hrun
        all_goals
          cases hrun
          exact ⟨frame.pc, hpcs fun _ h => by cases h⟩

/-- Only an execution that returns succeeds. -/
def succeeded : Outcome ExecutionError ExecutionOutput → Bool
  | .ok output => output.success
  | _ => false

theorem succeeded_finish : succeeded (finish (o, s)).1 = true ↔ o = .ok () := by
  match o with
  | .ok () => exact iff_of_true rfl rfl
  | .err e => cases e <;> exact iff_of_false nofun nofun
  | .panic => exact iff_of_false nofun nofun

theorem frames_finish : (finish (o, s)).2.frames = s.frames := by
  match o with
  | .ok () => rfl
  | .err e => cases e <;> rfl
  | .panic => rfl

theorem executes_iff :
    Executes blake3 code s result s' ↔
      ∃ fuel o s₁, runFor blake3 code fuel s.enter = some (o, s₁) ∧ finish (o, s₁) = (result, s') := by
  unfold Executes executeFor
  refine exists_congr fun fuel => ?_
  rw [Option.map_eq_some_iff]
  exact ⟨fun ⟨⟨o, s₁⟩, h⟩ => ⟨o, s₁, h⟩, fun ⟨o, s₁, h⟩ => ⟨(o, s₁), h⟩⟩

end Runs

/-! ## A later execution -/

section Later

/-- A code that returns at once, and reverts where the frame of a failed
execution goes on. -/
def revealing (pc : ℕ) : List Instruction :=
  .new .ret :: (replicate pc (.new .nop) ++ [.new .revert])

theorem revealing_zero (pc : ℕ) : (revealing pc)[0]? = some (.new .ret) := rfl

theorem revealing_succ (pc : ℕ) : (revealing pc)[pc + 1]? = some (.new .revert) := by
  unfold revealing
  rw [getElem?_cons_succ, getElem?_append_right (length_replicate).le,
    length_replicate, Nat.sub_self]
  rfl

theorem consume_zero (m : GasMeter) : m.consume 0 = (.ok (), m) := by
  obtain ⟨limit, used, refund, warmSlots, hlimit, hused⟩ := m
  have hsame : satAdd64 used 0 = used := min_eq_left (Nat.le_sub_one_of_lt (hused.trans_lt hlimit))
  unfold GasMeter.consume
  simp [hsame, hused]

/-- A return costs nothing and only looks at the resources. -/
theorem step_revealing (pc : ℕ) :
    step blake3 (revealing pc) s.enter =
      match s.resources.checkFrameExit s.frames.length with
      | .ok () => (.ok true, s)
      | .error e => (.err e, { s with frames := { CallFrame.new with pc := 1 } :: s.frames }) := by
  have hcharge : ∀ s : Executor,
      charge (fun m => m.consumeOpcode (Instruction.new .ret).opcode) s = (.ok (), s) := by
    intro s
    unfold charge
    dsimp only
    rw [show s.gas.consumeOpcode (Instruction.new .ret).opcode = (.ok (), s.gas) from
      consume_zero s.gas]
  rw [step_some (rfl : s.enter.frames = CallFrame.new :: s.frames) (revealing_zero pc),
    bind_ok _ (hcharge _)]
  show ((lastIndex >>= fun i => get >>= fun s => ofResult (s.resources.checkFrameExit i) >>=
    fun _ => pure .ret) >>= fun flow => follow flow >>= fun _ => pure true : Instr Bool) _ = _
  rw [bind_assoc, bind_ok _ (lastIndex_cons rfl)]
  show ((ofResult (s.resources.checkFrameExit s.frames.length) >>= fun _ => pure .ret) >>=
    fun flow => follow flow >>= fun _ => pure true : Instr Bool) _ = _
  cases s.resources.checkFrameExit s.frames.length <;> rfl

/-- Without frames, and without resources of the first one, it succeeds. -/
theorem revealing_succeeds (pc : ℕ) (hframes : s.frames = [])
    (howner : ∀ entry ∈ s.resources.resources.entries, entry.2.owner ≠ 0) :
    ∃ result s', Executes blake3 (revealing pc) s result s' ∧ succeeded result = true := by
  have hexit : s.resources.checkFrameExit 0 = .ok () := by
    unfold ResourceTracker.checkFrameExit
    rw [find?_eq_none.mpr fun entry hentry => by simpa using howner entry hentry]
  have hrun : runFor blake3 (revealing pc) 2 s.enter = some (.ok (), s) := by
    unfold runFor
    rw [step_revealing, hframes, length_nil, hexit]
    dsimp only
    unfold runFor
    rw [step_nil hframes]
  exact ⟨_, _, executes_iff.mpr ⟨2, _, _, hrun, rfl⟩, rfl⟩

/-- A run that comes to a revert does not return. -/
theorem runFor_revert {code : List Instruction} {rest : List CallFrame}
    (hframes : s.frames = frame :: rest) (hinstr : code[frame.pc]? = some (.new .revert)) (fuel : ℕ) :
    runFor blake3 code fuel s ≠ some (.ok (), s') := by
  cases fuel with
  | zero => simp [runFor]
  | succ fuel =>
    unfold runFor
    rcases hstep : step blake3 code s with ⟨more | e | _, s₁⟩
    · rw [step_some hframes hinstr] at hstep
      have hsucceeds := succeeds_self hstep
      simp [Instruction.new, executeInstruction, follow] at hsucceeds
    · simp
    · simp

theorem revealing_fails {pc : ℕ} (hpcs : s.frames.map CallFrame.pc = [pc + 1])
    (h : Executes blake3 (revealing pc) s result s') : succeeded result = false := by
  obtain ⟨fuel, o, s₁, hrun, hfinish⟩ := executes_iff.mp h
  have hfailed : o ≠ .ok () := by
    rintro rfl
    obtain ⟨frame, hframe, hpc⟩ := map_eq_singleton_iff.mp hpcs
    have hinstr := hpc ▸ revealing_succ pc
    cases fuel with
    | zero => cases hrun
    | succ fuel =>
      unfold runFor at hrun
      rw [step_revealing] at hrun
      cases hexit : s.resources.checkFrameExit s.frames.length with
      | ok u =>
        rw [hexit] at hrun
        exact runFor_revert hframe hinstr fuel hrun
      | error e =>
        rw [hexit] at hrun
        cases hrun
  rw [← Bool.not_eq_true, ← show (finish (o, s₁)).1 = result by rw [hfinish], succeeded_finish]
  exact hfailed

end Later

/-! ## Atomicity -/

section Atomic

variable (blake3 : Bytes → H256) (code : List Instruction) (s : Executor)

/-- **If an execution fails, nothing has happened**: the storage reads and the
logs are as before, the output reports no change and no log of the execution,
and later executions return what they would have returned without it, gas
apart. -/
def FailsAtomically : Prop :=
  ∀ result s', Executes blake3 code s result s' → succeeded result = false →
    (∀ key, s'.storage.load key = s.storage.load key) ∧ s'.logs = s.logs ∧
    (∀ output, result = .ok output →
      output.storageChanges = s.storage.getModified ∧ output.logs = s.logs) ∧
    ∀ later result', (∃ s'', Executes blake3 later s' result' s'') ↔
      ∃ s'', Executes blake3 later { s with gas := s'.gas } result' s''

variable {blake3 code s}

section Idle

variable (hframes : s.frames = [])
  (howner : ∀ entry ∈ s.resources.resources.entries, entry.2.owner ≠ 0)
include hframes howner

/-- After an execution of an idle executor that has failed, a later one fails
that would have succeeded without it. -/
theorem exists_revealing {s' : Executor} (h : Executes blake3 code s result s')
    (hfailed : succeeded result = false) :
    ∃ later, (∃ result₁ s₁, Executes blake3 later { s with gas := s'.gas } result₁ s₁ ∧
        succeeded result₁ = true) ∧
      ∀ result₂ s₂, Executes blake3 later s' result₂ s₂ → succeeded result₂ = false := by
  obtain ⟨fuel, o, s₁, hrun, hfinish⟩ := executes_iff.mp h
  have hone : s.enter.frames.length ≤ 1 := by
    show (CallFrame.new :: s.frames).length ≤ 1
    rw [hframes]
    rfl
  have hfails : o ≠ .ok () := by
    rw [ne_eq, ← succeeded_finish (s := s₁), hfinish, hfailed]
    nofun
  obtain ⟨pc, hpcs⟩ := runFor_failing hone hrun hfails
  have hleft : s'.frames.map CallFrame.pc = [pc + 1] := by
    rw [← show (finish (o, s₁)).2 = s' by rw [hfinish], frames_finish]
    exact hpcs
  exact ⟨revealing pc, revealing_succeeds pc hframes howner, fun _ _ => revealing_fails hleft⟩

/-- **No failing execution of an idle executor is atomic**, one without frames
and without resources of the first one: a later execution shows it. -/
theorem execute_atomic_iff_succeeds :
    (∀ result s', Executes blake3 code s result s' → succeeded result = false →
      ∃ later, (∃ result₁ s₁, Executes blake3 later { s with gas := s'.gas } result₁ s₁ ∧
          succeeded result₁ = true) ∧
        ∀ result₂ s₂, Executes blake3 later s' result₂ s₂ → succeeded result₂ = false) ∧
      (FailsAtomically blake3 code s ↔
        ∀ result s', Executes blake3 code s result s' → succeeded result = true) := by
  refine ⟨fun _ _ => exists_revealing hframes howner, fun hatomic result s' hexec => ?_,
    fun hall result s' hexec hfailed => ?_⟩
  · by_contra hfailed
    rw [Bool.not_eq_true] at hfailed
    obtain ⟨later, ⟨result₁, s₁, hwithout, hok⟩, hafter⟩ :=
      exists_revealing hframes howner hexec hfailed
    obtain ⟨-, -, -, hlater⟩ := hatomic result s' hexec hfailed
    obtain ⟨s₂, hwith⟩ := (hlater later result₁).mpr ⟨s₁, hwithout⟩
    rw [hafter result₁ s₂ hwith] at hok
    cases hok
  · rw [hall result s' hexec] at hfailed
    cases hfailed

end Idle

/-- An executor on which nothing has been executed. -/
def freshExecutor : Executor :=
  .new 100000 limit_fits
    { address := .zero
      caller := .zero
      value := .zero
      origin := .zero
      gasPrice := .one
      blockNumber := 1
      timestamp := 0
      coinbase := .zero
      difficulty := .zero
      gasLimit := 100000
      chainId := 9000
      isStatic := false }

/-- Stores 42 under the key 1, and goes on with an instruction. -/
def storing (last : Opcode) : List Instruction :=
  [⟨.push, some [1]⟩, ⟨.push, some [42]⟩, .new .sStore, .new last]

/-- A halt after a store is a failure. -/
theorem execute_not_atomic_of_halt :
    (∃ output s', Executes (fun _ => .zero) (storing .halt) freshExecutor (.ok output) s' ∧
      output.success = false) ∧
    ¬ FailsAtomically (fun _ => .zero) (storing .halt) freshExecutor := by
  refine ⟨⟨_, _, ⟨5, rfl⟩, rfl⟩, fun hatomic => ?_⟩
  have hall := (execute_atomic_iff_succeeds rfl fun _ h => absurd h not_mem_nil).2.mp hatomic
  exact nomatch hall (.ok _) _ ⟨5, rfl⟩

theorem execute_not_atomic_of_revert :
    (∃ output s', Executes (fun _ => .zero) (storing .revert) freshExecutor (.ok output) s' ∧
      output.success = false ∧ output.storageChanges = [(⟨.one⟩, ⟨.fromBeBytes [42]⟩)] ∧
      s'.storage.load ⟨.one⟩ = ⟨.fromBeBytes [42]⟩) ∧
    ¬ FailsAtomically (fun _ => .zero) (storing .revert) freshExecutor := by
  refine ⟨⟨_, _, ⟨5, rfl⟩, rfl, by decide +kernel, by decide +kernel⟩, fun hatomic => ?_⟩
  exact absurd ((hatomic (.ok _) _ ⟨5, rfl⟩ rfl).1 ⟨.one⟩) (by decide +kernel)

end Atomic

end Qfc.Qvm.Executor
