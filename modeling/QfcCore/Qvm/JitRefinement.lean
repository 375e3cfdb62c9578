import QfcCore.Qvm.Atomicity
import QfcCore.Qvm.JitInstructions

/-!
# Native code refines the interpreter, where it agrees with it

A run of the interpreter is followed by a run of the compiled function: whenever the
interpreter is at an instruction, the function is at the beginning of its block, and the
names that the generator had there hold the executor (`Tracks`). A round with which
native code agrees keeps this, since what the generator had in front of the target of a
jump are the same names as at the jump. When the interpreter returns, the function
returns the low word of the top of the stack.

The compiler keeps functions by their names. What it returns under a name is the code of
the first call that succeeded (`Cached`), which is the code that is passed in if all calls
with the name pass the same code.
-/

namespace Qfc.Qvm.Jit

open Ssa (Block Builder Terminator Config Gets)
open Function List Executor

/-- A run of a compiled function gets somewhere. -/
abbrev Runs (body : List (Block Inst)) : Config (BitVec 64) → Prop :=
  Gets Inst.eval taken body (.running ⟨0, 0, fun _ => 0⟩)

variable {total i : ℕ} {boundsCheck : Bool} {code : List Instruction} {body : List (Block Inst)}
  {g gEnd : CodeGenerator}

section Function

/-- The generator after so many instructions of a function. -/
abbrev stage (total : ℕ) (boundsCheck : Bool) (code : List Instruction) (i : ℕ) : CodeGenerator :=
  stageAt code.length code (start total code.length boundsCheck) i

/-- The generator in the block of an instruction of a function. -/
abbrev inBlock (total : ℕ) (boundsCheck : Bool) (code : List Instruction) (i : ℕ) : CodeGenerator :=
  entered i (stage total boundsCheck code i)

/-! ## Names -/

/-- The name of the value with a label. -/
def nameOf (total : ℕ) (boundsCheck : Bool) (code : List Instruction) (label : ℕ) : ℕ :=
  if label < total then label + 1
  else (stage total boundsCheck code (label - total + 1)).stack.headD 0

theorem virtual_entered : (entered i g).virtual = g.virtual := by
  unfold CodeGenerator.virtual
  rw [entered_stack, entered_locals]

variable (hfrom : generateFrom code.length 0 code (start total code.length boundsCheck)
    = (.ok (), gEnd))
include hfrom

/-- The names in front of an instruction are those of its virtual stack. -/
theorem virtual_stage (hi : i ≤ code.length) :
    ∃ v, virtualAt total code i = some v ∧
      (stage total boundsCheck code i).virtual = v.map (nameOf total boundsCheck code) := by
  induction i with
  | zero =>
    refine ⟨_, rfl, ?_⟩
    show Virtual.mk [] (range' 1 total) = ⟨[], _⟩
    refine congrArg _ ?_
    rw [range'_eq_map_range]
    refine map_congr_left fun j hj => ?_
    unfold nameOf
    rw [if_pos (mem_range.mp hj), Nat.add_comm]
  | succ i ih =>
    obtain ⟨v, hv, hvirtual⟩ := ih (Nat.le_of_succ_le hi)
    have hinstr : code[i]? = some code[i] := getElem?_eq_getElem hi
    have hafter := (generateInstruction_emitted (stageAt_succ hfrom hinstr)).2
    have hname : nameOf total boundsCheck code (total + i) =
        (stage total boundsCheck code (i + 1)).stack.headD 0 := by
      unfold nameOf
      rw [if_neg (by omega), Nat.add_sub_cancel_left]
    rw [virtual_entered, hvirtual, ← hname, Virtual.after_map] at hafter
    obtain ⟨v', hv', hmap⟩ := Option.map_eq_some_iff.mp hafter
    refine ⟨v', ?_, hmap.symm⟩
    show (do let v ← virtualAt total code i; let instr ← code[i]?; v.after (total + i) instr) = _
    rw [hv, hinstr]
    exact hv'

theorem virtual_join {j : ℕ} (hi : i ≤ code.length) (hj : j ≤ code.length)
    (hjoin : virtualAt total code i = virtualAt total code j) :
    (stage total boundsCheck code i).virtual = (stage total boundsCheck code j).virtual := by
  obtain ⟨v, hv, hvirtual⟩ := virtual_stage hfrom hi
  obtain ⟨v', hv', hvirtual'⟩ := virtual_stage hfrom hj
  rw [hvirtual, hvirtual', Option.some.inj (hv.symm.trans (hjoin.trans hv'))]

end Function

theorem Holds.of_virtual {g' : CodeGenerator} {env : ℕ → BitVec 64} {s : Executor}
    (h : Holds g env s) (hvirtual : g.virtual = g'.virtual) : Holds g' env s := by
  obtain ⟨hstack, hlocals⟩ := Virtual.mk.inj hvirtual
  exact ⟨hstack ▸ h.stack, hlocals ▸ h.locals⟩

/-! ## Rounds -/

/-- **The function tracks an executor**: it is at the block of the next instruction, or
has returned the top of the stack. -/
def Tracks (total : ℕ) (boundsCheck : Bool) (code : List Instruction) (body : List (Block Inst))
    (s : Executor) : Prop :=
  (∃ frame, s.frames = [frame] ∧ (frame.pc < code.length → ∃ env,
    Runs body (.running ⟨frame.pc, firstIndex total frame.pc, env⟩) ∧
      Holds (stage total boundsCheck code frame.pc) env s)) ∨
  s.frames = [] ∧ Runs body (.returned ((s.stack.values.head?.map Value.low).getD 0))

/-- **An instruction is about to be executed**: the program counter has moved on, and the
function is at the beginning of the block. -/
structure At (total : ℕ) (boundsCheck : Bool) (code : List Instruction) (body : List (Block Inst))
    (i : ℕ) (instr : Instruction) (env : ℕ → BitVec 64) (frame : CallFrame) (s : Executor) :
    Prop where
  instr : code[i]? = some instr
  frames : s.frames = [frame]
  pc : frame.pc = i + 1
  runs : Runs body (.running ⟨i, firstIndex total i, env⟩)
  holds : Holds (inBlock total boundsCheck code i) env s

variable {value : Value}

section Rounds

variable {blake3 : Bytes → H256} {s s' : Executor} {n : ℕ} {env : ℕ → BitVec 64}
  {instr : Instruction} {flow : ControlFlow} {frame : CallFrame} {target : ℕ} {truth : Bool} {cc : IntCC}

theorem At.lt (hat : At total boundsCheck code body i instr env frame s) : i < code.length :=
  (List.getElem?_eq_some_iff.mp hat.instr).1

theorem joins_iff : joins total code i instr = true ↔
    decodeU16 instr = Virtual.index instr ∧ 0 < decodeU16 instr ∧
      decodeU16 instr < code.length ∧
      virtualAt total code (i + 1) = virtualAt total code (decodeU16 instr) := by
  simp [joins, and_assoc]

theorem frame_of_exec (hframes : s.frames = [frame])
    (hexec : executeInstruction blake3 instr s = (.ok flow, s')) :
    ∃ frame', s'.frames = [frame'] ∧ frame'.pc = frame.pc := by
  have hpcs := (continues_executeInstruction blake3 instr s).pcs
  rw [hexec, hframes] at hpcs
  obtain ⟨frame', hframe', hpc⟩ := map_eq_singleton_iff.mp hpcs
  exact ⟨frame', hframe', hpc⟩

theorem holds_frames {frames : List CallFrame} (h : Holds g env s)
    (hlocals : currentLocals { s with frames := frames } = currentLocals s) :
    Holds g env { s with frames := frames } :=
  ⟨h.stack, hlocals ▸ h.locals⟩

/-- After a pop the names without the first one hold the rest. -/
theorem holds_tail {cond : ℕ} {rest : List ℕ} (h : Holds g env s)
    (hfresh : ∀ v ∈ g.stack ++ g.locals, v < g.builder.nextValue) (hstack : g.stack = cond :: rest)
    {env' : ℕ → BitVec 64} (henv : ∀ v < g.builder.nextValue, env' v = env v) {b : Builder Inst} :
    Holds { g with stack := rest, builder := b } env' { s with stack := s.stack.tail } := by
  refine ⟨?_, h.locals_of_lt hfresh henv rfl⟩
  show s.stack.values.tail.map _ = rest.map env'
  rw [map_tail, h.stack, hstack, map_cons, tail_cons]
  refine map_congr_left fun v hv => (henv v (hfresh v ?_)).symm
  simp [hstack, hv]

/-- Code of a conditional jump ends in the target or in the new block. -/
theorem gets_branch {cond : ℕ} {c : Bool} (hopen : g.builder.Open n)
    (hcond : cond < g.builder.nextValue)
    (hgrows : Ssa.Grows (branching g.builder cc cond target).blocks body)
    (hholds : cc.holds (env cond) 0 = c) :
    ∃ env', (∀ v < g.builder.nextValue, env' v = env v) ∧
      Gets Inst.eval taken body (.running ⟨g.builder.current, n, env⟩)
        (.running ⟨if c then target else g.builder.blocks.length, 0, env'⟩) := by
  obtain ⟨env', heval, htaken⟩ : ∃ env', Builder.evalFrom Inst.eval
      [.iconst 0, .icmp cc cond g.builder.nextValue] g.builder.nextValue env = some env' ∧
      taken (env' (g.builder.nextValue + 1)) = c := by
    refine ⟨_, rfl, ?_⟩
    rw [update_self, update_of_ne hcond.ne, update_self, hholds]
    cases c <;> rfl
  have hemit := hopen.emit (l := [.iconst 0, .icmp cc cond g.builder.nextValue])
  have hgets : Gets Inst.eval taken body _ _ := Builder.gets_emit hopen
    (((Builder.grows_createBlock _).trans (Builder.grows_terminate hemit.createBlock)).trans hgrows)
    heval
  have hbrif : next body (.running ⟨_, _, env'⟩) = _ := Builder.next_brif hemit.createBlock hgrows
  rw [htaken] at hbrif
  exact ⟨env', fun v hv => Builder.evalFrom_of_lt heval hv, hgets.trans (.step hbrif)⟩

theorem jumpIf_inv (h : executeJumpIf truth target s = (.ok flow, s')) :
    ∃ value, s.stack.values.head? = some value ∧
      flow = (if value.isTruthy = truth then .jump target else .next) ∧
      s' = { s with stack := s.stack.tail } := by
  have h := Act.succeeds_self h
  simp only [Executor.executeJumpIf, Act.succeeds_bind, Executor.succeeds_pop,
    Act.succeeds_pure] at h
  obtain ⟨value, hvalue, rfl, rfl⟩ := h
  exact ⟨value, hvalue, rfl, rfl⟩

theorem follow_jump (hframes : s.frames = [frame]) (h : follow (.jump target) s = (.ok (), s')) :
    s' = { s with frames := [{ frame with pc := target }] } := by
  rw [Executor.follow_jump, hframes] at h
  exact (Prod.mk.inj h).2.symm

variable (hfrom : generateFrom code.length 0 code (start total code.length boundsCheck)
    = (.ok (), gEnd)) (hbody : Ssa.Grows gEnd.builder.blocks body)
include hfrom hbody

/-- What is emitted for an instruction is in the function. -/
theorem stage_grows_body (hi : i < code.length) :
    Ssa.Grows (stage total boundsCheck code (i + 1)).builder.blocks body :=
  (stage_grows le_rfl hfrom hi).trans hbody

/-- A round after which the next instruction follows: the end of its code leads to the
next block. -/
theorem tracks_next (hframes : s.frames = [frame]) (hpc : frame.pc = i + 1)
    (hterm : (stage total boundsCheck code (i + 1)).blockTerminated = false)
    (hopen : (stage total boundsCheck code (i + 1)).builder.Open n) (hruns : Runs body (.running
      ⟨(stage total boundsCheck code (i + 1)).builder.current, n, env⟩))
    (hholds : Holds (stage total boundsCheck code (i + 1)) env s) :
    Tracks total boundsCheck code body s := by
  refine .inl ⟨frame, hframes, fun hlt => ⟨env, ?_, ?_⟩⟩
  · rw [hpc] at hlt ⊢
    have hgrows : Ssa.Grows (inBlock total boundsCheck code (i + 1)).builder.blocks body :=
      (stages le_rfl hfrom hlt).2.2.trans (stage_grows_body hfrom hbody hlt)
    rw [entered_builder (Nat.succ_pos i), hterm] at hgrows
    exact hruns.trans (.step (Builder.next_jump hopen hgrows))
  · rw [hpc]
    exact hholds

omit hbody in
theorem tracks_jump (hi : i < code.length) (hframes : s.frames = [frame])
    (hpc : frame.pc = decodeU16 instr) (hjoins : joins total code i instr = true)
    (hruns : Runs body (.running ⟨decodeU16 instr, 0, env⟩))
    (hholds : Holds (stage total boundsCheck code (i + 1)) env s) :
    Tracks total boundsCheck code body s := by
  obtain ⟨-, hpos, hlt, hjoin⟩ := joins_iff.mp hjoins
  refine .inl ⟨frame, hframes, fun _ => ⟨env, ?_, ?_⟩⟩
  · rw [hpc]
    unfold firstIndex
    rw [if_neg (by omega)]
    exact hruns
  · rw [hpc]
    exact hholds.of_virtual (virtual_join hfrom hi hlt.le hjoin)

/-- An instruction that goes on to the next one. -/
theorem tracks_continue (hat : At total boundsCheck code body i instr env frame s)
    (hcontinues : continues instr.opcode = true)
    (hagrees : instructionAgrees total code i instr s = true)
    (hexec : executeInstruction blake3 instr s = (.ok flow, s')) :
    flow = .next ∧ Tracks total boundsCheck code body s' := by
  obtain ⟨hentered, hstage, -⟩ := stages le_rfl hfrom hat.lt
  obtain ⟨hflow, insts, hbuilder, hterm, hsim⟩ := simulates_instruction hcontinues hentered.fresh
    hagrees hexec (stageAt_succ hfrom hat.instr)
  obtain ⟨env', heval, hholds'⟩ := hsim env hat.holds
  obtain ⟨frame', hframes', hpc'⟩ := frame_of_exec hat.frames hexec
  have hgrows := stage_grows_body hfrom hbody hat.lt
  have hopen := hentered.isOpen.emit (l := insts)
  rw [← hbuilder] at hopen
  rw [hbuilder] at hgrows
  refine ⟨hflow, tracks_next hfrom hbody hframes' (hpc'.trans hat.pc)
    (hterm.trans hentered.terminated) hopen ?_ hholds'⟩
  have hgets : Gets Inst.eval taken body _ _ := Builder.gets_emit hentered.isOpen hgrows heval
  rw [hentered.current] at hgets
  rw [hbuilder, Builder.emit_current, hentered.current]
  exact hat.runs.trans hgets

theorem tracks_jump_instruction (hat : At total boundsCheck code body i instr env frame s)
    (hop : instr.opcode = .jump) (hagrees : instructionAgrees total code i instr s = true) :
    Tracks total boundsCheck code body
      { s with frames := [{ frame with pc := decodeU16 instr }] } := by
  have hjoins : joins total code i instr = true := by simpa [instructionAgrees, hop] using hagrees
  obtain ⟨hindex, -, hlt, -⟩ := joins_iff.mp hjoins
  obtain ⟨hentered, -, -⟩ := stages le_rfl hfrom hat.lt
  have hemitted := emitted_jump (stageAt_succ hfrom hat.instr) hop
  rw [if_pos (hindex ▸ hlt)] at hemitted
  have hgrows := stage_grows_body hfrom hbody hat.lt
  unfold stage at hgrows
  rw [hemitted] at hgrows
  have hstep : next body (.running ⟨_, _, env⟩) = _ := Builder.next_jump hentered.isOpen hgrows
  rw [hentered.current, ← hindex] at hstep
  refine tracks_jump hfrom hat.lt rfl rfl hjoins (hat.runs.trans (.step hstep)) ?_
  refine Holds.of_virtual (holds_frames hat.holds (by simp [currentLocals, hat.frames])) ?_
  unfold stage
  rw [hemitted]
  rfl

section

variable (hat : At total boundsCheck code body i instr env frame s)
include hat

section

variable
  (hgen : generateJumpIf code.length cc (Virtual.index instr) (inBlock total boundsCheck code i) =
    (.ok (), stage total boundsCheck code (i + 1)))
  (hcc : ∀ w, cc.holds w 0 = (decide (w ≠ 0) == truth))
  (hagrees : branchAgrees s.stack.values truth (joins total code i instr) = true)
include hgen hcc hagrees

theorem tracks_branch (hvalue : s.stack.values.head? = some value) :
    if value.isTruthy = truth then
      Tracks total boundsCheck code body
        { s with
          stack := s.stack.tail
          frames := [{ frame with pc := decodeU16 instr }] }
    else Tracks total boundsCheck code body { s with stack := s.stack.tail } := by
  obtain ⟨values, hvalues⟩ := head?_eq_some_iff.mp hvalue
  obtain ⟨hsmall, hjoin⟩ : value.small = true ∧
      (value.isTruthy ≠ truth ∨ joins total code i instr = true) := by
    simpa [branchAgrees, hvalues] using hagrees
  obtain ⟨hentered, hstage, -⟩ := stages le_rfl hfrom hat.lt
  have hgrows := stage_grows_body hfrom hbody hat.lt
  obtain ⟨cond, rest, hstack, hemitted⟩ := emitted_jumpIf hgen
  -- the condition as native code sees it
  have hcond : env cond = value.low := by
    have hmap := hat.holds.stack
    rw [hvalues, hstack] at hmap
    exact (cons.inj hmap).1.symm
  have hholdsCond : cc.holds (env cond) 0 = decide (value.isTruthy = truth) := by
    rw [hcc, hcond, Value.decide_low_ne_zero hsmall]
    rfl
  split at hemitted
  next hlt =>
    have hterm : (stage total boundsCheck code (i + 1)).blockTerminated = false := by
      rw [hemitted]
      exact hentered.terminated
    have hfresh : cond < (inBlock total boundsCheck code i).builder.nextValue :=
      hentered.fresh cond (mem_append_left _ (hstack ▸ mem_cons_self))
    rw [hemitted] at hgrows
    obtain ⟨env', henv, hgets⟩ := gets_branch hentered.isOpen hfresh hgrows hholdsCond
    rw [hentered.current] at hgets
    have hholds' : Holds (stage total boundsCheck code (i + 1)) env'
        { s with stack := s.stack.tail } := by
      rw [hemitted]
      exact holds_tail hat.holds hentered.fresh hstack henv
    split
    next htruth =>
      have hjoins := hjoin.resolve_left (not_not.mpr htruth)
      rw [decide_eq_true htruth, if_pos rfl, ← (joins_iff.mp hjoins).1] at hgets
      refine tracks_jump hfrom hat.lt rfl rfl hjoins (hat.runs.trans hgets) ?_
      exact holds_frames hholds' (by simp [currentLocals, hat.frames])
    next htruth =>
      rw [decide_eq_false htruth, if_neg Bool.false_ne_true] at hgets
      refine tracks_next (n := 0) hfrom hbody hat.frames hat.pc hterm ?_ ?_ hholds'
      · rw [hemitted]
        simpa [branching] using (hentered.isOpen.emit (l := [.iconst 0, .icmp cc cond _])).branch
      · rw [hemitted]
        exact hat.runs.trans hgets
  next hlt =>
    have hnot : value.isTruthy ≠ truth := by
      refine hjoin.resolve_right fun hjoins => hlt ?_
      obtain ⟨hindex, -, hlt, -⟩ := joins_iff.mp hjoins
      exact hindex ▸ hlt
    rw [if_neg hnot]
    have hholds' : Holds (stage total boundsCheck code (i + 1)) env
        { s with stack := s.stack.tail } := by
      rw [hemitted]
      exact holds_tail hat.holds hentered.fresh hstack fun _ _ => rfl
    refine tracks_next (n := firstIndex total i) hfrom hbody hat.frames hat.pc ?_ ?_ ?_ hholds'
    · rw [hemitted]
      exact hentered.terminated
    · rw [hemitted]
      exact hentered.isOpen
    · rw [hemitted]
      show Runs body (.running ⟨(inBlock total boundsCheck code i).builder.current, _, _⟩)
      rw [hentered.current]
      exact hat.runs

/-- A conditional jump is executed and followed. -/
theorem tracks_jumpIf {s₁ : Executor}
    (hexec : executeJumpIf truth (decodeU16 instr) s = (.ok flow, s₁))
    (hfollow : follow flow s₁ = (.ok (), s')) : Tracks total boundsCheck code body s' := by
  obtain ⟨value, hvalue, rfl, rfl⟩ := jumpIf_inv hexec
  have htracks := tracks_branch hfrom hbody hat hgen hcc hagrees hvalue
  split at hfollow
  next htruth =>
    rw [if_pos htruth] at htracks
    rw [follow_jump (s := { s with stack := s.stack.tail }) hat.frames hfollow]
    exact htracks
  next htruth =>
    rw [if_neg htruth] at htracks
    cases hfollow
    exact htracks

end

theorem tracks_return (hop : instr.opcode = .ret) :
    Tracks total boundsCheck code body { s with frames := [] } := by
  obtain ⟨hentered, -, -⟩ := stages le_rfl hfrom hat.lt
  have hgrows := stage_grows_body hfrom hbody hat.lt
  unfold stage at hgrows
  refine .inr ⟨rfl, hat.runs.trans ?_⟩
  have hmap := hat.holds.stack
  obtain ⟨hstack, hemitted⟩ | ⟨a, rest, hstack, hemitted⟩ := emitted_ret
    (stageAt_succ hfrom hat.instr) hop
  · rw [hstack, map_nil, map_eq_nil_iff] at hmap
    rw [hemitted] at hgrows
    have hopen := hentered.isOpen.emit (l := [.iconst 0])
    have hgets : Gets Inst.eval taken body (.running ⟨_, _, env⟩) _ := Builder.gets_emit
      hentered.isOpen ((Builder.grows_terminate hopen).trans hgrows) rfl
    have hret : ∀ env', next body (.running ⟨_, _, env'⟩) = .returned (env' _) :=
      fun _ => Builder.next_ret hopen hgrows
    rw [hentered.current] at hgets
    rw [Builder.emit_current, hentered.current] at hret
    rw [hmap]
    refine hgets.trans (.step ((hret _).trans ?_))
    rw [update_self]
    rfl
  · rw [hemitted] at hgrows
    have hret : next body (.running ⟨_, _, env⟩) = .returned _ :=
      Builder.next_ret hentered.isOpen hgrows
    rw [hentered.current] at hret
    refine .step (hret.trans ?_)
    rw [hstack] at hmap
    obtain ⟨value, values, hvalues, hvalue, -⟩ := map_eq_cons_iff.mp hmap
    rw [hvalues, ← hvalue]
    rfl

end

/-- A round with which native code agrees is followed. -/
theorem tracks_step (h : Tracks total boundsCheck code body s)
    (hagrees : agrees total code s = true) (hstep : GoesOn blake3 code s s') :
    Tracks total boundsCheck code body s' := by
  obtain ⟨frame, hframes, hat⟩ | ⟨hframes, -⟩ := h
  swap
  · cases (step_nil hframes).symm.trans hstep
  obtain ⟨frame', rest, hframes', hnone, rfl⟩ |
    ⟨frame', rest, instr, gas, flow, s₁, hframes', hinstr, hgas, hexec, hfollow⟩ :=
    step_cases hstep
  · rw [hframes] at hframes'
    cases hframes'
    unfold agrees at hagrees
    rw [hframes] at hagrees
    dsimp only at hagrees
    rw [hnone] at hagrees
    cases hagrees
  rw [hframes] at hframes'
  cases hframes'
  obtain ⟨env, hruns, hholds⟩ := hat (List.getElem?_eq_some_iff.mp hinstr).1
  -- the executor when the instruction is executed
  obtain ⟨t, ht⟩ : ∃ t : Executor, t = { s with
    gas := gas, frames := [{ frame with pc := frame.pc + 1 }] } := ⟨_, rfl⟩
  have hholds : Holds (inBlock total boundsCheck code frame.pc) env t := by
    refine Holds.of_virtual ?_ virtual_entered.symm
    rw [ht]
    exact ⟨hholds.stack, by simpa [currentLocals, hframes] using hholds.locals⟩
  have hagrees : instructionAgrees total code frame.pc instr t = true := by
    unfold agrees at hagrees
    rw [hframes] at hagrees
    dsimp only at hagrees
    rw [hinstr] at hagrees
    dsimp only at hagrees
    rw [hgas] at hagrees
    rw [ht]
    exact hagrees
  have hframes : t.frames = [{ frame with pc := frame.pc + 1 }] := by rw [ht]
  have hat : At total boundsCheck code body frame.pc instr env _ t :=
    ⟨hinstr, hframes, rfl, hruns, hholds⟩
  rw [← ht] at hexec
  cases hcontinues : continues instr.opcode with
  | true =>
    obtain ⟨rfl, htracks⟩ := tracks_continue hfrom hbody hat hcontinues hagrees hexec
    cases hfollow
    exact htracks
  | false =>
    have hgen := stageAt_succ hfrom hinstr
    obtain ⟨opcode, operand⟩ := instr
    cases opcode with
    | jump =>
      cases hexec
      rw [follow_jump hframes hfollow]
      exact tracks_jump_instruction hfrom hbody hat rfl hagrees
    | jumpIf =>
      refine tracks_jumpIf hfrom hbody hat (jumpIf_eq hgen rfl) (fun w => ?_) hagrees hexec hfollow
      simp [IntCC.holds]
    | jumpIfNot =>
      refine tracks_jumpIf hfrom hbody hat (jumpIfNot_eq hgen rfl) (fun w => ?_) hagrees hexec
        hfollow
      simp [IntCC.holds]
    | ret =>
      have hexec : executeReturn.Succeeds t
          (fun flow' t' => flow' = flow ∧ t' = s₁) := ⟨flow, s₁, hexec, rfl, rfl⟩
      simp only [executeReturn, Act.succeeds_bind, Executor.succeeds_lastIndex, Act.succeeds_get,
        Executor.succeeds_ofResult, Act.succeeds_pure] at hexec
      obtain ⟨-, -, -, rfl, rfl⟩ := hexec
      have hs' : s' = { t with frames := [] } := by
        rw [← (Prod.mk.inj hfollow).2]
        show { t with frames := t.frames.tail } = _
        rw [hframes]
        rfl
      rw [hs']
      exact tracks_return hfrom hbody hat rfl
    | halt =>
      cases hexec
      cases hfollow
    | _ => cases hcontinues

theorem tracks_enter (hstack : s.stack.values = []) (hframes : s.frames = []) :
    Tracks total boundsCheck code body s.enter := by
  refine .inl ⟨.new, by simp [enter, hframes], fun hi => ⟨fun _ => 0, ?_, ?_, ?_⟩⟩
  · have hi : 0 < code.length := hi
    have hopen : (Builder.mk [.empty] 0 1 : Builder Inst).Open 0 := .of_empty rfl
    have hgrows : Ssa.Grows (allocated total).blocks body :=
      ((entry_grows total code.length).trans (stages le_rfl hfrom hi).2.2).trans
        (stage_grows_body hfrom hbody hi)
    have hzero : ∀ k v, Builder.evalFrom Inst.eval (replicate k (.iconst 0)) v (fun _ => 0) =
        some (fun _ => 0) := by
      intro k
      induction k with
      | zero => exact fun _ => rfl
      | succ k ih =>
        intro v
        refine Eq.trans ?_ (ih (v + 1))
        exact congrArg (Builder.evalFrom Inst.eval _ (v + 1)) (update_eq_self v fun _ => 0)
    have hgets : Gets Inst.eval taken body _ _ := Builder.gets_emit hopen hgrows (hzero total 1)
    rw [Nat.zero_add, length_replicate] at hgets
    exact hgets
  · simp [enter, hstack]
    rfl
  · intro j v _
    simp [currentLocals, enter, CallFrame.new]
    rfl

theorem tracks_reaches (hs : Tracks total boundsCheck code body s)
    (hreach : Reaches blake3 code s s')
    (hagrees : ∀ t, Reaches blake3 code s t → agrees total code t = true) :
    Tracks total boundsCheck code body s' := by
  induction hreach with
  | refl => exact hs
  | tail hreach hgoes ih => exact tracks_step hfrom hbody ih (hagrees _ hreach) hgoes

end Rounds

/-- A function returns the low word of the result, if native code agrees with every
round. -/
theorem returns_of_agrees {paramCount localCount : ℕ} {blake3 : Bytes → H256} {s s' : Executor}
    {output : ExecutionOutput}
    (hgen : generate paramCount localCount boundsCheck code = .ok body)
    (hstack : s.stack.values = []) (hframes : s.frames = [])
    (hexec : Executes blake3 code s (.ok output) s') (hsuccess : output.success = true)
    (hvalue : output.value = some value)
    (hagrees : ∀ t, Reaches blake3 code s.enter t → agrees (paramCount + localCount) code t = true) :
    Runs body (.returned value.low) := by
  obtain ⟨fuel, o, t, hrun, hfinish⟩ := executes_iff.mp hexec
  obtain rfl : o = .ok () := by
    rw [← succeeded_finish (s := t), hfinish]
    exact hsuccess
  obtain ⟨rfl, -⟩ : (t.collect true).1 = output ∧ _ := by simpa [Executor.finish] using hfinish
  obtain ⟨hreach, hempty⟩ := reaches_of_runFor hrun
  -- native code does not run off the end, so there is an instruction
  have hlength : 0 < code.length := by
    have hfirst := hagrees _ .refl
    unfold agrees at hfirst
    rw [show s.enter.frames = [.new] by simp [enter, hframes]] at hfirst
    by_contra hnil
    simp [eq_nil_of_length_eq_zero (Nat.eq_zero_of_not_pos hnil)] at hfirst
  obtain ⟨gEnd, hfrom, hbody⟩ := generate_grows hgen hlength
  obtain ⟨frame, hframe, -⟩ | ⟨-, hruns⟩ := tracks_reaches hfrom hbody
    (tracks_enter hfrom hbody hstack hframes) hreach hagrees
  · rw [hempty] at hframe
    cases hframe
  · rw [show t.stack.values.head? = some value from hvalue] at hruns
    exact hruns

/-! ## The compiler -/

/-- A call of the compiler. -/
inductive Call
  | compile (name : String) (instructions : List Instruction) (paramCount localCount : ℕ)
  | clearCache

/-- The compiler after a call. -/
def JitCompiler.after (C : Cranelift) (c : JitCompiler) : Call → JitCompiler
  | .compile name instructions paramCount localCount =>
    (c.compile C name instructions paramCount localCount).2
  | .clearCache => c.clearCache

/-- **What the cache holds** was compiled under its name in some call. -/
structure Cached (boundsCheck : Bool) (calls : List Call) (c : JitCompiler) : Prop where
  config : c.config.boundsCheck = boundsCheck
  generated : ∀ name f, c.cache.lookup name = some f → ∃ instructions paramCount localCount,
    Call.compile name instructions paramCount localCount ∈ calls ∧
      generate paramCount localCount boundsCheck instructions = .ok f.body

section Compiler

variable {C : Cranelift} {calls : List Call} {c : JitCompiler}

section

variable (h : Cached boundsCheck calls c)
include h

theorem Cached.evictOne : Cached boundsCheck calls (c.evictOne C) := by
  unfold JitCompiler.evictOne
  split
  next key _ =>
    split
    · refine ⟨h.config, fun name f hlookup => h.generated name f ?_⟩
      by_cases hname : name = key
      · subst hname
        have hlookup : (c.cache.erase name).lookup name = some f := hlookup
        rw [AList.lookup_erase] at hlookup
        cases hlookup
      · exact (AList.lookup_erase_ne hname).symm.trans hlookup
    · exact h
  · exact h

theorem Cached.evict {codeSize rounds : ℕ} :
    Cached boundsCheck calls (c.evict C codeSize rounds) := by
  induction rounds generalizing c with
  | zero => exact h
  | succ rounds ih =>
    unfold JitCompiler.evict
    split
    · exact ih h.evictOne
    · exact h

theorem Cached.mono {calls' : List Call} (hsub : ∀ call ∈ calls, call ∈ calls') :
    Cached boundsCheck calls' c := by
  refine ⟨h.config, fun name f hlookup => ?_⟩
  obtain ⟨instructions, p, l, hmem, hgen⟩ := h.generated name f hlookup
  exact ⟨instructions, p, l, hsub _ hmem, hgen⟩

/-- A compiled function is cached or new, and stays cached under its name. -/
theorem compile_cached {name : String} {instructions : List Instruction} {p l : ℕ} :
    Cached boundsCheck (.compile name instructions p l :: calls) (c.compile C name instructions p l).2 ∧
      ∀ f, (c.compile C name instructions p l).1 = .ok f → ∃ instructions' p' l',
        Call.compile name instructions' p' l' ∈ Call.compile name instructions p l :: calls ∧
          generate p' l' boundsCheck instructions' = .ok f.body := by
  have hmono := h.mono fun call => mem_cons_of_mem (Call.compile name instructions p l)
  unfold JitCompiler.compile
  split
  next cached hcached =>
    refine ⟨hmono, fun f hf => ?_⟩
    cases hf
    exact hmono.generated name cached hcached
  next =>
    split
    · exact ⟨hmono, nofun⟩
    next body hbody =>
      rw [h.config] at hbody
      split
      · exact ⟨hmono, nofun⟩
      · split
        · refine ⟨⟨hmono.evict.config, fun name' f hlookup => ?_⟩, fun f hf => ?_⟩
          · by_cases hname : name' = name
            · subst hname
              cases (AList.lookup_insert _).symm.trans hlookup
              exact ⟨instructions, p, l, mem_cons_self, hbody⟩
            · exact hmono.evict.generated name' f
                ((AList.lookup_insert_ne hname).symm.trans hlookup)
          · cases hf
            exact ⟨instructions, p, l, mem_cons_self, hbody⟩
        · exact ⟨hmono, nofun⟩

theorem cached_after {call : Call} : Cached boundsCheck (call :: calls) (c.after C call) := by
  cases call with
  | compile name instructions p l => exact (compile_cached h).1
  | clearCache => exact ⟨h.config, fun _ _ hlookup => nomatch hlookup⟩

end

theorem cached_run {config : JitConfig} (calls : List Call) :
    Cached config.boundsCheck calls.reverse (calls.foldl (JitCompiler.after C) (.new config)) := by
  induction calls using reverseRecOn with
  | nil => exact ⟨rfl, fun _ _ hlookup => nomatch hlookup⟩
  | append_singleton calls call ih =>
    rw [foldl_concat, reverse_append]
    exact cached_after ih

end Compiler

/-- **Native code refines the interpreter where it agrees with it.** If all calls of the
compiler with a name pass the same code, and native code agrees with every round of a
successful execution on an empty stack, then what is compiled under the name returns the
result, if that fits in a word. -/
theorem compiled_refines (C : Cranelift) (config : JitConfig) (calls : List Call) (name : String)
    (code : List Instruction) (paramCount localCount : ℕ) (f : CompiledFunction)
    (blake3 : Bytes → H256) (s s' : Executor) (output : ExecutionOutput) (value : Value) (v : U256)
    (hsame : ∀ instructions p l, Call.compile name instructions p l ∈ calls →
      instructions = code ∧ p = paramCount ∧ l = localCount)
    (hcompile : ((calls.foldl (JitCompiler.after C) (.new config)).compile C name code paramCount
      localCount).1 = .ok f) (hstack : s.stack.values = []) (hframes : s.frames = [])
    (hexec : Executes blake3 code s (.ok output) s') (hsuccess : output.success = true)
    (hvalue : output.value = some value) (hnumber : value.asU256 = some v) (hword : v.val < 2 ^ 64)
    (hagrees : ∀ t, Reaches blake3 code s.enter t →
      agrees (paramCount + localCount) code t = true) :
    ∃ steps w, f.execute steps = .returned w ∧ w.toNat = v.val := by
  obtain ⟨code', p, l, hmem, hgen⟩ := (compile_cached (cached_run calls)).2 f hcompile
  obtain ⟨rfl, rfl, rfl⟩ : code' = code ∧ p = paramCount ∧ l = localCount := by
    obtain hcall | hcall := mem_cons.mp hmem
    · cases hcall
      exact ⟨rfl, rfl, rfl⟩
    · exact hsame code' p l (mem_reverse.mp hcall)
  obtain ⟨steps, hsteps⟩ := returns_of_agrees hgen hstack hframes hexec hsuccess hvalue hagrees
  refine ⟨steps, value.low, hsteps, ?_⟩
  rw [Value.low_of_asU256 hnumber, word_toNat hword]

/-! ## Runs on fixed code -/

/-- What an execution results in, if it is a success within so many rounds. -/
def interpreted (code : List Instruction) (fuel : ℕ) (s : Executor) : Option ℕ :=
  match executeFor (fun _ => .zero) code fuel s with
  | some (.ok output, _) =>
    if output.success then (output.value.bind Value.asU256).map U256.val else none
  | _ => none

theorem interpreted_eq_some {fuel n : ℕ} {s : Executor} (h : interpreted code fuel s = some n) :
    ∃ output t value v, Executes (fun _ => .zero) code s (.ok output) t ∧
      output.success = true ∧ output.value = some value ∧ value.asU256 = some v ∧ v.val = n := by
  unfold interpreted at h
  split at h
  next output t hexec =>
    split at h
    next hsuccess =>
      obtain ⟨v, hv, hn⟩ := Option.map_eq_some_iff.mp h
      obtain ⟨value, hvalue, hv⟩ := Option.bind_eq_some_iff.mp hv
      exact ⟨output, t, value, v, ⟨fuel, hexec⟩, hsuccess, hvalue, hv, hn⟩
    next => cases h
  next => cases h

/-- What a compiled function returns within so many steps. -/
def called (r : Except JitError CompiledFunction) (steps : ℕ) : Option ℕ :=
  match r with
  | .ok f =>
    match f.execute steps with
    | .returned w => some w.toNat
    | _ => none
  | .error _ => none

theorem called_eq_some {r : Except JitError CompiledFunction} {steps n : ℕ}
    (h : called r steps = some n) :
    ∃ f w, r = .ok f ∧ f.execute steps = .returned w ∧ w.toNat = n := by
  unfold called at h
  split at h
  next f =>
    split at h
    next w hw => exact ⟨f, w, rfl, hw, Option.some.inj h⟩
    next => cases h
  next => cases h

/-- Whether a compiled function traps within so many steps. -/
def traps (r : Except JitError CompiledFunction) (steps : ℕ) : Bool :=
  match r with
  | .ok f =>
    match f.execute steps with
    | .trapped => true
    | _ => false
  | .error _ => false

/-- A compiler whose functions are all accepted. -/
def accepting : Cranelift := ⟨fun _ => true, fun _ => 64, fun _ => 0⟩

/-- A new compiler. -/
def newCompiler : JitCompiler := .new ⟨true, 1000⟩

/-- Returns twice a constant, by way of a local variable. -/
def doubling (operand : Bytes) : List Instruction :=
  [⟨.push, some operand⟩, ⟨.storeLocal, some [0, 0]⟩, ⟨.loadLocal, some [0, 0]⟩, ⟨.dup, none⟩,
    ⟨.add, none⟩, ⟨.ret, none⟩]

/-- Divides a number by zero. -/
def dividing : List Instruction :=
  [⟨.push, some [1, 0, 0, 0, 0, 0, 0, 1]⟩, ⟨.push, some [0, 0, 0, 0, 0, 0, 0, 0]⟩, ⟨.div, none⟩,
    ⟨.ret, none⟩]

/-- A constant that reads the same in both byte orders is doubled. -/
theorem doubling_refines :
    ∃ f, (newCompiler.compile accepting "f" (doubling [0, 0, 0, 5, 5, 0, 0, 0]) 0 1).1 = .ok f ∧
      ∃ steps w, f.execute steps = .returned w ∧ w.toNat = 10 * 2 ^ 32 + 10 * 2 ^ 24 := by
  obtain ⟨f, -, hf, -, -⟩ := called_eq_some (show called (newCompiler.compile accepting "f"
    (doubling [0, 0, 0, 5, 5, 0, 0, 0]) 0 1).1 50 = some (10 * 2 ^ 32 + 10 * 2 ^ 24) by
      decide +kernel)
  obtain ⟨output, t, value, v, hexec, hsuccess, hvalue, hnumber, hv⟩ := interpreted_eq_some
    (show interpreted (doubling [0, 0, 0, 5, 5, 0, 0, 0]) 8 freshExecutor =
      some (10 * 2 ^ 32 + 10 * 2 ^ 24) by decide +kernel)
  refine ⟨f, hf, hv ▸ compiled_refines accepting ⟨true, 1000⟩ [] "f" _ 0 1 f _ _ t output value v
    nofun hf rfl rfl hexec hsuccess hvalue hnumber (hv ▸ by decide) fun s hreach =>
      of_allRounds (P := agrees 1 _) (n := 8) ?_ hreach⟩
  decide +kernel

/-- **The number 1 is doubled to `2 ^ 57`**: the interpreter reads its bytes in big endian,
native code reads them in little endian. A division by zero is zero for the interpreter, and
traps in native code. Under a name that is known, other code is ignored. -/
theorem doubling_not_refined :
    (interpreted (doubling [0, 0, 0, 0, 0, 0, 0, 1]) 8 freshExecutor = some 2 ∧
      called (newCompiler.compile accepting "f" (doubling [0, 0, 0, 0, 0, 0, 0, 1]) 0 1).1 50 =
        some (2 ^ 57)) ∧
    (interpreted dividing 8 freshExecutor = some 0 ∧
      traps (newCompiler.compile accepting "g" dividing 0 0).1 50 = true) ∧
    interpreted (doubling [1, 0, 0, 0, 0, 0, 0, 1]) 8 freshExecutor = some (2 ^ 57 + 2) ∧
      called ((newCompiler.compile accepting "f" (doubling [0, 0, 0, 5, 5, 0, 0, 0]) 0 1).2.compile
        accepting "f" (doubling [1, 0, 0, 0, 0, 0, 0, 1]) 0 1).1 50 =
          some (10 * 2 ^ 32 + 10 * 2 ^ 24) := by
  decide +kernel

end Qfc.Qvm.Jit
