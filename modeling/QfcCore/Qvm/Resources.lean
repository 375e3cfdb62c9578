import QfcCore.Qvm.Atomicity
import QfcCore.Qvm.Borrows

/-!
# Linear resources

A resource is created once, and has to be destroyed once. The tracker knows the
resources that exist and who owns them; the values that name them are on the
stack and in local variables. The discipline is that no two of these values name
the same resource, and all of them name one that exists (`Linear`).

Most instructions only lose values. `Dup` and `LoadLocal` copy them, also if they
are resources, and a frame that comes to the end of the code returns without the
check that `Return` makes. A run that copies no resource and leaves none behind
in this way (`careful`) keeps the discipline (`resources_linear`).
-/

namespace Qfc.Qvm

open Multiset ResourceTracker Act List AList

/-! ## The resources in a value -/

variable {value : Value}

namespace Value

mutual

/-- The ids of the resources in a value. -/
def ids : Value → Multiset ℕ
  | .tuple values | .array values => idsOf values
  | .struct _ fields => idsOfFields fields
  | .resource _ fields id => id ::ₘ idsOfFields fields
  | _ => 0

/-- The ids in several values. -/
def idsOf : List Value → Multiset ℕ
  | [] => 0
  | value :: values => ids value + idsOf values

/-- The ids in the fields of a value. -/
def idsOfFields : List (String × Value) → Multiset ℕ
  | [] => 0
  | (_, value) :: fields => ids value + idsOfFields fields

end

theorem ids_of_plain (h : value.plain = true) : value.ids = 0 := by
  cases value <;> first | rfl | cases h

@[simp] theorem idsOf_cons (value : Value) (values : List Value) :
    idsOf (value :: values) = value.ids + idsOf values := rfl

theorem idsOf_eq (values : List Value) : idsOf values = (values.map ids).sum := by
  induction values with
  | nil => rfl
  | cons value values ih => rw [idsOf_cons, ih, List.map_cons, List.sum_cons]

@[simp] theorem idsOf_append (values values' : List Value) :
    idsOf (values ++ values') = idsOf values + idsOf values' := by
  simp [idsOf_eq]

@[simp] theorem idsOf_replicate_unit (n : ℕ) : idsOf (List.replicate n .unit) = 0 := by
  rw [idsOf_eq, List.map_replicate, show ids .unit = 0 from rfl, List.sum_replicate, smul_zero]

/-- A value that takes the place of another one. -/
theorem idsOf_set_le (values : List Value) (index : ℕ) (value : Value) :
    idsOf (values.set index value) ≤ value.ids + idsOf values := by
  induction values generalizing index with
  | nil => exact zero_le _
  | cons head values ih =>
    cases index with
    | zero =>
      rw [set_cons_zero, idsOf_cons, idsOf_cons]
      exact add_le_add_right (le_add_left _ _) _
    | succ index =>
      rw [set_cons_succ, idsOf_cons, idsOf_cons, add_left_comm]
      exact add_le_add_right (ih index) _

end Value

/-- The instructions that destroy, move or borrow a resource. -/
def Opcode.onResource : Opcode → Bool
  | .resourceDestroy | .resourceMove | .resourceBorrow | .resourceBorrowMut => true
  | _ => false

namespace Executor

open Value (idsOf)

variable {α : Type} {blake3 : Bytes → H256} {code : List Instruction} {s t : Executor}

/-! ## The resources an executor holds -/

/-- The ids of the resources on the stack and in local variables. -/
def held (s : Executor) : Multiset ℕ :=
  idsOf s.stack.values + (s.frames.map (fun frame => idsOf frame.locals)).sum

/-- An executor that holds no more than another one, with the same tracker. -/
structure Shrinks (s t : Executor) : Prop where
  held : t.held ≤ s.held
  resources : t.resources = s.resources
  frames : t.frames.length = s.frames.length

theorem Shrinks.refl (s : Executor) : Shrinks s s := ⟨le_rfl, rfl, rfl⟩

theorem Shrinks.trans {u : Executor} (h : Shrinks s t) (h' : Shrinks t u) : Shrinks s u :=
  ⟨h'.held.trans h.held, h'.resources.trans h.resources, h'.frames.trans h.frames⟩

/-- The stack is all that matters as long as the frames stay. -/
theorem shrinks_stack {stack : Stack} (h : idsOf stack.values ≤ idsOf s.stack.values) :
    Shrinks s { s with stack := stack } :=
  ⟨add_le_add_left h _, rfl, rfl⟩

theorem idsOf_tail_le (values : List Value) : idsOf values.tail ≤ idsOf values := by
  cases values with
  | nil => exact le_rfl
  | cons value values => exact le_add_left _ _

theorem routine_shrinks : Routine (fun value => value.ids = 0) Shrinks where
  plain _ h := Value.ids_of_plain h
  refl := .refl
  trans := .trans
  pop s := shrinks_stack (idsOf_tail_le _)
  push s value stack hvalue hpush := by
    refine shrinks_stack ?_
    rw [push_eq_ok hpush, Value.idsOf_cons, hvalue, zero_add]
  swap s stack hswap := by
    obtain ⟨a, b, values, hvalues, hvalues'⟩ := swap_eq_ok hswap
    refine shrinks_stack (le_of_eq ?_)
    rw [hvalues, hvalues']
    simp only [Value.idsOf_cons]
    exact add_left_comm _ _ _
  memory _ _ := ⟨le_rfl, rfl, rfl⟩
  storage _ _ := ⟨le_rfl, rfl, rfl⟩
  logs _ _ := ⟨le_rfl, rfl, rfl⟩
  gas _ _ _ := ⟨le_rfl, rfl, rfl⟩

/-! ## Instructions -/

/-- **What an instruction does with resources.** -/
inductive Handles (s t : Executor) : Prop
  | shrink (h : Shrinks s t)
  | create (typeName : String) (pc : ℕ)
      (h : t.resources = (s.resources.create typeName s.frameIndex pc).2)
      (held : t.held ≤ s.resources.nextId ::ₘ s.held) (frames : t.frames.length = s.frames.length)
  | destroy (id : ℕ) (h : s.resources.destroy id = .ok t.resources) (held : id ::ₘ t.held ≤ s.held)
      (frames : t.frames.length = s.frames.length)
  | transfer (id : ℕ) (h : s.resources.transfer id s.frameIndex = .ok t.resources)
      (held : t.held ≤ s.held) (frames : t.frames.length = s.frames.length)
  | borrow (id : ℕ) (isMutable : Bool)
      (h : s.resources.borrow id s.frameIndex isMutable = .ok t.resources) (held : t.held ≤ s.held)
      (frames : t.frames.length = s.frames.length)

theorem held_of_head (h : s.stack.values.head? = some value) :
    s.held = value.ids + ({ s with stack := s.stack.tail } : Executor).held := by
  obtain ⟨values, hvalues⟩ := head?_eq_some_iff.mp h
  unfold held
  show _ = value.ids + (idsOf s.stack.values.tail + _)
  rw [hvalues, Value.idsOf_cons, tail_cons, add_assoc]

variable {flow : ControlFlow} {index : ℕ} {frame : CallFrame}

theorem shrinks_dup (hempty : ∀ value, s.stack.values.head? = some value → value.ids = 0)
    (hexec : (onStack Stack.dup).Succeeds s (fun _ t' => t' = t)) : Shrinks s t := by
  unfold onStack at hexec
  simp only [succeeds_bind, succeeds_get, succeeds_ofExcept, succeeds_modify,
    succeeds_pure] at hexec
  obtain ⟨stack, hdup, rfl⟩ := hexec
  obtain ⟨value, hhead, hvalues⟩ := dup_eq_ok hdup
  refine shrinks_stack ?_
  rw [hvalues, Value.idsOf_cons, hempty value hhead, zero_add]

theorem shrinks_loadLocal
    (hempty : ∀ frame value, s.frames.head? = some frame → frame.locals[index]? = some value →
      value.ids = 0) (hexec : (executeLoadLocal index).Succeeds s (fun _ t' => t' = t)) :
    Shrinks s t := by
  unfold executeLoadLocal at hexec
  simp only [succeeds_bind, succeeds_currentFrame, succeeds_ofExcept, succeeds_push,
    succeeds_pure] at hexec
  obtain ⟨frame, hframe, value, hlocal, hroom, rfl⟩ := hexec
  refine shrinks_stack ?_
  rw [Value.idsOf_cons, hempty frame value hframe (CallFrame.getLocal_eq_ok.mp hlocal), zero_add]

theorem setLocal_ids {frame' : CallFrame} (h : frame.setLocal index value = .ok frame') :
    idsOf frame'.locals ≤ value.ids + idsOf frame.locals := by
  unfold CallFrame.setLocal at h
  split at h
  · cases h
  · cases h
    refine (Value.idsOf_set_le _ _ _).trans ?_
    rw [Value.idsOf_append, Value.idsOf_replicate_unit, add_zero]

theorem shrinks_storeLocal (hexec : (executeStoreLocal index).Succeeds s (fun _ t' => t' = t)) :
    Shrinks s t := by
  unfold executeStoreLocal setCurrentFrame at hexec
  simp only [succeeds_bind, succeeds_pop, succeeds_currentFrame, succeeds_ofExcept,
    succeeds_modify, succeeds_pure] at hexec
  obtain ⟨value, hvalue, frame, hframe, frame', hset, rfl⟩ := hexec
  obtain ⟨rest, hframes⟩ := head?_eq_some_iff.mp hframe
  refine ⟨?_, rfl, ?_⟩
  · rw [held_of_head hvalue]
    unfold held
    dsimp only
    rw [hframes]
    simp only [List.tail_cons, List.map_cons, List.sum_cons]
    calc idsOf s.stack.tail.values + (idsOf frame'.locals + _)
        ≤ idsOf s.stack.tail.values + (value.ids + idsOf frame.locals + _) :=
          add_le_add_right (add_le_add_left (setLocal_ids hset) _) _
      _ = _ := by ac_rfl
  · show (frame' :: s.frames.tail).length = _
    rw [hframes]
    rfl

variable {instr : Instruction}

theorem handles_resourceCreate
    (hexec : (executeResourceCreate instr).Succeeds s (fun _ t' => t' = t)) : Handles s t := by
  unfold executeResourceCreate at hexec
  simp only [succeeds_bind, succeeds_decodeString, succeeds_lastIndex, succeeds_currentFrame,
    succeeds_get, succeeds_modify, succeeds_push, succeeds_pure] at hexec
  obtain ⟨typeName, -, -, frame, -, hroom, rfl⟩ := hexec
  refine .create typeName frame.pc rfl (le_of_eq ?_) rfl
  show idsOf (.resource typeName [] s.resources.nextId :: s.stack.values) + _ = _
  rw [Value.idsOf_cons, add_assoc]
  rfl

theorem handles_resourceDestroy (hexec : executeResourceDestroy.Succeeds s (fun _ t' => t' = t)) :
    Handles s t := by
  unfold executeResourceDestroy at hexec
  rw [succeeds_bind, succeeds_pop] at hexec
  obtain ⟨value, hvalue, hexec⟩ := hexec
  split at hexec
  next name fields id =>
    simp only [succeeds_bind, succeeds_get, succeeds_ofResult, succeeds_modify,
      succeeds_pure] at hexec
    obtain ⟨resources, hdestroy, rfl⟩ := hexec
    refine .destroy id hdestroy ?_ rfl
    rw [held_of_head hvalue]
    exact (cons_le_cons id (le_add_left _ _)).trans_eq (cons_add ..).symm
  · exact (succeeds_fail.mp hexec).elim

theorem handles_resourceMove (hexec : executeResourceMove.Succeeds s (fun _ t' => t' = t)) :
    Handles s t := by
  unfold executeResourceMove at hexec
  rw [succeeds_bind, succeeds_pop] at hexec
  obtain ⟨value, hvalue, hexec⟩ := hexec
  split at hexec
  next name fields id =>
    simp only [succeeds_bind, succeeds_lastIndex, succeeds_get, succeeds_ofResult,
      succeeds_modify, succeeds_push, succeeds_pure] at hexec
    obtain ⟨-, resources, htransfer, hroom, rfl⟩ := hexec
    refine .transfer id htransfer (le_of_eq ?_) rfl
    rw [held_of_head hvalue]
    exact add_assoc _ _ _
  · exact (succeeds_fail.mp hexec).elim

theorem handles_resourceBorrow {isMutable : Bool}
    (hexec : (executeResourceBorrow isMutable).Succeeds s (fun _ t' => t' = t)) : Handles s t := by
  unfold executeResourceBorrow at hexec
  rw [succeeds_bind, succeeds_get, succeeds_bind, succeeds_ofExcept] at hexec
  obtain ⟨value, -, hexec⟩ := hexec
  split at hexec
  next name fields id =>
    simp only [succeeds_bind, succeeds_lastIndex, succeeds_get, succeeds_ofResult,
      succeeds_modify, succeeds_pure] at hexec
    obtain ⟨-, resources, hborrow, rfl⟩ := hexec
    exact .borrow id isMutable hborrow le_rfl rfl
  · obtain rfl := succeeds_pure.mp hexec
    exact .shrink (.refl _)

/-- **No resource is copied**: what `Dup` and `LoadLocal` copy holds none. -/
def copiesNone (s : Executor) (instr : Instruction) : Bool :=
  match instr.opcode with
  | .dup => s.stack.values.head?.all (fun value => value.ids = 0)
  | .loadLocal =>
    s.frames.head?.all fun frame =>
      frame.locals[decodeU16 instr]?.all (fun value => value.ids = 0)
  | _ => true

theorem handles_executeInstruction (hcopies : copiesNone s instr = true)
    (hexec : executeInstruction blake3 instr s = (.ok flow, t)) : Handles s t := by
  cases hordinary : instr.opcode.ordinary with
  | true =>
    have h : Leads Shrinks (executeInstruction blake3 instr) := by
      cases hbranches : instr.opcode.branches with
      | true => exact (ends_branch (C := True) routine_shrinks blake3 (fun _ => trivial)
        hbranches).leads
      | false =>
        exact (ends_ordinary (C := True) routine_shrinks blake3 (fun _ => trivial) hordinary
          hbranches).leads
    have hs := h s
    rw [hexec] at hs
    exact .shrink hs
  | false =>
    have hexec : (executeInstruction blake3 instr).Succeeds s (fun _ t' => t' = t) :=
      ⟨_, _, hexec, rfl⟩
    obtain ⟨opcode, operand⟩ := instr
    cases opcode with
    | dup =>
      exact .shrink (shrinks_dup (by simpa [copiesNone, Option.all_eq_true] using hcopies) hexec)
    | loadLocal =>
      refine .shrink (shrinks_loadLocal (fun frame value hframe hvalue => ?_) hexec)
      simp only [copiesNone, hframe, hvalue, Option.all_some] at hcopies
      exact of_decide_eq_true hcopies
    | storeLocal => exact .shrink (shrinks_storeLocal hexec)
    | resourceCreate => exact handles_resourceCreate hexec
    | resourceDestroy => exact handles_resourceDestroy hexec
    | resourceMove => exact handles_resourceMove hexec
    | resourceBorrow | resourceBorrowMut => exact handles_resourceBorrow hexec
    | _ => cases hordinary

/-! ## Returns -/

/-- Only `Return` returns. -/
theorem opcode_of_return (hexec : executeInstruction blake3 instr s = (.ok .ret, t)) :
    instr.opcode = .ret := by
  cases hbranches : instr.opcode.branches with
  | false =>
    have hnext := (ends_next (C := True) thorough_continues blake3 (fun _ => trivial)
      hbranches s).2
    rw [hexec] at hnext
    cases hnext
  | true =>
    obtain ⟨opcode, operand⟩ := instr
    cases opcode with
    | ret => rfl
    | jump | revert | halt => cases hexec
    | jumpIf | jumpIfNot =>
      obtain ⟨cond, s₁, -, hexec⟩ := bind_eq_ok.mp hexec
      split at hexec <;> cases hexec
    | _ => cases hbranches

/-- `Return` leaves no resource of its frame behind. -/
theorem checkFrameExit_eq_ok {tracker : ResourceTracker} {u : Unit}
    (h : tracker.checkFrameExit index = .ok u) (id : ℕ) (info : ResourceInfo)
    (hinfo : tracker.resources.lookup id = some info) : info.owner ≠ index := by
  unfold checkFrameExit at h
  split at h
  · cases h
  next hnone =>
    intro howner
    have hmem := mem_lookup_iff.mp hinfo
    exact find?_eq_none.mp hnone _ hmem (decide_eq_true howner)

/-! ## The discipline -/

/-- **The discipline**: every resource on the stack and in the local variables
exists, and is there once; every resource is owned by a frame. -/
structure Linear (s : Executor) : Prop where
  sound : s.resources.Sound
  once : s.held.Nodup
  live : ∀ id ∈ s.held, id ∈ s.resources.resources
  owned : ∀ id info, s.resources.resources.lookup id = some info → info.owner < s.frames.length

theorem Shrinks.linear (h : Shrinks s t) (hs : Linear s) : Linear t where
  sound := h.resources ▸ hs.sound
  once := nodup_of_le h.held hs.once
  live id hid := h.resources ▸ hs.live id (mem_of_le h.held hid)
  owned id info hinfo := by
    rw [h.resources] at hinfo
    rw [h.frames]
    exact hs.owned id info hinfo

theorem Linear.create {typeName : String} {pc : ℕ} (hs : Linear s) (hframes : s.frames ≠ [])
    (h : t.resources = (s.resources.create typeName s.frameIndex pc).2)
    (hheld : t.held ≤ s.resources.nextId ::ₘ s.held) (hlength : t.frames.length = s.frames.length) :
    Linear t := by
  have hnext : s.resources.nextId ∉ s.held :=
    fun hmem => (hs.sound.fresh _ (hs.live _ hmem)).false
  refine ⟨h ▸ sound_create hs.sound _ _ _,
    nodup_of_le hheld (nodup_cons.mpr ⟨hnext, hs.once⟩), fun id hid => ?_,
    fun id info hinfo => ?_⟩
  · rw [h]
    refine (mem_insert _).mpr ?_
    obtain rfl | hid := mem_cons.mp (mem_of_le hheld hid)
    · exact .inl rfl
    · exact .inr (hs.live id hid)
  · rw [hlength]
    rw [h] at hinfo
    change (s.resources.resources.insert s.resources.nextId _).lookup id = _ at hinfo
    by_cases hid : id = s.resources.nextId
    · rw [hid, lookup_insert] at hinfo
      cases hinfo
      exact Nat.sub_lt (length_pos_of_ne_nil hframes) Nat.one_pos
    · rw [lookup_insert_ne hid] at hinfo
      exact hs.owned id info hinfo

variable {id : ℕ} {rest : List CallFrame}

theorem Linear.destroy (hs : Linear s) (h : s.resources.destroy id = .ok t.resources)
    (hheld : id ::ₘ t.held ≤ s.held) (hlength : t.frames.length = s.frames.length) : Linear t := by
  obtain ⟨hnot, honce⟩ := nodup_cons.mp (nodup_of_le hheld hs.once)
  have hsound := sound_destroy hs.sound h
  obtain ⟨-, htracker⟩ := destroy_eq_ok h
  have herase : t.resources.resources = s.resources.resources.erase id := by rw [htracker]
  refine ⟨hsound, honce, fun other hother => ?_, fun other info hinfo => ?_⟩
  · rw [herase]
    refine mem_erase.mpr ⟨?_, hs.live other
      (mem_of_le hheld (mem_cons_of_mem hother))⟩
    rintro rfl
    exact hnot hother
  · rw [hlength]
    rw [herase] at hinfo
    by_cases heq : other = id
    · rw [heq, lookup_erase] at hinfo
      cases hinfo
    · rw [lookup_erase_ne heq] at hinfo
      exact hs.owned other info hinfo

theorem Linear.transfer (hs : Linear s) (hframes : s.frames ≠ [])
    (h : s.resources.transfer id s.frameIndex = .ok t.resources) (hheld : t.held ≤ s.held)
    (hlength : t.frames.length = s.frames.length) : Linear t := by
  have hsound := sound_transfer hs.sound h
  obtain ⟨-, old, hold, htracker⟩ := transfer_eq_ok h
  have hinsert : t.resources.resources
      = s.resources.resources.insert id { old with owner := s.frameIndex } := by rw [htracker]
  refine ⟨hsound, nodup_of_le hheld hs.once, fun other hother => ?_,
    fun other info hinfo => ?_⟩
  · rw [hinsert]
    exact (mem_insert _).mpr (.inr (hs.live other (mem_of_le hheld hother)))
  · rw [hlength]
    rw [hinsert] at hinfo
    by_cases heq : other = id
    · rw [heq, lookup_insert] at hinfo
      cases hinfo
      exact Nat.sub_lt (length_pos_of_ne_nil hframes) Nat.one_pos
    · rw [lookup_insert_ne heq] at hinfo
      exact hs.owned other info hinfo

theorem Handles.linear (h : Handles s t) (hs : Linear s) (hframes : s.frames ≠ []) : Linear t := by
  cases h with
  | shrink h => exact h.linear hs
  | create typeName pc h held frames => exact hs.create hframes h held frames
  | destroy id h held frames => exact hs.destroy h held frames
  | transfer id h held frames => exact hs.transfer hframes h held frames
  | borrow id isMutable h held frames =>
    have hsound := sound_borrow hs.sound h
    obtain ⟨-, -, htracker⟩ := borrow_eq_ok h
    have hsame : t.resources.resources = s.resources.resources := by rw [htracker]
    exact ⟨hsound, nodup_of_le held hs.once,
      fun id hid => hsame ▸ hs.live id (mem_of_le held hid),
      fun id info hinfo => frames ▸ hs.owned id info (hsame ▸ hinfo)⟩

theorem Linear.drop {u : Unit} (hs : Linear s) (hframes : s.frames = frame :: rest)
    (hexit : s.resources.checkFrameExit s.frameIndex = .ok u) :
    Linear { s with frames := rest } := by
  have hheld : ({ s with frames := rest } : Executor).held ≤ s.held := by
    unfold held
    rw [hframes, List.map_cons, List.sum_cons]
    exact add_le_add_right (le_add_left _ _) _
  refine ⟨hs.sound, nodup_of_le hheld hs.once,
    fun id hid => hs.live id (mem_of_le hheld hid), fun id info hinfo => ?_⟩
  have hlt := hs.owned id info hinfo
  have hne : info.owner ≠ s.frames.length - 1 := checkFrameExit_eq_ok hexit id info hinfo
  rw [hframes] at hlt hne
  show info.owner < rest.length
  simp only [length_cons, Nat.add_sub_cancel] at hlt hne
  omega

/-- **A careful round**: no resource is copied, and a frame that comes to the end
of the code passes the check that `Return` makes. -/
def careful (code : List Instruction) (s : Executor) : Bool :=
  match s.frames with
  | [] => true
  | frame :: _ =>
    match code[frame.pc]? with
    | some instr => copiesNone s instr
    | none => (s.resources.checkFrameExit s.frameIndex).isOk

theorem shrinks_pc (hframes : s.frames = frame :: rest) (pc : ℕ) (gas : GasMeter) :
    Shrinks s { s with gas := gas, frames := { frame with pc := pc } :: rest } := by
  refine ⟨le_of_eq ?_, rfl, ?_⟩
  · unfold held
    rw [hframes]
    rfl
  · rw [hframes]
    rfl

theorem linear_follow (hs : Linear s) (hreturn : flow ≠ .ret)
    (hfollow : follow flow s = (.ok (), t)) : Linear t := by
  cases flow with
  | next => cases hfollow; exact hs
  | jump target =>
    rw [follow_jump] at hfollow
    cases hfollow
    cases hframes : s.frames with
    | nil =>
      dsimp only [List.modifyHead]
      rwa [← hframes]
    | cons frame rest => exact (shrinks_pc hframes target s.gas).linear hs
  | ret => exact absurd rfl hreturn
  | halt | revert => cases hfollow

theorem linear_step (hs : Linear s) (hcareful : careful code s = true)
    (hstep : GoesOn blake3 code s t) : Linear t := by
  obtain ⟨frame, rest, hframes, hend, rfl⟩ |
    ⟨frame, rest, instr, gas, flow, s₁, hframes, hinstr, -, hexec, hfollow⟩ := step_cases hstep
  · unfold careful at hcareful
    rw [hframes] at hcareful
    dsimp only at hcareful
    rw [hend] at hcareful
    cases hexit : s.resources.checkFrameExit s.frameIndex with
    | ok u => exact hs.drop hframes hexit
    | error e => rw [hexit] at hcareful; cases hcareful
  · set s₀ : Executor :=
      { s with gas := gas, frames := { frame with pc := frame.pc + 1 } :: rest } with hs₀
    have hlinear : Linear s₀ := (shrinks_pc hframes _ gas).linear hs
    have hcopies : copiesNone s₀ instr = true := by
      unfold careful at hcareful
      rw [hframes] at hcareful
      dsimp only at hcareful
      rw [hinstr] at hcareful
      unfold copiesNone at hcareful ⊢
      rw [hframes] at hcareful
      exact hcareful
    have hlinear₁ := (handles_executeInstruction hcopies hexec).linear hlinear nofun
    by_cases hreturn : instr.opcode = .ret
    · -- the check of a return is made in the state that it leaves
      obtain ⟨opcode, operand⟩ := instr
      obtain rfl : opcode = .ret := hreturn
      have hsucceeds : executeReturn.Succeeds s₀ (fun flow' t' => flow' = flow ∧ t' = s₁) :=
        ⟨_, _, hexec, rfl, rfl⟩
      unfold executeReturn at hsucceeds
      simp only [succeeds_bind, succeeds_lastIndex, succeeds_get, succeeds_ofResult,
        succeeds_pure] at hsucceeds
      obtain ⟨-, u, hexit, rfl, rfl⟩ := hsucceeds
      cases hfollow
      exact hlinear.drop rfl hexit
    · refine linear_follow hlinear₁ ?_ hfollow
      rintro rfl
      exact hreturn (opcode_of_return hexec)

theorem linear_reaches (hs : Linear s)
    (hcareful : ∀ t, Reaches blake3 code s t → careful code t = true)
    (hreach : Reaches blake3 code s t) : Linear t := by
  induction hreach with
  | refl => exact hs
  | tail hreach hstep ih => exact linear_step ih (hcareful _ hreach) hstep

theorem Linear.enter (hs : Linear s) : Linear s.enter := by
  have hheld : s.enter.held = s.held := by
    show idsOf s.stack.values + (0 + _) = _
    rw [zero_add]
    rfl
  exact ⟨hs.sound, hheld ▸ hs.once, fun id hid => hs.live id (hheld ▸ hid),
    fun id info hinfo => (hs.owned id info hinfo).trans (Nat.lt_succ_self _)⟩

/-! ## Rounds -/

/-- The instruction of the next round and the resource that it works on, if it
works on one. -/
def worksOn (code : List Instruction) (s : Executor) : Option (Opcode × ℕ) := do
  let frame ← s.frames.head?
  let instr ← code[frame.pc]?
  guard instr.opcode.onResource
  return (instr.opcode, ← s.stack.values.head?.bind Value.resourceId)

/-- Whether an outstanding borrow excludes an instruction on the resource: a
mutable one excludes another borrow, and any one the rest. -/
def excluded (s : Executor) (id : ℕ) : Opcode → Bool
  | .resourceBorrow => s.resources.borrows.entries.any
      (fun entry => entry.2.resourceId = id && entry.2.isMutable)
  | _ => s.resources.isBorrowed id

/-- **What holds before and in a round**: a resource that exists is on the stack
and in the local variables at most once, an instruction on one that does not
exist fails, and so does one that a borrow excludes, and what is borrowed is not
touched. -/
structure Disciplined (blake3 : Bytes → H256) (code : List Instruction) (s : Executor) : Prop where
  once : ∀ id ∈ s.resources.resources, s.held.count id ≤ 1
  dead : ∀ opcode id t, worksOn code s = some (opcode, id) → id ∉ s.resources.resources →
    ¬ GoesOn blake3 code s t
  excluded : ∀ opcode id t, worksOn code s = some (opcode, id) → s.excluded id opcode = true →
    ¬ GoesOn blake3 code s t
  borrowed : s.resources.Respects (step blake3 code s).2.resources

/-- The resource that an instruction works on is on top of the stack. -/
theorem worksOn_eq_some {opcode : Opcode} (h : worksOn code s = some (opcode, id)) :
    opcode.onResource = true ∧
      (∃ name fields, s.stack.values.head? = some (.resource name fields id)) ∧
      ∃ frame instr, s.frames.head? = some frame ∧ code[frame.pc]? = some instr ∧
        instr.opcode = opcode := by
  obtain ⟨frame, hframe, h⟩ := Option.bind_eq_some_iff.mp h
  obtain ⟨instr, hinstr, h⟩ := Option.bind_eq_some_iff.mp h
  obtain ⟨_, hon, h⟩ := Option.bind_eq_some_iff.mp h
  obtain ⟨id', hid, heq⟩ := Option.bind_eq_some_iff.mp h
  cases heq
  obtain ⟨value, hvalue, hid⟩ := Option.bind_eq_some_iff.mp hid
  cases value with
  | resource name fields id' =>
    cases hid
    exact ⟨by simpa [guard] using hon, ⟨name, fields, hvalue⟩, frame, instr, hframe, hinstr, rfl⟩
  | _ => cases hid

theorem mem_held_of_worksOn {opcode : Opcode} (h : worksOn code s = some (opcode, id)) :
    id ∈ s.held := by
  obtain ⟨-, ⟨_, _, hvalue⟩, -⟩ := worksOn_eq_some h
  rw [held_of_head hvalue]
  exact mem_add.mpr (.inl (mem_cons_self _ _))

/-- An instruction on a resource that goes on is not excluded. -/
theorem excluded_eq_false {name : String} {fields : List (String × Value)}
    (hexec : executeInstruction blake3 instr s = (.ok flow, t))
    (hvalue : s.stack.values.head? = some (.resource name fields id))
    (hon : instr.opcode.onResource = true) : s.excluded id instr.opcode = false := by
  have hexec : (executeInstruction blake3 instr).Succeeds s (fun _ _ => True) :=
    ⟨_, _, hexec, trivial⟩
  obtain ⟨opcode, operand⟩ := instr
  cases opcode with
  | resourceDestroy =>
    simp [executeInstruction, executeResourceDestroy, hvalue] at hexec
    obtain ⟨_, hdestroy⟩ := hexec
    exact (destroy_eq_ok hdestroy).1
  | resourceMove =>
    simp [executeInstruction, executeResourceMove, hvalue] at hexec
    obtain ⟨-, ⟨_, htransfer⟩, -⟩ := hexec
    exact (transfer_eq_ok htransfer).1
  | resourceBorrow =>
    simp [executeInstruction, executeResourceBorrow, Stack.peek, hvalue] at hexec
    obtain ⟨-, _, hborrow⟩ := hexec
    exact (borrow_eq_ok hborrow).2.1
  | resourceBorrowMut =>
    simp [executeInstruction, executeResourceBorrow, Stack.peek, hvalue] at hexec
    obtain ⟨-, _, hborrow⟩ := hexec
    exact conflicts_true.symm.trans (borrow_eq_ok hborrow).2.1
  | _ => cases hon

/-- A round on a resource that a borrow excludes does not go on. -/
theorem not_goesOn_of_excluded {opcode : Opcode} (h : worksOn code s = some (opcode, id))
    (hexcluded : s.excluded id opcode = true) : ¬ GoesOn blake3 code s t := by
  intro hstep
  obtain ⟨hon, ⟨name, fields, hvalue⟩, frame, instr, hframe, hinstr, rfl⟩ := worksOn_eq_some h
  obtain ⟨frame', rest, hframes, hend, -⟩ |
    ⟨frame', rest, instr', gas, flow, s₁, hframes, hinstr', -, hexec, -⟩ := step_cases hstep
  all_goals
    rw [hframes, head?_cons] at hframe
    cases hframe
  · rw [hend] at hinstr
    cases hinstr
  · cases hinstr.symm.trans hinstr'
    have hfalse := excluded_eq_false hexec hvalue hon
    exact absurd (hexcluded.symm.trans hfalse) nofun

/-- Without frames there is nobody to own a resource. -/
theorem Linear.resources_eq_empty (hs : Linear s) (hframes : s.frames = []) :
    s.resources.resources = ∅ := by
  refine ext (eq_nil_iff_forall_not_mem.mpr ?_)
  rintro ⟨id, info⟩ hmem
  have howner := hs.owned id info (mem_lookup_iff.mpr hmem)
  rw [hframes] at howner
  exact Nat.not_lt_zero _ howner

theorem Linear.disciplined (hs : Linear s) : Disciplined blake3 code s where
  once id _ := nodup_iff_count_le_one.mp hs.once id
  dead _ id _ hid hnot := absurd (hs.live id (mem_held_of_worksOn hid)) hnot
  excluded _ _ _ := not_goesOn_of_excluded
  borrowed := (tracks_step s hs.sound).2

/-! ## Executions -/

/-- **An executor whose executions were careful**: a new one, or one after a
careful execution that succeeded. -/
inductive Kept (blake3 : Bytes → H256) : Executor → Prop
  | new (limit : ℕ) (h : limit < 2 ^ 64) (context : ExecutionContext) :
      Kept blake3 (Executor.new limit h context)
  | next {s t : Executor} {code : List Instruction} {output : ExecutionOutput} (hs : Kept blake3 s)
      (hcareful : ∀ s', Reaches blake3 code s.enter s' → careful code s' = true)
      (hexec : Executes blake3 code s (.ok output) t) (hsuccess : output.success = true) :
      Kept blake3 t

/-- A careful execution that succeeds keeps the discipline and leaves no frame. -/
theorem Linear.executes {output : ExecutionOutput} (hs : Linear s)
    (hcareful : ∀ s', Reaches blake3 code s.enter s' → careful code s' = true)
    (hexec : Executes blake3 code s (.ok output) t) (hsuccess : output.success = true) :
    Linear t ∧ t.frames = [] := by
  obtain ⟨fuel, o, s₁, hrun, hfinish⟩ := executes_iff.mp hexec
  obtain rfl : o = .ok () := by
    refine (succeeded_finish (s := s₁)).mp ?_
    rw [hfinish]
    exact hsuccess
  cases hfinish
  obtain ⟨hreach, hframes⟩ := reaches_of_runFor hrun
  exact ⟨(shrinks_stack (idsOf_tail_le _)).linear (linear_reaches hs.enter hcareful hreach), hframes⟩

theorem Kept.linear (h : Kept blake3 s) : Linear s := by
  induction h with
  | new =>
    exact ⟨sound_new, nodup_zero, fun _ hid => absurd hid (notMem_zero _),
      fun _ _ hinfo => nomatch hinfo⟩
  | next _ hcareful hexec hsuccess ih => exact (ih.executes hcareful hexec hsuccess).1

/-- **Resources are linear in a careful run**: every round is disciplined, and if
the execution succeeds, all resources have been destroyed. -/
theorem resources_linear (blake3 : Bytes → H256) (code : List Instruction) {s : Executor}
    (hs : Kept blake3 s)
    (hcareful : ∀ s', Reaches blake3 code s.enter s' → careful code s' = true) :
    (∀ s', Reaches blake3 code s.enter s' → Disciplined blake3 code s') ∧
      ∀ output t, Executes blake3 code s (.ok output) t → output.success = true →
        t.resources.resources = ∅ := by
  have hlinear := hs.linear
  refine ⟨fun s' hreach => (linear_reaches hlinear.enter hcareful hreach).disciplined,
    fun output t hexec hsuccess => ?_⟩
  obtain ⟨hlinear, hframes⟩ := hlinear.executes hcareful hexec hsuccess
  exact hlinear.resources_eq_empty hframes

/-- Creates a resource, and goes on with some instructions. -/
def creating (opcodes : List Opcode) : List Instruction :=
  ⟨.resourceCreate, some [84]⟩ :: opcodes.map .new

/-- A resource that is moved and destroyed. -/
theorem creating_linear :
    (∀ s, Reaches (fun _ => .zero) (creating [.resourceMove, .resourceDestroy])
      freshExecutor.enter s → Disciplined (fun _ => .zero) (creating [.resourceMove, .resourceDestroy]) s) ∧
    ∀ output t, Executes (fun _ => .zero) (creating [.resourceMove, .resourceDestroy]) freshExecutor
      (.ok output) t → output.success = true → t.resources.resources = ∅ := by
  refine resources_linear (fun _ => .zero) _ (.new 100000 (by decide) _) fun s hreach =>
    of_allRounds (P := careful _) (n := 5) ?_ hreach
  decide +kernel

/-- A resource can be copied and destroyed twice, and it can be forgotten. -/
theorem creating_not_linear :
    (∃ output t, Executes (fun _ => .zero) (creating [.dup, .resourceDestroy, .resourceDestroy])
      freshExecutor (.ok output) t ∧ output.success = true) ∧
    (∃ s, Reaches (fun _ => .zero) (creating [.dup, .resourceDestroy, .resourceDestroy])
      freshExecutor.enter s ∧ 0 ∈ s.resources.resources ∧ s.held.count 0 = 2) ∧
    ∃ output t, Executes (fun _ => .zero) (creating []) freshExecutor (.ok output) t ∧
      output.success = true ∧ t.resources.resources ≠ ∅ := by
  refine ⟨⟨_, _, ⟨6, rfl⟩, rfl⟩, ⟨_, .tail (.tail .refl rfl) rfl, by decide +kernel,
    by decide +kernel⟩, ⟨_, _, ⟨4, rfl⟩, rfl, fun hempty => ?_⟩⟩
  exact absurd (congrArg (fun resources => resources.entries.length) hempty) (by decide +kernel)

end Executor

end Qfc.Qvm
