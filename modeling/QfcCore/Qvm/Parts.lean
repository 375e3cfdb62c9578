import QfcCore.Qvm.Executor

/-!
# The parts of instructions

When a part of an instruction succeeds, and what it leaves. The lemmas rewrite
the success of an instruction along its structure.
-/

namespace Qfc.Qvm

open Act

/-- The id of a resource. -/
def Value.resourceId : Value → Option ℕ
  | .resource _ _ id => some id
  | _ => Option.none

namespace Executor

/-! ## What the stack becomes -/

variable {stack stack' : Stack}

theorem push_eq_ok {value : Value} (h : stack.push value = .ok stack') :
    stack'.values = value :: stack.values := by
  unfold Stack.push at h
  split at h
  · cases h
    rfl
  · cases h

theorem swap_eq_ok (h : stack.swap = .ok stack') :
    ∃ a b values, stack.values = a :: b :: values ∧ stack'.values = b :: a :: values := by
  unfold Stack.swap at h
  split at h
  · cases h
    exact ⟨_, _, _, rfl, rfl⟩
  · cases h

theorem dup_eq_ok (h : stack.dup = .ok stack') :
    ∃ value, stack.values.head? = some value ∧ stack'.values = value :: stack.values := by
  unfold Stack.dup Stack.peek at h
  cases hhead : stack.values.head? with
  | none =>
    rw [hhead] at h
    cases h
  | some value =>
    rw [hhead] at h
    exact ⟨value, rfl, push_eq_ok h⟩

/-! ## Success of the parts -/

variable {s : Executor}

section Parts

variable {α : Type} {Q : α → Executor → Prop}

@[simp] theorem succeeds_fail {e : ExecutionError} : (fail e : Instr α).Succeeds s Q ↔ False := by
  refine iff_of_false ?_ id
  rintro ⟨_, _, h, -⟩
  cases h

@[simp] theorem succeeds_ofExcept {w : ε → ExecutionError} {r : Except ε α} :
    (ofExcept w r).Succeeds s Q ↔ ∃ a, r = .ok a ∧ Q a s := by
  cases r with
  | ok a | error e => simp [ofExcept]

@[simp] theorem succeeds_ofResult {r : Except ExecutionError α} :
    (ofResult r).Succeeds s Q ↔ ∃ a, r = .ok a ∧ Q a s :=
  succeeds_ofExcept

@[simp] theorem succeeds_push {value : Value} {Q : Unit → Executor → Prop} :
    (push value).Succeeds s Q ↔
      ∃ h : s.stack.values.length < s.stack.maxDepth,
        Q () { s with stack := ⟨value :: s.stack.values, s.stack.maxDepth, h⟩ } := by
  unfold push Stack.push
  simp only [succeeds_bind, succeeds_get, succeeds_ofExcept, succeeds_modify]
  split
  · rename_i h
    simp [h]
  · rename_i h
    simp [h]

@[simp] theorem succeeds_pop {Q : Value → Executor → Prop} :
    pop.Succeeds s Q ↔
      ∃ value, s.stack.values.head? = some value ∧ Q value { s with stack := s.stack.tail } := by
  unfold pop Stack.pop
  simp only [succeeds_bind, succeeds_get, succeeds_ofExcept, succeeds_modify, succeeds_pure]
  cases s.stack.values.head? with
  | none | some value => simp

@[simp] theorem succeeds_charge {f : GasMeter → Except GasError Unit × GasMeter}
    {Q : Unit → Executor → Prop} :
    (charge f).Succeeds s Q ↔ (f s.gas).1 = .ok () ∧ Q () { s with gas := (f s.gas).2 } := by
  unfold charge Succeeds
  dsimp only
  rcases f s.gas with ⟨r, m⟩
  cases r with
  | ok u => simp [Unique.exists_iff]
  | error e => simp

@[simp] theorem succeeds_currentFrame {Q : CallFrame → Executor → Prop} :
    currentFrame.Succeeds s Q ↔ ∃ frame, s.frames.head? = some frame ∧ Q frame s := by
  unfold currentFrame
  simp only [succeeds_bind, succeeds_get]
  cases s.frames with
  | nil | cons frame rest => simp

@[simp] theorem succeeds_lastIndex {Q : ℕ → Executor → Prop} :
    lastIndex.Succeeds s Q ↔ s.frames ≠ [] ∧ Q s.frameIndex s := by
  unfold lastIndex
  rw [succeeds_bind, succeeds_get]
  cases s.frames with
  | nil | cons frame rest => simp

@[simp] theorem succeeds_popAs {parse : Value → Option α} {expected : String} :
    (popAs parse expected).Succeeds s Q ↔
      ∃ value, s.stack.values.head? = some value ∧
        ∃ a, parse value = some a ∧ Q a { s with stack := s.stack.tail } := by
  unfold popAs
  simp only [succeeds_bind, succeeds_pop]
  refine exists_congr fun value => and_congr_right fun _ => ?_
  cases parse value with
  | none | some a => simp

@[simp] theorem succeeds_decodeString {Q : String → Executor → Prop} :
    (decodeString instr).Succeeds s Q ↔ ∃ text, decodeText instr = some text ∧ Q text s := by
  unfold decodeString
  cases decodeText instr with
  | none | some text => simp

/-- An action that takes the top value, if it can be parsed. -/
def Takes (operand : Instr α) (parse : Value → Option α) : Prop :=
  ∀ (s : Executor) (Q : α → Executor → Prop), operand.Succeeds s Q ↔
    ∃ value, s.stack.values.head? = some value ∧
      ∃ a, parse value = some a ∧ Q a { s with stack := s.stack.tail }

theorem takes_popAs (parse : Value → Option α) (expected : String) :
    Takes (popAs parse expected) parse :=
  fun _ _ => succeeds_popAs

theorem takes_pop : Takes pop some := by
  intro s Q
  simp

end Parts

end Executor

end Qfc.Qvm
