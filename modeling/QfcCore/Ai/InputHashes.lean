import QfcCore.Ai.PoolCoherence

/-!
# The task that a proof settles

`complete_public_task_by_input_hash` looks its task up in an index that has one task
for each input hash. A second task with the same hash takes the place of the first,
and the expiry of either erases the entry of both. While no task is submitted that
shares its input hash with an open one, the index leads to every open task
(`Indexed`), and a proof settles it.
-/

namespace Qfc.Ai.TaskPool

open Function

variable {F : Type} {R : Rates F} {p p' : TaskPool F} {now : ℕ} {taskId : Hash}

/-- The input hash of an open task. -/
def openHash (p : TaskPool F) (id : Hash) : Option Hash :=
  (p.publicTasks id).map fun t => t.innerTask.taskType.inputHash

/-- **The index leads to every open task.** -/
def Indexed (p : TaskPool F) : Prop :=
  ∀ id hash, p.openHash id = some hash → p.inputHashIndex hash = some id

/-- A task is submitted only while no open one has its input hash; a submission that
is refused makes no event. -/
def Unshared (R : Rates F) (state : TaskPool F × List PoolEvent) (e : Timed) : Prop :=
  match e.op with
  | .submit _ task _ | .trySubmit _ task _ _ =>
    (state.1.perform R e.now e.op).2 ≠ [] →
      ∀ id, state.1.openHash id ≠ some task.taskType.inputHash
  | _ => True

namespace Indexed

theorem congr (h : Indexed p) (hopen : p'.openHash = p.openHash)
    (hindex : p'.inputHashIndex = p.inputHashIndex) : Indexed p' := by
  intro id hash hid
  rw [hindex]
  exact h id hash (hopen ▸ hid)

theorem submit (h : Indexed p) (submitter : Address) {task : InferenceTask} (maxFee now : ℕ)
    (hnew : ∀ id, p.openHash id ≠ some task.taskType.inputHash) :
    Indexed (p.submitPublicTask R submitter task maxFee now) := by
  intro id hash hid
  unfold openHash submitPublicTask at hid
  dsimp only [submitPublicTask] at hid ⊢
  obtain rfl | hne := eq_or_ne id task.taskId
  · rw [update_self] at hid
    cases hid
    exact update_self ..
  · rw [update_of_ne hne] at hid
    have hhash : hash ≠ task.taskType.inputHash := fun heq => hnew id (hid.trans (heq ▸ rfl))
    exact (update_of_ne hhash ..).trans (h id hash hid)

/-- A task leaves the table, and its entry the index at most. -/
theorem remove (h : Indexed p) (hpublic : p'.publicTasks = update p.publicTasks taskId none)
    (hindex : ∀ hash, p.openHash taskId ≠ some hash →
      p'.inputHashIndex hash = p.inputHashIndex hash) : Indexed p' := by
  intro id hash hid
  unfold openHash at hid
  rw [hpublic] at hid
  obtain rfl | hne := eq_or_ne id taskId
  · simp at hid
  · rw [update_of_ne hne] at hid
    rw [hindex hash fun htask => ?_]
    · exact h id hash hid
    · exact hne (Option.some.inj ((h id hash hid).symm.trans (h taskId hash htask)))

/-- What an operation keeps that submits nothing. -/
theorem settles (h : Indexed p) {l : List PoolEvent} (hs : Settles p l p') : Indexed p' := by
  induction hs with
  | @quiet p p' hq =>
    refine h.congr (funext fun id => ?_) hq.inputHashIndex
    have hhash := congrArg (Option.map fun k => k.2.2.taskType.inputHash) (hq.kept id)
    rw [Option.map_map, Option.map_map] at hhash
    exact hhash
  | charge ht =>
    rw [completePublicTask_of_some ht]
    exact h.remove rfl fun _ _ => rfl
  | refund ht =>
    rw [expire_of_some ht]
    refine h.remove rfl fun hash hne => update_of_ne ?_ ..
    rintro rfl
    exact hne (congrArg (Option.map _) ht)
  | trans _ _ ih ih' => exact ih' (ih h)

theorem perform {h : List PoolEvent} {e : Timed} (hp : Indexed p) (hnew : Unshared R (p, h) e) :
    Indexed (p.perform R e.now e.op).1 := by
  obtain ⟨now, op⟩ := e
  cases op with
  | submit submitter task maxFee =>
    exact hp.submit submitter maxFee now (hnew (List.cons_ne_nil _ _))
  | trySubmit submitter task maxFee nowMs =>
    unfold Unshared at hnew
    unfold TaskPool.perform at hnew ⊢
    dsimp only at hnew ⊢
    obtain ⟨quota, -, -, ⟨e, htry⟩ | ⟨htry, -⟩⟩ :=
      trySubmitPublicTask_cases R p submitter task maxFee nowMs now <;> rw [htry] at hnew ⊢
    · exact hp.congr rfl rfl
    · have hquota : Indexed { p with quota := quota } := hp.congr rfl rfl
      exact hquota.submit submitter maxFee now (hnew (List.cons_ne_nil _ _))
  | _ => exact hp.settles (perform_settles R p now rfl)

end Indexed

/-- **A proof finds its task** after every run in which no task was submitted that shares
its input hash with an open one: the completion by the input hash of an open task
settles this task. -/
theorem proof_settles_task {config : Option (QuotaConfig F)} {ops : List Timed}
    (hops : Run.Along (poolStep R) (Unshared R) (new config, []) ops) {id hash : Hash}
    (hid : (Run.run (poolStep R) (new config, []) ops).1.openHash id = some hash)
    (result : ResultStorage) (miner : Address) (ms now : ℕ) :
    let done := (Run.run (poolStep R) (new config, []) ops).1.completePublicTaskByInputHash
      hash result miner ms now
    (∃ charge, done.1 = some (id, charge)) ∧ done.2.openHash id = none := by
  have hindexed : Indexed (Run.run (poolStep R) (new config, []) ops).1 :=
    Run.invariant_along (P := fun state : TaskPool F × List PoolEvent => Indexed state.1)
      (nofun) (fun _ _ h hnew => h.perform hnew) hops
  obtain ⟨t, ht, -⟩ := Option.map_eq_some_iff.mp hid
  unfold completePublicTaskByInputHash
  rw [hindexed id hash hid]
  dsimp only
  rw [completePublicTask_of_some ht]
  exact ⟨⟨_, rfl⟩, by simp [openHash]⟩

/-- A task with the input hash 100. -/
def sameInput (byte : UInt8) : InferenceTask :=
  ⟨hashOf byte, 1, .embedding ⟨"test", "v1"⟩ (hashOf 100), [], 0, 90000⟩

/-- Beside a task with the input hash 101, one with the input hash 100 is settled, and
then another one with this hash is submitted. -/
def resubmitted : List Timed :=
  [⟨1000, .submit (partyOf 1) (sameInput 1) 5⟩,
    ⟨1000, .submit (partyOf 1) ⟨hashOf 3, 1, .embedding ⟨"test", "v1"⟩ (hashOf 101), [], 0, 90000⟩ 5⟩,
    ⟨1500, .completeByInputHash (hashOf 100) (.inline [7]) (partyOf 8) 12⟩,
    ⟨1600, .submit (partyOf 1) (sameInput 2) 5⟩]

theorem proof_settles_resubmitted :
    let done := (Run.run (poolStep wholeRates) (new none, [])
      resubmitted).1.completePublicTaskByInputHash (hashOf 100) (.inline [7]) (partyOf 8) 12 2000
    (∃ charge, done.1 = some (hashOf 2, charge)) ∧ done.2.openHash (hashOf 2) = none := by
  have hops : Run.Along (poolStep wholeRates) (Unshared wholeRates) (new none, []) resubmitted := by
    refine ⟨fun _ id => ?_, fun _ id => ?_, trivial, fun _ id => ?_, trivial⟩
    · exact nofun
    · show Option.map _ (update (fun _ => none) (hashOf 1) (some _) id) ≠ _
      rw [update_apply]
      split_ifs <;> decide +kernel
    · show Option.map _ (update (update (update (fun _ => none) _ _) _ _) _ _ id) ≠ _
      simp only [update_apply]
      split_ifs <;> decide +kernel
  exact proof_settles_task hops (by decide +kernel) (.inline [7]) (partyOf 8) 12 2000

/-- Of two tasks with one input hash the second is settled, and the first is never
found. -/
theorem shared_input_lost :
    let p := (Run.run (poolStep wholeRates) (new none, [])
      [⟨1000, .submit (partyOf 1) (sameInput 1) 5⟩, ⟨1000, .submit (partyOf 1) (sameInput 2) 5⟩,
        ⟨2000, .completeByInputHash (hashOf 100) (.inline [7]) (partyOf 8) 12⟩]).1
    p.openHash (hashOf 1) = some (hashOf 100) ∧
      (p.completePublicTaskByInputHash (hashOf 100) (.inline [7]) (partyOf 9) 12 3000).1 = none := by
  decide +kernel

end Qfc.Ai.TaskPool
