import QfcCore.Ai.Quota

/-!
# The task pool

`TaskPool` of `qfc-ai-coordinator/src/task_pool.rs`. A public task is queued,
assigned to a miner, and then completed or expired; a stale assignment goes back
to the queue, and a redundant task stays there until enough miners have it.

The tables are functions of the task id. Where the code walks over a table the
order is the one of a hash map, which nobody fixes, so the operation takes the
order of the ids as an argument; the clock is an argument as well. The
generation of synthetic tasks, the listings and the counters of the metrics are
left out.
-/

namespace Qfc.Ai

open Ps (satAdd64)
open Function

/-- Where a result is. -/
inductive ResultStorage
  | inline (data : Bytes)
  | ipfs (cid : String) (size : ℕ) (preview : Bytes)
deriving DecidableEq

/-- `PublicTaskStatus`, as far as it is reached. -/
inductive PublicTaskStatus
  | pending
  | assigned
  | completed (result : ResultStorage) (miner : Address) (executionTimeMs : ℕ)
  | expired
deriving DecidableEq

/-- A task submitted by a user. -/
structure PublicTask where
  taskId : Hash
  submitter : Address
  innerTask : InferenceTask
  maxFee : ℕ
  status : PublicTaskStatus
  submittedAt : ℕ
deriving DecidableEq

/-- What stays of a public task. -/
def PublicTask.kept (t : PublicTask) : Hash × Address × InferenceTask :=
  (t.taskId, t.submitter, t.innerTask)

/-- A task given to a miner. -/
structure AssignedTask where
  task : InferenceTask
  miner : Address
  assignedAt : ℕ
deriving DecidableEq

/-- How long a miner has for a task. -/
def assignmentTimeoutMs : ℕ := 30000

/-- How long a finished task is kept. -/
def completedRetentionMs : ℕ := 3600000

/-- **The pool.** -/
structure TaskPool (F : Type) where
  queue : List InferenceTask
  publicTasks : Hash → Option PublicTask
  inputHashIndex : Hash → Option Hash
  assigned : Hash → Option AssignedTask
  redundantAssignments : Hash → Option (List Address)
  redundancyCount : ℕ
  completedTasks : Hash → Option (PublicTask × ℕ)
  quota : QuotaEnforcer F
  cost : CostMeter
  rrLastTenant : Option Address

/-- A call of the treasury hook. -/
structure Charge where
  tenant : Address
  miner : Address
  flops : ℕ
  feeWei : ℕ
deriving DecidableEq

namespace TaskPool

variable {F : Type}

/-- `TaskPool::new`, with a quota configuration. -/
def new (config : Option (QuotaConfig F)) : TaskPool F :=
  ⟨[], fun _ => none, fun _ => none, fun _ => none, fun _ => none, 2, fun _ => none,
    ⟨config, fun _ => none⟩, .new, none⟩

/-! ## Fetching -/

/-- A task of the queue that suits the miner. -/
structure Candidate where
  index : ℕ
  tenant : Address
  priority : ℕ
  fee : ℕ

variable (p : TaskPool F) (now : ℕ) (taskId : Hash)
  (tier : GpuTier) (availableMemoryMb : ℕ) (miner : Option Address)

/-- Whether a miner may take a task. -/
def suits (task : InferenceTask) : Bool :=
  let reqs := taskRequirements task.taskType
  let already :=
    match miner, p.redundantAssignments task.taskId with
    | some m, some assigned => decide (m ∈ assigned)
    | _, _ => false
  tierCanRun tier reqs.minTier && decide (reqs.minMemoryMb ≤ availableMemoryMb) && !already

/-- The candidates of `fetch_task_for`. -/
def candidates : List Candidate :=
  (p.queue.zipIdx.filter fun row => p.suits tier availableMemoryMb miner row.1).map fun row =>
    let (tenant, fee) :=
      match p.publicTasks row.1.taskId with
      | some t => (t.submitter, t.maxFee)
      | none => (Address.zero, 0)
    ⟨row.2, tenant, p.quota.priorityFor tenant, fee⟩

/-- The tenant whose turn it is: the next one after the last, by address, or the
first. -/
def nextTenant (last : Option Address) (tenants : List Address) : Option Address :=
  let sorted := tenants.insertionSort (fun a b => byteKey a.bytes ≤ byteKey b.bytes)
  match last with
  | some l => (sorted.find? fun t => byteKey l.bytes < byteKey t.bytes).or sorted.head?
  | none => sorted.head?

/-- The last one of the candidates with the highest fee. -/
def highestFee : List Candidate → Option Candidate
  | [] => none
  | c :: cs => some (cs.foldl (fun best c => if best.fee ≤ c.fee then c else best) c)

/-- The candidate that is fetched, and its tenant. -/
def choose (candidates : List Candidate) : Option (Address × Candidate) := do
  let maxPriority := (candidates.map Candidate.priority).foldl max 0
  let candidates := candidates.filter fun c => c.priority = maxPriority
  let tenant ← nextTenant p.rrLastTenant (candidates.map Candidate.tenant)
  let c ← highestFee (candidates.filter fun c => c.tenant = tenant)
  return (tenant, c)

/-- The queue and the redundant assignments after the task at an index is taken. -/
def take (index : ℕ) (taskId : Hash) (miner : Option Address) : TaskPool F :=
  match p.redundantAssignments taskId with
  | some assigned =>
    let assigned := assigned ++ miner.toList
    let queue := if p.redundancyCount ≤ assigned.length then p.queue.eraseIdx index else p.queue
    { p with
      queue := queue
      redundantAssignments := update p.redundantAssignments taskId (some assigned) }
  | none => { p with queue := p.queue.eraseIdx index }

/-- The status of a public task is set, if there is one. -/
def setStatus (status : PublicTaskStatus) : TaskPool F :=
  match p.publicTasks taskId with
  | some t =>
    { p with publicTasks := update p.publicTasks taskId (some { t with status := status }) }
  | none => p

/-- The best task a miner can run is assigned to it. -/
def fetchTaskFor (now : ℕ) : Option InferenceTask × TaskPool F :=
  match p.choose (p.candidates tier availableMemoryMb miner) with
  | none => (none, p)
  | some (tenant, c) =>
    let p := { p with rrLastTenant := some tenant }
    match p.queue[c.index]? with
    | none => (none, p)
    | some task =>
      let p := p.take c.index task.taskId miner
      let assignment : AssignedTask := ⟨task, miner.getD Address.zero, now⟩
      let p := { p with assigned := update p.assigned task.taskId (some assignment) }
      (some task, p.setStatus task.taskId .assigned)

/-- Several miners may run the task. -/
def markRedundant : TaskPool F :=
  { p with
    redundantAssignments := update p.redundantAssignments taskId
      (some ((p.redundantAssignments taskId).getD [])) }

/-- Drops the queued tasks past their deadline. -/
def pruneExpired : TaskPool F :=
  { p with queue := p.queue.filter fun t => now < t.deadline }

/-! ## Submitting -/

/-- Queues a task if the quota and the pool allow it. -/
def submitPublicTask (R : Rates F) (p : TaskPool F) (submitter : Address) (task : InferenceTask)
    (maxFee now : ℕ) : TaskPool F :=
  { p with
    quota := p.quota.taskStarted R submitter now
    publicTasks := update p.publicTasks task.taskId
      (some ⟨task.taskId, submitter, task, maxFee, .pending, now⟩)
    inputHashIndex := update p.inputHashIndex task.taskType.inputHash (some task.taskId)
    queue := p.queue ++ [task] }

/-- `try_submit_public_task`; `nowMs` is the argument, and `now` the clock. -/
def trySubmitPublicTask (R : Rates F) (p : TaskPool F) (submitter : Address)
    (task : InferenceTask) (maxFee nowMs now : ℕ) : Except (QuotaError F) Hash × TaskPool F :=
  let flops := (taskRequirements task.taskType).estimatedFlops
  match p.quota.admits R submitter flops p.queue.length nowMs with
  | (some e, quota) => (.error e, { p with quota := quota })
  | (none, quota) =>
    (.ok task.taskId, { p with quota := quota }.submitPublicTask R submitter task maxFee now)

/-! ## Finishing -/

/-- What the hook is told of a task that a miner completes. -/
def chargeOf (t : PublicTask) (miner : Address) : Charge :=
  ⟨t.submitter, miner, (taskRequirements t.innerTask.taskType).estimatedFlops, t.maxFee⟩

/-- `complete_public_task`: whether it was open, what the hook is told, and the
pool. -/
def completePublicTask (result : ResultStorage) (miner : Address) (executionTimeMs now : ℕ) :
    Option Charge × TaskPool F :=
  let p := { p with assigned := update p.assigned taskId none }
  match p.publicTasks taskId with
  | none => (none, p)
  | some t =>
    let charge := chargeOf t miner
    let retainUntil := (now + completedRetentionMs) % 2 ^ 64
    let done := { t with status := .completed result miner executionTimeMs }
    (some charge, { p with
      publicTasks := update p.publicTasks taskId none
      quota := p.quota.taskFinished t.submitter
      cost := p.cost.record charge.tenant charge.miner charge.flops charge.feeWei
      completedTasks := update p.completedTasks taskId (some (done, retainUntil)) })

/-- A result for the open task with these inputs. -/
def completePublicTaskByInputHash (inputHash : Hash) (result : ResultStorage) (miner : Address)
    (executionTimeMs now : ℕ) : Option (Hash × Charge) × TaskPool F :=
  match p.inputHashIndex inputHash with
  | some taskId =>
    let (charge, p) := p.completePublicTask taskId result miner executionTimeMs now
    (charge.map (taskId, ·), p)
  | none => (none, p)

/-- The turn of one stale assignment. -/
def requeue (p : TaskPool F) (taskId : Hash) : TaskPool F :=
  match p.assigned taskId with
  | none => p
  | some a =>
    let p := { p with assigned := update p.assigned taskId none }
    if now < a.task.deadline then
      let p :=
        match p.publicTasks taskId with
        | some t => if t.status = PublicTaskStatus.assigned then p.setStatus taskId .pending else p
        | none => p
      { p with queue := p.queue ++ [a.task] }
    else p

/-- Whether the assignment of an id is stale. -/
def stale : Bool :=
  match p.assigned taskId with
  | some a => decide (assignmentTimeoutMs < now - a.assignedAt)
  | none => false

/-- `reassign_stale_tasks`, which walks over the assignments in some order. -/
def reassignStaleTasks (order : List Hash) : TaskPool F :=
  (order.filter (p.stale now)).foldl (requeue now) p

/-- Whether a public task is to expire. -/
def overdue : Bool :=
  match p.publicTasks taskId with
  | some t => decide ((t.status = .pending ∨ t.status = .assigned) ∧ t.innerTask.deadline < now)
  | none => false

/-- The turn of one overdue task: the task that is returned, and the pool. -/
def expire (p : TaskPool F) (taskId : Hash) : Option PublicTask × TaskPool F :=
  match p.publicTasks taskId with
  | none => (none, p)
  | some t =>
    let expired := { t with status := .expired }
    (some expired, { p with
      publicTasks := update p.publicTasks taskId none
      inputHashIndex := update p.inputHashIndex t.innerTask.taskType.inputHash none
      assigned := update p.assigned taskId none
      quota := p.quota.taskFinished t.submitter
      completedTasks := update p.completedTasks taskId
        (some (expired, (now + completedRetentionMs) % 2 ^ 64)) })

/-- The turns of some overdue tasks. -/
def expireAll (now : ℕ) : TaskPool F → List Hash → List PublicTask × TaskPool F
  | p, [] => ([], p)
  | p, taskId :: ids =>
    let (first, p) := p.expire now taskId
    let (rest, p) := expireAll now p ids
    (first.toList ++ rest, p)

/-- `prune_expired_public`, which walks over the public tasks in some order. -/
def pruneExpiredPublic (order : List Hash) : List PublicTask × TaskPool F :=
  expireAll now p (order.filter (p.overdue now))

/-- Drops the finished tasks kept long enough. -/
def pruneRetainedCompleted : TaskPool F :=
  { p with
    completedTasks := fun id => (p.completedTasks id).filter fun row => decide (now < row.2) }

end TaskPool

/-! ## What the operations change -/

namespace TaskPool

variable {F : Type} {p : TaskPool F} {taskId : Hash}

/-- The tables that only submissions and completions change. -/
structure SameBooks (p p' : TaskPool F) : Prop where
  inputHashIndex : p'.inputHashIndex = p.inputHashIndex
  completedTasks : p'.completedTasks = p.completedTasks
  quota : p'.quota = p.quota
  cost : p'.cost = p.cost

/-- A status is set in the table of public tasks and nowhere else. -/
theorem setStatus_eq (p : TaskPool F) (taskId : Hash) (status : PublicTaskStatus) :
    p.setStatus taskId status =
      { p with
        publicTasks := update p.publicTasks taskId
          ((p.publicTasks taskId).map fun t => { t with status := status }) } := by
  unfold setStatus
  cases h : p.publicTasks taskId with
  | some t => rfl
  | none =>
    have hsame : update p.publicTasks taskId none = p.publicTasks := by
      rw [← h, update_eq_self]
    rw [Option.map_none, hsame]

/-- **What a fetch does** when it returns a task: the task was in the queue, all
the other tasks stay there, it is assigned, and its status says so. -/
structure Fetches (p p' : TaskPool F) (task : InferenceTask) (miner : Address) (now : ℕ) : Prop where
  mem : task ∈ p.queue
  sublist : p'.queue.Sublist p.queue
  others : ∀ t ∈ p.queue, t ≠ task → t ∈ p'.queue
  assigned : p'.assigned = update p.assigned task.taskId (some ⟨task, miner, now⟩)
  publicTasks : p'.publicTasks = update p.publicTasks task.taskId
    ((p.publicTasks task.taskId).map fun t => { t with status := .assigned })
  books : SameBooks p p'

theorem mem_eraseIdx_of_ne {l : List InferenceTask} {i : ℕ} {t u : InferenceTask}
    (hi : l[i]? = some u) (ht : t ∈ l) (hne : t ≠ u) : t ∈ l.eraseIdx i := by
  rw [List.mem_eraseIdx_iff_getElem?]
  obtain ⟨j, hj⟩ := List.getElem?_of_mem ht
  refine ⟨j, ?_, hj⟩
  rintro rfl
  rw [hj] at hi
  exact hne (Option.some_inj.mp hi)

theorem fetchTaskFor_cases (p : TaskPool F) (tier : GpuTier) (availableMemoryMb : ℕ)
    (miner : Option Address) (now : ℕ) :
    (∃ last, p.fetchTaskFor tier availableMemoryMb miner now =
        (none, { p with rrLastTenant := last })) ∨
      ∃ task p', p.fetchTaskFor tier availableMemoryMb miner now = (some task, p') ∧
        Fetches p p' task (miner.getD Address.zero) now := by
  unfold fetchTaskFor
  cases p.choose (p.candidates tier availableMemoryMb miner) with
  | none => exact .inl ⟨p.rrLastTenant, rfl⟩
  | some row =>
    obtain ⟨tenant, c⟩ := row
    dsimp only
    cases hi : p.queue[c.index]? with
    | none => exact .inl ⟨some tenant, rfl⟩
    | some task =>
      refine .inr ⟨task, _, rfl, ?_⟩
      rw [setStatus_eq]
      unfold take
      cases p.redundantAssignments task.taskId with
      | none =>
        exact ⟨List.mem_of_getElem? hi, List.eraseIdx_sublist _ _,
          fun t ht hne => mem_eraseIdx_of_ne hi ht hne, rfl, rfl, ⟨rfl, rfl, rfl, rfl⟩⟩
      | some assigned =>
        dsimp only
        split_ifs
        · exact ⟨List.mem_of_getElem? hi, List.eraseIdx_sublist _ _,
            fun t ht hne => mem_eraseIdx_of_ne hi ht hne, rfl, rfl, ⟨rfl, rfl, rfl, rfl⟩⟩
        · exact ⟨List.mem_of_getElem? hi, List.Sublist.refl _, fun t ht _ => ht, rfl, rfl,
            ⟨rfl, rfl, rfl, rfl⟩⟩

variable {now : ℕ} {t : PublicTask}

/-- What the turn of an assigned task does: the assignment goes, and if the
deadline is ahead the task is queued again and a public task that was assigned is
pending. -/
theorem requeue_eq {a : AssignedTask} (ha : p.assigned taskId = some a)
    (hdeadline : now < a.task.deadline) :
    requeue now p taskId =
      { p with
        assigned := update p.assigned taskId none
        publicTasks := update p.publicTasks taskId
          ((p.publicTasks taskId).map fun t =>
            if t.status = .assigned then { t with status := .pending } else t)
        queue := p.queue ++ [a.task] } := by
  unfold requeue
  rw [ha]
  dsimp only
  rw [if_pos hdeadline]
  cases ht : p.publicTasks taskId with
  | none =>
    have hsame : update p.publicTasks taskId none = p.publicTasks := by
      rw [← ht, update_eq_self]
    rw [Option.map_none, hsame]
  | some t =>
    dsimp only
    rw [Option.map_some]
    split_ifs with hstatus
    · rw [setStatus_eq, ht, Option.map_some]
    · rw [← ht, update_eq_self]

theorem completePublicTask_of_none (ht : p.publicTasks taskId = none) (result : ResultStorage)
    (miner : Address) (executionTimeMs now : ℕ) :
    p.completePublicTask taskId result miner executionTimeMs now =
      (none, { p with assigned := update p.assigned taskId none }) := by
  unfold completePublicTask
  dsimp only
  rw [ht]

theorem completePublicTask_of_some (ht : p.publicTasks taskId = some t) (result : ResultStorage)
    (miner : Address) (executionTimeMs now : ℕ) :
    p.completePublicTask taskId result miner executionTimeMs now =
      (some (chargeOf t miner), { p with
        assigned := update p.assigned taskId none
        publicTasks := update p.publicTasks taskId none
        quota := p.quota.taskFinished t.submitter
        cost := p.cost.record t.submitter miner
          (taskRequirements t.innerTask.taskType).estimatedFlops t.maxFee
        completedTasks := update p.completedTasks taskId
          (some ({ t with status := .completed result miner executionTimeMs },
            (now + completedRetentionMs) % 2 ^ 64)) }) := by
  unfold completePublicTask
  dsimp only
  rw [ht]
  rfl

theorem expire_of_none (ht : p.publicTasks taskId = none) : p.expire now taskId = (none, p) := by
  unfold expire
  rw [ht]

theorem expire_of_some (ht : p.publicTasks taskId = some t) :
    p.expire now taskId =
      (some { t with status := .expired }, { p with
        publicTasks := update p.publicTasks taskId none
        inputHashIndex := update p.inputHashIndex t.innerTask.taskType.inputHash none
        assigned := update p.assigned taskId none
        quota := p.quota.taskFinished t.submitter
        completedTasks := update p.completedTasks taskId
          (some ({ t with status := .expired }, (now + completedRetentionMs) % 2 ^ 64)) }) := by
  unfold expire
  rw [ht]

end TaskPool

/-! ## Runs -/

/-- An operation of the pool. -/
inductive Op
  | submit (submitter : Address) (task : InferenceTask) (maxFee : ℕ)
  | trySubmit (submitter : Address) (task : InferenceTask) (maxFee nowMs : ℕ)
  | markRedundant (taskId : Hash)
  | fetch (tier : GpuTier) (availableMemoryMb : ℕ) (miner : Option Address)
  | complete (taskId : Hash) (result : ResultStorage) (miner : Address) (executionTimeMs : ℕ)
  | completeByInputHash (inputHash : Hash) (result : ResultStorage) (miner : Address)
      (executionTimeMs : ℕ)
  | reassignStale (order : List Hash)
  | pruneExpired
  | pruneExpiredPublic (order : List Hash)
  | pruneRetained
deriving DecidableEq

/-- The task that an operation submits. -/
def Op.submission : Op → Option Hash
  | .submit _ task _ => some task.taskId
  | .trySubmit _ task _ _ => some task.taskId
  | _ => none

/-- An operation at a time of the clock. -/
structure Timed where
  now : ℕ
  op : Op
deriving DecidableEq

/-- What an operation did: a task was submitted, returned by a fetch, charged when
it was completed, or returned for a refund when it expired. -/
inductive PoolEvent
  | submitted (taskId : Hash) (tenant : Address)
  | fetched (taskId : Hash)
  | charged (taskId : Hash) (charge : Charge)
  | refunded (taskId : Hash) (tenant : Address)
deriving DecidableEq

namespace TaskPool

variable {F : Type} (R : Rates F) (p : TaskPool F) (now : ℕ)

/-- An operation, and what it did. -/
def perform : Op → TaskPool F × List PoolEvent
  | .submit submitter task maxFee =>
    (p.submitPublicTask R submitter task maxFee now, [.submitted task.taskId submitter])
  | .trySubmit submitter task maxFee nowMs =>
    match p.trySubmitPublicTask R submitter task maxFee nowMs now with
    | (.ok taskId, p) => (p, [.submitted taskId submitter])
    | (.error _, p) => (p, [])
  | .markRedundant taskId => (p.markRedundant taskId, [])
  | .fetch tier availableMemoryMb miner =>
    let (task, p) := p.fetchTaskFor tier availableMemoryMb miner now
    (p, task.toList.map fun t => .fetched t.taskId)
  | .complete taskId result miner executionTimeMs =>
    let (charge, p) := p.completePublicTask taskId result miner executionTimeMs now
    (p, charge.toList.map fun c => .charged taskId c)
  | .completeByInputHash inputHash result miner executionTimeMs =>
    let (row, p) := p.completePublicTaskByInputHash inputHash result miner executionTimeMs now
    (p, row.toList.map fun r => .charged r.1 r.2)
  | .reassignStale order => (p.reassignStaleTasks now order, [])
  | .pruneExpired => (p.pruneExpired now, [])
  | .pruneExpiredPublic order =>
    let (expired, p) := p.pruneExpiredPublic now order
    (p, expired.map fun t => .refunded t.taskId t.submitter)
  | .pruneRetained => (p.pruneRetainedCompleted now, [])

/-- A completion by the input hash is a completion of the task that the index has
for it, or nothing. -/
theorem perform_completeByInputHash (inputHash : Hash) (result : ResultStorage) (miner : Address)
    (ms : ℕ) :
    p.perform R now (.completeByInputHash inputHash result miner ms) =
      match p.inputHashIndex inputHash with
      | some taskId => p.perform R now (.complete taskId result miner ms)
      | none => (p, []) := by
  simp only [perform, completePublicTaskByInputHash]
  cases p.inputHashIndex inputHash with
  | none => rfl
  | some taskId =>
    dsimp only
    cases (p.completePublicTask taskId result miner ms now).1 <;> rfl

/-! ## What an operation can do -/

/-- A submission that asks for admission is rejected, or is a submission with room for
it. Asking changes no configuration and no number of tasks in flight. -/
theorem trySubmitPublicTask_cases (submitter : Address) (task : InferenceTask)
    (maxFee nowMs now : ℕ) :
    ∃ quota : QuotaEnforcer F, quota.config = p.quota.config ∧
      (∀ u, quota.inflightFor u = p.quota.inflightFor u) ∧
      ((∃ e, p.trySubmitPublicTask R submitter task maxFee nowMs now =
          (.error e, { p with quota := quota })) ∨
        p.trySubmitPublicTask R submitter task maxFee nowMs now =
            (.ok task.taskId, { p with quota := quota }.submitPublicTask R submitter task maxFee now) ∧
          ∀ c ∈ p.quota.config, 0 < (c.tierFor submitter).maxInflight →
            p.quota.inflightFor submitter < (c.tierFor submitter).maxInflight) := by
  obtain ⟨hconfig, hinFlight, hroom⟩ := QuotaEnforcer.admits_spec R p.quota submitter
    (taskRequirements task.taskType).estimatedFlops p.queue.length nowMs
  unfold trySubmitPublicTask
  dsimp only
  generalize p.quota.admits R submitter _ p.queue.length nowMs = answer at *
  obtain ⟨_ | e, quota⟩ := answer
  · exact ⟨quota, hconfig, hinFlight, .inr ⟨rfl, hroom rfl⟩⟩
  · exact ⟨quota, hconfig, hinFlight, .inl ⟨e, rfl⟩⟩

/-- The same open tasks of the same tenants, and the same accounts. -/
structure Quiet (p p' : TaskPool F) : Prop where
  kept : ∀ id, (p'.publicTasks id).map PublicTask.kept = (p.publicTasks id).map PublicTask.kept
  inputHashIndex : p'.inputHashIndex = p.inputHashIndex
  config : p'.quota.config = p.quota.config
  inFlight : ∀ tenant, p'.quota.inflightFor tenant = p.quota.inflightFor tenant
  cost : p'.cost = p.cost

namespace Quiet

variable {p p' p'' : TaskPool F}

/-- The table of open tasks and the accounts are the same ones. -/
theorem of_eq (hpublic : p'.publicTasks = p.publicTasks)
    (hindex : p'.inputHashIndex = p.inputHashIndex) (hquota : p'.quota = p.quota)
    (hcost : p'.cost = p.cost) : Quiet p p' :=
  ⟨fun _ => by rw [hpublic], hindex, by rw [hquota], fun _ => by rw [hquota], hcost⟩

theorem trans (h : Quiet p p') (h' : Quiet p' p'') : Quiet p p'' :=
  ⟨fun id => (h'.kept id).trans (h.kept id), h'.inputHashIndex.trans h.inputHashIndex,
    h'.config.trans h.config, fun u => (h'.inFlight u).trans (h.inFlight u), h'.cost.trans h.cost⟩

/-- An entry is replaced by one for the same task. -/
theorem of_update {taskId : Hash} {change : PublicTask → PublicTask}
    (hpublic : p'.publicTasks = update p.publicTasks taskId ((p.publicTasks taskId).map change))
    (hchange : ∀ t, (change t).kept = t.kept) (hbooks : SameBooks p p') : Quiet p p' := by
  refine ⟨fun id => ?_, hbooks.inputHashIndex, by rw [hbooks.quota], fun _ => by rw [hbooks.quota],
    hbooks.cost⟩
  rw [hpublic]
  obtain rfl | hid := eq_or_ne id taskId
  · rw [update_self, Option.map_map]
    exact congrArg (Option.map · _) (funext hchange)
  · rw [update_of_ne hid]

theorem requeue (p : TaskPool F) (now : ℕ) (taskId : Hash) : Quiet p (requeue now p taskId) := by
  cases ha : p.assigned taskId with
  | none =>
    unfold TaskPool.requeue
    rw [ha]
    exact of_eq rfl rfl rfl rfl
  | some a =>
    by_cases hdeadline : now < a.task.deadline
    · rw [requeue_eq ha hdeadline]
      exact of_update rfl (fun t => by split_ifs <;> rfl) ⟨rfl, rfl, rfl, rfl⟩
    · unfold TaskPool.requeue
      rw [ha]
      dsimp only
      rw [if_neg hdeadline]
      exact of_eq rfl rfl rfl rfl

theorem requeues (p : TaskPool F) (now : ℕ) (ids : List Hash) :
    Quiet p (ids.foldl (TaskPool.requeue now) p) := by
  induction ids generalizing p with
  | nil => exact of_eq rfl rfl rfl rfl
  | cons id ids ih => exact (requeue p now id).trans (ih _)

end Quiet

/-- **What an operation does that submits nothing**: quiet changes, of which a fetch
reports its task, and open tasks that are charged or refunded, one after the other. -/
inductive Settles : TaskPool F → List PoolEvent → TaskPool F → Prop
  | quiet {p p' : TaskPool F} (hq : Quiet p p') (ids : List Hash) :
      Settles p (ids.map .fetched) p'
  | charge {p : TaskPool F} {id : Hash} {t : PublicTask} (ht : p.publicTasks id = some t)
      (result : ResultStorage) (miner : Address) (ms now : ℕ) :
      Settles p [.charged id (chargeOf t miner)] (p.completePublicTask id result miner ms now).2
  | refund {p : TaskPool F} {id : Hash} {t : PublicTask} (ht : p.publicTasks id = some t) (now : ℕ) :
      Settles p [.refunded t.taskId t.submitter] (p.expire now id).2
  | trans {p p' p'' : TaskPool F} {l l' : List PoolEvent} (h : Settles p l p')
      (h' : Settles p' l' p'') : Settles p (l ++ l') p''

theorem settles_expireAll (p : TaskPool F) (now : ℕ) (ids : List Hash) :
    Settles p ((expireAll now p ids).1.map fun t => .refunded t.taskId t.submitter)
      (expireAll now p ids).2 := by
  induction ids generalizing p with
  | nil => exact .quiet (.of_eq rfl rfl rfl rfl) []
  | cons id ids ih =>
    unfold expireAll
    cases ht : p.publicTasks id with
    | none =>
      rw [expire_of_none ht]
      exact ih p
    | some t =>
      have hid := ih (p.expire now id).2
      have hturn := Settles.refund ht now
      rw [expire_of_some ht] at hid hturn ⊢
      exact hturn.trans hid

/-- An operation that submits nothing settles tasks. -/
theorem perform_settles (R : Rates F) (p : TaskPool F) (now : ℕ) {op : Op}
    (hop : op.submission = none) : Settles p (p.perform R now op).2 (p.perform R now op).1 := by
  have hsame {p' : TaskPool F} (hq : Quiet p p') : Settles p [] p' := .quiet hq []
  have hcomplete (id : Hash) (result : ResultStorage) (miner : Address) (ms : ℕ) :
      Settles p (p.perform R now (.complete id result miner ms)).2
        (p.perform R now (.complete id result miner ms)).1 := by
    unfold perform
    dsimp only
    cases ht : p.publicTasks id with
    | none =>
      rw [completePublicTask_of_none ht]
      exact hsame (.of_eq rfl rfl rfl rfl)
    | some t =>
      have hcharge := Settles.charge ht result miner ms now
      rw [completePublicTask_of_some ht] at hcharge ⊢
      exact hcharge
  cases op with
  | submit | trySubmit => cases hop
  | fetch tier memory miner =>
    unfold perform
    dsimp only
    obtain ⟨last, hf⟩ | ⟨task, p', hf, hfetch⟩ := p.fetchTaskFor_cases tier memory miner now
    · rw [hf]
      exact hsame (.of_eq rfl rfl rfl rfl)
    · rw [hf]
      exact .quiet (.of_update hfetch.publicTasks (fun _ => rfl) hfetch.books) [task.taskId]
  | complete id result miner ms => exact hcomplete id result miner ms
  | completeByInputHash hash result miner ms =>
    rw [perform_completeByInputHash]
    cases p.inputHashIndex hash with
    | none => exact hsame (.of_eq rfl rfl rfl rfl)
    | some id => exact hcomplete id result miner ms
  | reassignStale order => exact .quiet (.requeues p now _) []
  | pruneExpiredPublic order => exact settles_expireAll p now _
  | markRedundant id | pruneExpired | pruneRetained => exact hsame (.of_eq rfl rfl rfl rfl)

end TaskPool

/-- The pool and its history after an operation. -/
def poolStep {F : Type} (R : Rates F) (state : TaskPool F × List PoolEvent) (e : Timed) :
    TaskPool F × List PoolEvent :=
  let (p, events) := state.1.perform R e.now e.op
  (p, state.2 ++ events)

end Qfc.Ai
