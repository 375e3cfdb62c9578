import QfcCore.Ai.TaskPool
import QfcCore.Lib.History
import QfcCore.Lib.Table

/-!
# Coherence of the task pool

A task should be queued at most once, an assigned one should have an assignment
and a pending one a place in the queue, and no fetch should return a task that is
completed or expired (`Coherent`).

The operations do not see to it. Neither a completion nor an expiry takes the task
out of the queue, where a redundant task or one with a stale assignment may still
stand, and a fetch looks at no deadline; a stale assignment is queued again even
if the task never left the queue; `prune_expired` drops tasks that stay pending,
and an assignment past its deadline is dropped while its task stays assigned. In
the runs without such calls (`Careful`) the pool is coherent (`pool_coherent`).
-/

namespace Qfc.Ai

open History Function List Option TaskPool Table

/-- The ids in the queue. -/
def TaskPool.queueIds {F : Type} (p : TaskPool F) : List Hash := p.queue.map InferenceTask.taskId

/-- The tasks that were submitted. -/
def submittedIds (history : List PoolEvent) : List Hash :=
  history.filterMap fun
    | .submitted taskId _ => some taskId
    | _ => none

/-- The tasks that were completed or expired. -/
def finishedIds (history : List PoolEvent) : List Hash :=
  history.filterMap fun
    | .charged taskId _ => some taskId
    | .refunded taskId _ => some taskId
    | _ => none

/-- A fetch returns a task that is not finished. -/
def ServesOpen (before : List PoolEvent) : PoolEvent → Prop
  | .fetched taskId => taskId ∉ finishedIds before
  | _ => True

/-- **The pool is coherent.** -/
structure Coherent {F : Type} (p : TaskPool F) (history : List PoolEvent) : Prop where
  once : p.queueIds.Nodup
  served : Justified ServesOpen history
  assigned : ∀ id, ∀ t ∈ p.publicTasks id, t.status = .assigned → (p.assigned id).isSome = true
  queued : ∀ id, ∀ t ∈ p.publicTasks id, t.status = .pending → id ∈ p.queueIds

/-- **An operation that the pool handles well**: a task that is fetched is not
past its deadline; a task that is completed is not queued; a stale assignment
is not queued and its deadline is ahead; and no pending task is dropped from the
queue. -/
def Careful {F : Type} (state : TaskPool F × List PoolEvent) (e : Timed) : Prop :=
  match e.op with
  | .fetch tier memory miner => ∀ t ∈ (state.1.fetchTaskFor tier memory miner e.now).1,
      e.now ≤ t.deadline
  | .complete taskId _ _ _ => state.1.publicTasks taskId ≠ none → taskId ∉ state.1.queueIds
  | .completeByInputHash inputHash _ _ _ => ∀ taskId ∈ state.1.inputHashIndex inputHash,
      state.1.publicTasks taskId ≠ none → taskId ∉ state.1.queueIds
  | .reassignStale order => ∀ taskId ∈ order, state.1.stale e.now taskId = true →
      taskId ∉ state.1.queueIds ∧ ∀ a ∈ state.1.assigned taskId, e.now < a.task.deadline
  | .pruneExpired => ∀ t ∈ state.1.queue, t.deadline ≤ e.now →
      ∀ pt ∈ state.1.publicTasks t.taskId, pt.status ≠ .pending
  | _ => True

instance {F : Type} (state : TaskPool F × List PoolEvent) : DecidablePred (Careful state)
  | ⟨_, op⟩ => by cases op <;> dsimp only [Careful] <;> infer_instance

/-! ## The invariant -/

/-- **What careful runs keep**, up to a time of the clock. A task in the queue is
an open one, or one that has expired before. -/
structure Kept {F : Type} (p : TaskPool F) (history : List PoolEvent) (clock : ℕ) : Prop where
  coherent : Coherent p history
  entry : ∀ t ∈ p.queue, t.taskId ∈ submittedIds history ∧
    ((∃ pt ∈ p.publicTasks t.taskId, pt.innerTask = t) ∨
      p.publicTasks t.taskId = none ∧ t.deadline < clock)
  assignment : ∀ id, ∀ a ∈ p.assigned id, a.task.taskId = id ∧
    ∃ pt ∈ p.publicTasks id, pt.innerTask = a.task
  isOpen : ∀ id, ∀ pt ∈ p.publicTasks id, pt.taskId = id ∧ pt.innerTask.taskId = id ∧
    id ∈ submittedIds history ∧ id ∉ finishedIds history
  finished : finishedIds history ⊆ submittedIds history

section Histories

variable {h l : List PoolEvent}

@[simp] theorem submittedIds_append : submittedIds (h ++ l) = submittedIds h ++ submittedIds l :=
  filterMap_append

@[simp] theorem finishedIds_append : finishedIds (h ++ l) = finishedIds h ++ finishedIds l :=
  filterMap_append

end Histories

variable {e : Timed}

namespace Kept

variable {F : Type} {R : Rates F} {p p' : TaskPool F} {h : List PoolEvent} {clock now : ℕ}
  {taskId : Hash}

theorem mono (hk : Kept p h clock) (hle : clock ≤ now) : Kept p h now :=
  { hk with
    entry := fun t ht => ⟨(hk.entry t ht).1,
      (hk.entry t ht).2.imp_right fun hexp => ⟨hexp.1, hexp.2.trans_le hle⟩⟩ }

theorem new (config : Option (QuotaConfig F)) : Kept (new config) [] 0 where
  coherent := ⟨nodup_nil, justified_nil, fun _ _ ht => (by cases ht),
    fun _ _ ht => (by cases ht)⟩
  entry := nofun
  assignment := nofun
  isOpen := nofun
  finished := nil_subset _

theorem congr (hk : Kept p h clock) (hqueue : p'.queue = p.queue)
    (hpublic : p'.publicTasks = p.publicTasks) (hassigned : p'.assigned = p.assigned) :
    Kept p' h clock := by
  have hids : p'.queueIds = p.queueIds := congrArg (map _) hqueue
  refine ⟨⟨hids ▸ hk.coherent.once, hk.coherent.served, ?_, ?_⟩, ?_, ?_, ?_, hk.finished⟩
  · rw [hpublic, hassigned]
    exact hk.coherent.assigned
  · rw [hpublic, hids]
    exact hk.coherent.queued
  · rw [hpublic, hqueue]
    exact hk.entry
  · rw [hpublic, hassigned]
    exact hk.assignment
  · rw [hpublic]
    exact hk.isOpen

theorem queueIds_subset (hk : Kept p h clock) : p.queueIds ⊆ submittedIds h := by
  intro id hid
  obtain ⟨t, ht, rfl⟩ := mem_map.mp hid
  exact (hk.entry t ht).1

/-- What the invariant says about one task. -/
structure At (p : TaskPool F) (history : List PoolEvent) (clock : ℕ) (id : Hash) : Prop where
  assigned : ∀ t ∈ p.publicTasks id, t.status = .assigned → (p.assigned id).isSome = true
  queued : ∀ t ∈ p.publicTasks id, t.status = .pending → id ∈ p.queueIds
  entry : ∀ t ∈ p.queue, t.taskId = id → id ∈ submittedIds history ∧
    ((∃ pt ∈ p.publicTasks id, pt.innerTask = t) ∨ p.publicTasks id = none ∧ t.deadline < clock)
  assignment : ∀ a ∈ p.assigned id, a.task.taskId = id ∧
    ∃ pt ∈ p.publicTasks id, pt.innerTask = a.task
  isOpen : ∀ pt ∈ p.publicTasks id, pt.taskId = id ∧ pt.innerTask.taskId = id ∧
    id ∈ submittedIds history ∧ id ∉ finishedIds history
  finished : id ∈ finishedIds history → id ∈ submittedIds history

/-- An operation on one task has to see to that task only. -/
theorem change {h' : List PoolEvent} (hk : Kept p h clock) (id : Hash)
    (hpublic : ∀ id' ≠ id, p'.publicTasks id' = p.publicTasks id')
    (hassigned : ∀ id' ≠ id, p'.assigned id' = p.assigned id')
    (hqueue : ∀ t, t.taskId ≠ id → (t ∈ p'.queue ↔ t ∈ p.queue))
    (hsubmitted : ∀ id' ≠ id, id' ∈ submittedIds h' ↔ id' ∈ submittedIds h)
    (hfinished : ∀ id' ≠ id, id' ∈ finishedIds h' ↔ id' ∈ finishedIds h)
    (honce : p'.queueIds.Nodup) (hserved : Justified ServesOpen h') (hself : At p' h' clock id) :
    Kept p' h' clock := by
  have hat : ∀ id', At p' h' clock id' := by
    intro id'
    obtain rfl | hid := eq_or_ne id' id
    · exact hself
    · refine ⟨?_, ?_, ?_, ?_, ?_, ?_⟩ <;>
        simp [hpublic id' hid, hassigned id' hid, hsubmitted id' hid, hfinished id' hid]
      · exact hk.coherent.assigned id'
      · intro t ht hs
        obtain ⟨u, hu, rfl⟩ := mem_map.mp (hk.coherent.queued id' t ht hs)
        exact mem_map_of_mem ((hqueue u hid).mpr hu)
      · rintro t ht rfl
        exact hk.entry t ((hqueue t hid).mp ht)
      · exact hk.assignment id'
      · exact hk.isOpen id'
      · exact @hk.finished id'
  exact ⟨⟨honce, hserved, fun id' => (hat id').assigned, fun id' => (hat id').queued⟩,
    fun t ht => (hat _).entry t ht rfl, fun id' => (hat id').assignment,
    fun id' => (hat id').isOpen, fun id' => (hat id').finished⟩

theorem submit (hk : Kept p h clock) (submitter : Address) (task : InferenceTask) (maxFee : ℕ)
    (hnew : task.taskId ∉ submittedIds h) :
    Kept (p.submitPublicTask R submitter task maxFee now) (h ++ [.submitted task.taskId submitter])
      clock := by
  have hsubmitted : submittedIds (h ++ [.submitted task.taskId submitter]) =
      submittedIds h ++ [task.taskId] := submittedIds_append
  have hfinished : finishedIds (h ++ [.submitted task.taskId submitter]) = finishedIds h :=
    finishedIds_append.trans (append_nil _)
  have hids : (p.submitPublicTask R submitter task maxFee now).queueIds =
      p.queueIds ++ [task.taskId] := map_append
  have hmem : task.taskId ∈ submittedIds h ++ [task.taskId] :=
    mem_append_right _ (mem_singleton_self _)
  have hpublic : (p.submitPublicTask R submitter task maxFee now).publicTasks task.taskId =
      some ⟨task.taskId, submitter, task, maxFee, .pending, now⟩ := update_self _ _ _
  refine hk.change task.taskId (fun _ hid => update_of_ne hid _ _) (fun _ _ => rfl)
    (fun t ht => ?_) (fun id hid => ?_) (fun _ _ => by rw [hfinished]) ?_
    (justified_concat.mpr ⟨hk.coherent.served, trivial⟩) ?_
  · exact mem_append.trans (or_iff_left fun hmem => ht (mem_singleton.mp hmem ▸ rfl))
  · rw [hsubmitted, mem_append, mem_singleton, or_iff_left hid]
  · rw [hids, nodup_append']
    exact ⟨hk.coherent.once, nodup_singleton _,
      disjoint_singleton.mpr fun hid => hnew (hk.queueIds_subset hid)⟩
  · constructor <;> simp only [hpublic, hsubmitted, hfinished, mem_some_iff, forall_eq']
    · exact nofun
    · exact fun _ => hids ▸ mem_append_right _ (mem_singleton_self _)
    · intro t ht heq
      obtain ht | ht := mem_append.mp ht
      · exact absurd (heq ▸ (hk.entry t ht).1) hnew
      · exact ⟨hmem, .inl ⟨_, rfl, (mem_singleton.mp ht).symm⟩⟩
    · intro a ha
      obtain ⟨-, pt, hpt, -⟩ := hk.assignment _ a ha
      exact absurd (hk.isOpen _ pt hpt).2.2.1 hnew
    · exact ⟨trivial, trivial, hmem, fun hid => hnew (hk.finished hid)⟩
    · exact fun _ => hmem

/-- A task is fetched that is not past its deadline. -/
theorem fetch {task : InferenceTask} {miner : Address} (hk : Kept p h now)
    (hf : Fetches p p' task miner now) (hdeadline : now ≤ task.deadline) :
    Kept p' (h ++ [.fetched task.taskId]) now := by
  have hsubmitted : submittedIds (h ++ [.fetched task.taskId]) = submittedIds h :=
    submittedIds_append.trans (append_nil _)
  have hfinished : finishedIds (h ++ [.fetched task.taskId]) = finishedIds h :=
    finishedIds_append.trans (append_nil _)
  obtain ⟨pt, hpt, hinner⟩ := (hk.entry task hf.mem).2.resolve_right
    fun hexp => absurd hexp.2 (not_lt.mpr hdeadline)
  have hpublic : p'.publicTasks task.taskId = some { pt with status := .assigned } := by
    rw [hf.publicTasks, update_self, hpt, map_some]
  have hassigned : p'.assigned task.taskId = some ⟨task, miner, now⟩ := by
    rw [hf.assigned, update_self]
  refine hk.change task.taskId (fun _ hid => hf.publicTasks ▸ update_of_ne hid _ _)
    (fun _ hid => hf.assigned ▸ update_of_ne hid _ _)
    (fun t ht => ⟨fun hmem => hf.sublist.subset hmem, fun hmem => hf.others t hmem fun heq =>
      ht (heq ▸ rfl)⟩) (fun _ _ => by rw [hsubmitted]) (fun _ _ => by rw [hfinished])
    (hk.coherent.once.sublist (hf.sublist.map _))
    (justified_concat.mpr ⟨hk.coherent.served, (hk.isOpen _ pt hpt).2.2.2⟩) ?_
  constructor <;> simp only [hpublic, hassigned, hsubmitted, hfinished, mem_some_iff, forall_eq']
  · exact fun _ => rfl
  · exact nofun
  · intro t ht heq
    obtain ⟨q, hq, hu⟩ := (hk.entry t (hf.sublist.subset ht)).2.resolve_right
      fun hexp => nomatch (heq ▸ hexp.1).symm.trans hpt
    rw [heq, mem_def, hpt, some_inj] at hq
    exact ⟨heq ▸ (hk.entry t (hf.sublist.subset ht)).1, .inl ⟨_, rfl, hq ▸ hu⟩⟩
  · exact ⟨trivial, _, rfl, hinner⟩
  · exact hk.isOpen _ pt hpt
  · exact @hk.finished _

/-- The task of an id leaves the tables, when it is not queued or past its
deadline. -/
theorem finish {t : PublicTask} {e : PoolEvent} (hk : Kept p h clock)
    (ht : p.publicTasks taskId = some t)
    (hqueue : taskId ∉ p.queueIds ∨ t.innerTask.deadline < clock)
    (hpublic : p'.publicTasks = update p.publicTasks taskId none)
    (hassigned : p'.assigned = update p.assigned taskId none)
    (hsame : p'.queue = p.queue) (hsubmitted : submittedIds (h ++ [e]) = submittedIds h)
    (hfinished : finishedIds (h ++ [e]) = finishedIds h ++ [taskId]) (he : ServesOpen h e) :
    Kept p' (h ++ [e]) clock := by
  have hids : p'.queueIds = p.queueIds := congrArg (map _) hsame
  have hnone : p'.publicTasks taskId = none := by rw [hpublic, update_self]
  refine hk.change taskId (fun _ hid => hpublic ▸ update_of_ne hid _ _)
    (fun _ hid => hassigned ▸ update_of_ne hid _ _) (fun _ _ => by rw [hsame])
    (fun _ _ => by rw [hsubmitted]) (fun id hid => ?_) (hids ▸ hk.coherent.once)
    (justified_concat.mpr ⟨hk.coherent.served, he⟩) ?_
  · rw [hfinished, mem_append, mem_singleton, or_iff_left hid]
  · have hsub := (hk.isOpen taskId t ht).2.2.1
    refine ⟨?_, ?_, fun u hu heq => ?_, ?_, ?_, fun _ => hsubmitted ▸ hsub⟩
    case refine_3 =>
      -- the task itself is in the queue, so it is past its deadline
      rw [hsame] at hu
      have hdeadline := hqueue.resolve_left fun hnot =>
        hnot (heq ▸ mem_map_of_mem (f := InferenceTask.taskId) hu)
      refine ⟨hsubmitted ▸ hsub, .inr ⟨hnone, ?_⟩⟩
      obtain ⟨pt, hpt, hinner⟩ | hexp := (hk.entry u hu).2
      · rw [heq, ht, mem_some_iff] at hpt
        rw [← hinner, ← hpt]
        exact hdeadline
      · exact hexp.2
    case refine_4 =>
      rw [hassigned, update_self]
      exact nofun
    all_goals
      rw [hnone]
      exact nofun

/-- A completion of a task that is not queued. -/
theorem complete (hk : Kept p h clock) (result : ResultStorage) (miner : Address)
    (executionTimeMs : ℕ) (hqueue : p.publicTasks taskId ≠ none → taskId ∉ p.queueIds) :
    Kept (p.completePublicTask taskId result miner executionTimeMs now).2
      (h ++ (p.completePublicTask taskId result miner executionTimeMs now).1.toList.map
        (.charged taskId)) clock := by
  cases ht : p.publicTasks taskId with
  | none =>
    -- an assignment would belong to an open task
    have hnone : p.assigned taskId = none := by
      refine eq_none_iff_forall_ne_some.mpr fun a ha => ?_
      obtain ⟨-, pt, hpt, -⟩ := hk.assignment taskId a ha
      rw [ht] at hpt
      cases hpt
    rw [completePublicTask_of_none ht, toList_none, map_nil, append_nil]
    refine hk.congr rfl rfl ?_
    dsimp only
    rw [← hnone, update_eq_self]
  | some t =>
    have hfinished : finishedIds (h ++ [.charged taskId (chargeOf t miner)]) =
        finishedIds h ++ [taskId] := finishedIds_append
    rw [completePublicTask_of_some ht]
    exact hk.finish ht (.inl (hqueue (by rw [ht]; exact some_ne_none t))) rfl rfl rfl
      (submittedIds_append.trans (append_nil _)) hfinished trivial

/-- An assignment that may go back to the queue. -/
def Returns (p : TaskPool F) (now : ℕ) (taskId : Hash) : Prop :=
  ∀ a ∈ p.assigned taskId, taskId ∉ p.queueIds ∧ now < a.task.deadline

theorem requeue (hk : Kept p h clock) (hreturns : Returns p now taskId) :
    Kept (requeue now p taskId) h clock := by
  cases ha : p.assigned taskId with
  | none =>
    unfold TaskPool.requeue
    rw [ha]
    exact hk
  | some a =>
    obtain ⟨hnot, hdeadline⟩ := hreturns a ha
    obtain ⟨htask, pt, hpt, hinner⟩ := hk.assignment taskId a ha
    obtain ⟨hpid, hinnerId, hsub, hfin⟩ := hk.isOpen taskId pt hpt
    rw [requeue_eq ha hdeadline]
    have hids : (p.queue ++ [a.task]).map InferenceTask.taskId = p.queueIds ++ [taskId] := by
      rw [map_append, map_singleton, htask]
      rfl
    refine hk.change taskId (fun _ hid => update_of_ne hid _ _) (fun _ hid => update_of_ne hid _ _)
      (fun t ht => ?_) (fun _ _ => Iff.rfl) (fun _ _ => Iff.rfl) ?_ hk.coherent.served ?_
    · exact mem_append.trans (or_iff_left fun hmem => ht (mem_singleton.mp hmem ▸ htask))
    · show ((p.queue ++ [a.task]).map InferenceTask.taskId).Nodup
      rw [hids, nodup_append']
      exact ⟨hk.coherent.once, nodup_singleton _, disjoint_singleton.mpr hnot⟩
    · refine ⟨?_, ?_, ?_, ?_, ?_, @hk.finished _⟩ <;>
        simp only [update_self, mem_def.mp hpt, map_some, mem_some_iff, forall_eq', exists_eq_left']
      · split_ifs with hs
        · exact nofun
        · exact fun h => absurd h hs
      · exact fun _ => (congrArg (taskId ∈ ·) hids).mpr (mem_append_right _ (mem_singleton_self _))
      · intro u hu heq
        obtain hu | hu := mem_append.mp hu
        · exact absurd (heq ▸ mem_map_of_mem (f := InferenceTask.taskId) hu) hnot
        · rw [mem_singleton.mp hu]
          refine ⟨hsub, .inl ?_⟩
          split_ifs <;> exact hinner
      · exact nofun
      · split_ifs <;> exact ⟨hpid, hinnerId, hsub, hfin⟩

/-- The turn of one task leaves the others as they were. -/
theorem Returns.requeue {id : Hash} (hk : Kept p h clock) (h₁ : Returns p now taskId)
    (h₂ : Returns p now id) : Returns (TaskPool.requeue now p taskId) now id := by
  cases ha : p.assigned taskId with
  | none =>
    unfold TaskPool.requeue
    rw [ha]
    exact h₂
  | some a =>
    rw [requeue_eq ha (h₁ a ha).2]
    intro b hb
    dsimp only at hb
    obtain rfl | hid := eq_or_ne id taskId
    · rw [update_self] at hb
      cases hb
    · rw [update_of_ne hid] at hb
      refine ⟨fun hmem => ?_, (h₂ b hb).2⟩
      unfold queueIds at hmem
      rw [map_append, map_singleton, (hk.assignment taskId a ha).1] at hmem
      obtain hmem | hmem := mem_append.mp hmem
      · exact (h₂ b hb).1 hmem
      · exact hid (mem_singleton.mp hmem)

variable {ids : List Hash}

theorem requeues (hk : Kept p h clock) (hreturns : ∀ id ∈ ids, Returns p now id) :
    Kept (ids.foldl (TaskPool.requeue now) p) h clock := by
  induction ids generalizing p with
  | nil => exact hk
  | cons id ids ih =>
    have hid := hreturns id mem_cons_self
    refine ih (hk.requeue hid) fun id' hid' => ?_
    exact Returns.requeue hk hid (hreturns id' (mem_cons_of_mem _ hid'))

theorem expire (hk : Kept p h now) (hdue : ∀ t ∈ p.publicTasks taskId, t.innerTask.deadline < now) :
    Kept (p.expire now taskId).2
      (h ++ (p.expire now taskId).1.toList.map fun t => .refunded t.taskId t.submitter) now := by
  cases ht : p.publicTasks taskId with
  | none =>
    rw [expire_of_none ht, toList_none, map_nil, append_nil]
    exact hk
  | some t =>
    have hfinished : finishedIds (h ++ [.refunded t.taskId t.submitter]) =
        finishedIds h ++ [taskId] := by
      rw [finishedIds_append, (hk.isOpen taskId t ht).1]
      rfl
    rw [expire_of_some ht]
    exact hk.finish ht (.inr (hdue t ht)) rfl rfl rfl
      (submittedIds_append.trans (append_nil _)) hfinished trivial

theorem expireAll (hk : Kept p h now)
    (hdue : ∀ id ∈ ids, ∀ t ∈ p.publicTasks id, t.innerTask.deadline < now) :
    Kept (expireAll now p ids).2
      (h ++ (expireAll now p ids).1.map fun t => .refunded t.taskId t.submitter) now := by
  induction ids generalizing p h with
  | nil =>
    rw [expireAll, map_nil, append_nil]
    exact hk
  | cons id ids ih =>
    have hstep := hk.expire (hdue id mem_cons_self)
    have hrest : ∀ id' ∈ ids, ∀ t ∈ (p.expire now id).2.publicTasks id',
        t.innerTask.deadline < now := by
      intro id' hid' t ht
      refine hdue id' (mem_cons_of_mem _ hid') t ?_
      cases hp : p.publicTasks id with
      | none => rw [expire_of_none hp] at ht; exact ht
      | some t' =>
        rw [expire_of_some hp] at ht
        dsimp only at ht
        obtain rfl | hne := eq_or_ne id' id
        · rw [update_self] at ht
          cases ht
        · rw [update_of_ne hne] at ht
          exact ht
    have hall := ih hstep hrest
    rw [append_assoc, ← map_append] at hall
    exact hall

/-- Tasks past their deadline are dropped from the queue, none of them pending. -/
theorem pruneExpired (hk : Kept p h clock) (hdrop : ∀ t ∈ p.queue, t.deadline ≤ now →
    ∀ pt ∈ p.publicTasks t.taskId, pt.status ≠ .pending) : Kept (p.pruneExpired now) h clock := by
  have hsub : (p.pruneExpired now).queue.Sublist p.queue := filter_sublist
  refine ⟨⟨hk.coherent.once.sublist (hsub.map _), hk.coherent.served, hk.coherent.assigned, ?_⟩,
    fun t ht => hk.entry t (hsub.subset ht), hk.assignment, hk.isOpen, hk.finished⟩
  intro id pt hpt hs
  obtain ⟨t, ht, rfl⟩ := mem_map.mp (hk.coherent.queued id pt hpt hs)
  refine mem_map.mpr ⟨t, mem_filter.mpr ⟨ht, ?_⟩, rfl⟩
  rw [decide_eq_true_iff, ← not_le]
  exact fun hle => hdrop t ht hle pt hpt hs

/-! ## An operation -/

theorem perform (hk : Kept p h e.now) (hcareful : Careful (p, h) e)
    (hnew : ∀ id ∈ e.op.submission, id ∉ submittedIds h) :
    Kept (p.perform R e.now e.op).1 (h ++ (p.perform R e.now e.op).2) e.now := by
  obtain ⟨now, op⟩ := e
  cases op with
  | submit submitter task maxFee => exact hk.submit submitter task maxFee (hnew _ rfl)
  | trySubmit submitter task maxFee nowMs =>
    unfold TaskPool.perform
    dsimp only
    obtain ⟨quota, -, -, hcases⟩ := trySubmitPublicTask_cases R p submitter task maxFee nowMs now
    have hasked : Kept { p with quota := quota } h now := hk.congr rfl rfl rfl
    obtain ⟨e, htry⟩ | ⟨htry, -⟩ := hcases <;> rw [htry]
    · exact (append_nil h).symm ▸ hasked
    · exact hasked.submit submitter task maxFee (hnew _ rfl)
  | markRedundant id | pruneRetained =>
    unfold TaskPool.perform
    rw [append_nil]
    exact hk.congr rfl rfl rfl
  | fetch tier memory miner =>
    unfold TaskPool.perform
    dsimp only
    obtain ⟨last, hf⟩ | ⟨task, p', hf, hfetch⟩ := p.fetchTaskFor_cases tier memory miner now
    · rw [hf, toList_none, map_nil, append_nil]
      exact hk.congr rfl rfl rfl
    · rw [hf]
      exact hk.fetch hfetch (hcareful task (by rw [hf]; rfl))
  | complete id result miner ms => exact hk.complete result miner ms hcareful
  | completeByInputHash hash result miner ms =>
    dsimp only
    rw [perform_completeByInputHash]
    cases hid : p.inputHashIndex hash with
    | none =>
      dsimp only
      rw [append_nil]
      exact hk
    | some id => exact hk.complete result miner ms (hcareful id hid)
  | reassignStale order =>
    unfold TaskPool.perform TaskPool.reassignStaleTasks
    rw [append_nil]
    refine hk.requeues fun id hid a ha => ?_
    obtain ⟨horder, hstale⟩ := mem_filter.mp hid
    obtain ⟨hnot, hdeadline⟩ := hcareful id horder hstale
    exact ⟨hnot, hdeadline a ha⟩
  | pruneExpired =>
    unfold TaskPool.perform
    rw [append_nil]
    exact hk.pruneExpired hcareful
  | pruneExpiredPublic order =>
    unfold TaskPool.perform TaskPool.pruneExpiredPublic
    refine hk.expireAll fun id hid t ht => ?_
    obtain ⟨-, hdue⟩ := mem_filter.mp hid
    unfold overdue at hdue
    rw [mem_def.mp ht] at hdue
    exact (of_decide_eq_true hdue).2

end Kept

/-! ## Runs -/

section Runs

variable {F : Type} {R : Rates F} {ops : List Timed} {state : TaskPool F × List PoolEvent}

/-- Only a submission adds to what was submitted. -/
theorem submittedIds_settles {p p' : TaskPool F} {l : List PoolEvent} (hs : Settles p l p') :
    submittedIds l = [] := by
  induction hs with
  | quiet _ ids =>
    rw [submittedIds, filterMap_map, filterMap_eq_nil_iff]
    exact fun _ _ => rfl
  | charge | refund => rfl
  | trans _ _ ih ih' => rw [submittedIds_append, ih, ih', append_nil]

theorem submittedIds_perform (p : TaskPool F) (now : ℕ) (op : Op) :
    (submittedIds (p.perform R now op).2).Sublist op.submission.toList := by
  cases op with
  | submit submitter task maxFee => exact Sublist.refl _
  | trySubmit submitter task maxFee nowMs =>
    unfold perform
    dsimp only
    obtain ⟨quota, -, -, ⟨e, htry⟩ | ⟨htry, -⟩⟩ :=
      trySubmitPublicTask_cases R p submitter task maxFee nowMs now <;> rw [htry]
    · exact nil_sublist _
    · exact Sublist.refl _
  | _ =>
    rw [submittedIds_settles (perform_settles R p now rfl)]
    exact nil_sublist _

/-- The tasks of the later operations are new after an operation as well. -/
theorem fresh_poolStep (hnew : ∀ x ∈ e :: ops, ∀ id ∈ x.op.submission, id ∉ submittedIds state.2)
    (hdistinct : ((e :: ops).filterMap fun e => e.op.submission).Nodup) :
    ∀ x ∈ ops, ∀ id ∈ x.op.submission, id ∉ submittedIds (poolStep R state e).2 := by
  intro x hx id hid hmem
  have hmem' : id ∈ submittedIds (state.2 ++ (state.1.perform R e.now e.op).2) := hmem
  rw [submittedIds_append, mem_append] at hmem'
  obtain hold | hnow := hmem'
  · exact hnew x (mem_cons_of_mem _ hx) id hid hold
  · -- the same task twice among the submissions
    have hsub := (submittedIds_perform state.1 e.now e.op).subset hnow
    rw [mem_toList] at hsub
    rw [filterMap_cons, hsub] at hdistinct
    exact (nodup_cons.mp hdistinct).1 (mem_filterMap.mpr ⟨x, hx, hid⟩)

theorem nodup_submissions_tail (hdistinct : ((e :: ops).filterMap fun e => e.op.submission).Nodup) :
    (ops.filterMap fun e => e.op.submission).Nodup :=
  hdistinct.sublist ((sublist_cons_self e ops).filterMap _)

theorem Kept.run {clock : ℕ} (hk : Kept state.1 state.2 clock) (hstart : ∀ e ∈ ops, clock ≤ e.now)
    (htimes : (ops.map Timed.now).Pairwise (· ≤ ·))
    (hnew : ∀ e ∈ ops, ∀ id ∈ e.op.submission, id ∉ submittedIds state.2)
    (hdistinct : (ops.filterMap fun e => e.op.submission).Nodup)
    (hcareful : Run.Along (poolStep R) Careful state ops) :
    ∃ clock, Kept (Run.run (poolStep R) state ops).1 (Run.run (poolStep R) state ops).2 clock := by
  induction ops generalizing state clock with
  | nil => exact ⟨clock, hk⟩
  | cons e ops ih =>
    rw [map_cons, pairwise_cons] at htimes
    have hstep : Kept (poolStep R state e).1 (poolStep R state e).2 e.now :=
      (hk.mono (hstart e mem_cons_self)).perform hcareful.1 (hnew e mem_cons_self)
    exact ih hstep (fun x hx => htimes.1 _ (mem_map_of_mem (f := Timed.now) hx)) htimes.2
      (fresh_poolStep hnew hdistinct) (nodup_submissions_tail hdistinct) hcareful.2

end Runs

/-- Rates in whole numbers. -/
def wholeRates : Rates ℕ where
  ten := 10
  limits q := 0 < q
  capacity b q := max (b.getD q) 1
  refill tokens ms q capacity := min (tokens + ms * q / 1000) capacity
  short tokens := tokens < 1
  retryAfterMs tokens q := ((1 - tokens) * 1000 + q - 1) / q
  spend tokens := tokens - 1

/-- A hash of one repeated byte. -/
def hashOf (byte : UInt8) : Hash := ⟨Vector.replicate 32 byte⟩

/-- A miner or a tenant. -/
def partyOf (byte : UInt8) : Address := ⟨Vector.replicate 20 byte⟩

/-- A small task. -/
def smallTask (byte : UInt8) (deadline : ℕ) : InferenceTask :=
  ⟨hashOf byte, 1, .embedding ⟨"test", "v1"⟩ (hashOf (byte + 100)), [], 0, deadline⟩

end Qfc.Ai
