import QfcCore.Ai.PoolCoherence

/-!
# The accounts of the task pool

Whatever happens to the queue, a submitted task leaves the table of public tasks
once: it is charged when it is completed, or returned for a refund when it
expires. So the tasks in flight of a tenant are the ones that have not left
(`Accounted`), and a tenant whose submissions are all admitted stays within its
limit, where the limit 0 stands for none (`pool_accounted`).
-/

namespace Qfc.Ai

open Ps (satAdd64)
open Function List QuotaEnforcer TaskPool

variable (history : List PoolEvent) {e : PoolEvent}

/-- The tasks that were submitted, with their tenants. -/
def submissions : List (Hash × Address) :=
  history.filterMap fun
    | .submitted taskId tenant => some (taskId, tenant)
    | _ => none

/-- The tasks that were charged. -/
def chargedIds : List Hash :=
  history.filterMap fun
    | .charged taskId _ => some taskId
    | _ => none

/-- The tasks that were returned for a refund. -/
def refundedIds : List Hash :=
  history.filterMap fun
    | .refunded taskId _ => some taskId
    | _ => none

/-- The calls of the treasury hook. -/
def charges : List Charge :=
  history.filterMap fun
    | .charged _ charge => some charge
    | _ => none

/-- The number of tasks of a tenant that are neither completed nor expired. -/
def openCount (tenant : Address) : ℕ :=
  (submissions history).countP fun s => tenant = s.2 ∧ s.1 ∉ finishedIds history

/-- The meter that has recorded some charges. -/
def metered (charges : List Charge) : CostMeter :=
  charges.foldl (fun m c => m.record c.tenant c.miner c.flops c.feeWei) .new

/-- **The accounts of the pool**: no task is charged twice, refunded twice or both;
the meter has recorded what the hook was told; the public tasks are the submitted
ones that have neither been completed nor expired, and a tenant has as many tasks
in flight. -/
structure Accounted {F : Type} (p : TaskPool F) (history : List PoolEvent) : Prop where
  charges : (chargedIds history).Nodup
  refunds : (refundedIds history).Nodup
  exclusive : (chargedIds history).Disjoint (refundedIds history)
  cost : p.cost = metered (Ai.charges history)
  open_iff : ∀ id, (p.publicTasks id).isSome = true ↔
    id ∈ submittedIds history ∧ id ∉ finishedIds history
  inFlight : ∀ tenant, p.quota.inflightFor tenant = openCount history tenant

/-- Every tenant with a limit is within it. -/
def WithinLimits {F : Type} (p : TaskPool F) : Prop :=
  ∀ c ∈ p.quota.config, ∀ tenant, 0 < (c.tierFor tenant).maxInflight →
    p.quota.inflightFor tenant ≤ (c.tierFor tenant).maxInflight

/-- The queue, the tables of tasks and the tasks in flight are the same. -/
structure SameTasks {F : Type} (p p' : TaskPool F) : Prop where
  queue : p'.queue = p.queue
  publicTasks : p'.publicTasks = p.publicTasks
  inputHashIndex : p'.inputHashIndex = p.inputHashIndex
  assigned : p'.assigned = p.assigned
  redundantAssignments : p'.redundantAssignments = p.redundantAssignments
  completedTasks : p'.completedTasks = p.completedTasks
  inFlight : ∀ tenant, p'.quota.inflightFor tenant = p.quota.inflightFor tenant

/-! ## Histories -/

section Histories

variable {h l : List PoolEvent} {id : Hash} {tenant u : Address}

@[simp] theorem submissions_append : submissions (h ++ l) = submissions h ++ submissions l :=
  filterMap_append

@[simp] theorem charges_append : charges (h ++ l) = charges h ++ charges l :=
  filterMap_append

theorem filterMap_fetched {α : Type} {f : PoolEvent → Option α}
    (hf : ∀ id, f (.fetched id) = none) (ids : List Hash) :
    (h ++ ids.map PoolEvent.fetched).filterMap f = h.filterMap f := by
  have hnil : (ids.map PoolEvent.fetched).filterMap f = [] := by
    rw [filterMap_map, filterMap_eq_nil_iff]
    exact fun id _ => hf id
  rw [filterMap_append, hnil, append_nil]

theorem map_fst_submissions (h : List PoolEvent) :
    (submissions h).map Prod.fst = submittedIds h := by
  rw [submissions, submittedIds, map_filterMap]
  congr 1
  funext e
  cases e <;> rfl

/-- The tasks that are finished are the charged ones and the refunded ones. -/
theorem finishedIds_perm (h : List PoolEvent) :
    (finishedIds h).Perm (chargedIds h ++ refundedIds h) := by
  induction h with
  | nil => exact .refl _
  | cons e h ih =>
    cases e with
    | submitted | fetched => exact ih
    | charged id c => exact ih.cons id
    | refunded id u => exact (ih.cons id).trans perm_middle.symm

theorem openCount_submit (hid : id ∉ finishedIds h) :
    openCount (h ++ [.submitted id tenant]) u = openCount h u + if u = tenant then 1 else 0 := by
  have hfinished : finishedIds (h ++ [.submitted id tenant]) = finishedIds h :=
    finishedIds_append.trans (append_nil _)
  have hsubmissions : submissions (h ++ [.submitted id tenant]) = submissions h ++ [(id, tenant)] :=
    submissions_append
  rw [openCount, hfinished, hsubmissions, countP_append, countP_singleton]
  simp [hid, openCount]

theorem openCount_finish (hdistinct : ((submissions h).map Prod.fst).Nodup)
    (hmem : (id, tenant) ∈ submissions h) (hopen : id ∉ finishedIds h)
    (hsubmissions : submissions (h ++ [e]) = submissions h)
    (hfinished : finishedIds (h ++ [e]) = finishedIds h ++ [id]) :
    openCount h u = openCount (h ++ [e]) u + if u = tenant then 1 else 0 := by
  rw [openCount, Table.countP_without hdistinct hmem, openCount, hsubmissions, hfinished]
  congr 1
  · refine countP_congr fun s _ => ?_
    simp [and_assoc]
  · simp [hopen]

end Histories

/-! ## The invariant -/

/-- **What every run keeps.** -/
structure Booked {F : Type} (p : TaskPool F) (history : List PoolEvent) : Prop where
  distinct : (submittedIds history).Nodup
  finished : (finishedIds history).Nodup
  known : finishedIds history ⊆ submittedIds history
  isOpen : ∀ id, ∀ t ∈ p.publicTasks id, t.taskId = id ∧ (id, t.submitter) ∈ submissions history ∧
    id ∉ finishedIds history
  stays : ∀ id ∈ submittedIds history, id ∉ finishedIds history → (p.publicTasks id).isSome = true
  inFlight : ∀ tenant, p.quota.inflightFor tenant = openCount history tenant
  cost : p.cost = metered (charges history)

variable {now : ℕ}

namespace Booked

variable {F : Type} {R : Rates F} {p p' : TaskPool F} {h l : List PoolEvent} {taskId : Hash}

theorem accounted (hb : Booked p h) : Accounted p h := by
  have hnodup : (chargedIds h ++ refundedIds h).Nodup :=
    (finishedIds_perm h).nodup_iff.mp hb.finished
  rw [nodup_append'] at hnodup
  refine ⟨hnodup.1, hnodup.2.1, hnodup.2.2, hb.cost, fun id => ⟨fun hsome => ?_, fun hid => ?_⟩,
    hb.inFlight⟩
  · obtain ⟨t, ht⟩ := Option.isSome_iff_exists.mp hsome
    obtain ⟨-, hmem, hopen⟩ := hb.isOpen id t ht
    rw [← map_fst_submissions]
    exact ⟨mem_map.mpr ⟨_, hmem, rfl⟩, hopen⟩
  · exact hb.stays id hid.1 hid.2

theorem new (config : Option (QuotaConfig F)) : Booked (new config) [] where
  distinct := nodup_nil
  finished := nodup_nil
  known := nil_subset _
  isOpen := nofun
  stays := nofun
  inFlight := fun _ => rfl
  cost := rfl

variable (hb : Booked p h)
include hb

/-- A quiet operation, which may return tasks to miners. -/
theorem quiet (hq : Quiet p p') (ids : List Hash) : Booked p' (h ++ ids.map .fetched) := by
  have hsub : submissions (h ++ ids.map .fetched) = submissions h := filterMap_fetched (by simp) ids
  have hids : submittedIds (h ++ ids.map .fetched) = submittedIds h :=
    filterMap_fetched (by simp) ids
  have hfin : finishedIds (h ++ ids.map .fetched) = finishedIds h := filterMap_fetched (by simp) ids
  have hcharges : charges (h ++ ids.map .fetched) = charges h := filterMap_fetched (by simp) ids
  refine ⟨hids ▸ hb.distinct, hfin ▸ hb.finished, ?_, ?_, ?_, ?_, ?_⟩
  · rw [hids, hfin]
    exact hb.known
  · intro id t ht
    have hkept := hq.kept id
    rw [Option.mem_def.mp ht, Option.map_some] at hkept
    obtain ⟨t', ht', heq⟩ := Option.map_eq_some_iff.mp hkept.symm
    obtain ⟨hid, hmem, hopen⟩ := hb.isOpen id t' ht'
    obtain ⟨htask, howner⟩ := Prod.mk.inj heq
    rw [hsub, hfin, ← htask, ← (Prod.mk.inj howner).1]
    exact ⟨hid, hmem, hopen⟩
  · rw [hids, hfin]
    intro id hid hopen
    have hsome := hb.stays id hid hopen
    rw [← Option.isSome_map (f := PublicTask.kept)] at hsome ⊢
    rw [hq.kept id]
    exact hsome
  · intro u
    rw [hq.inFlight, hb.inFlight, openCount, openCount, hsub, hfin]
  · rw [hq.cost, hb.cost, hcharges]

theorem submit (submitter : Address) (task : InferenceTask) (maxFee : ℕ)
    (hnew : task.taskId ∉ submittedIds h) (hroom : (submissions h).length + 1 < 2 ^ 64) :
    Booked (p.submitPublicTask R submitter task maxFee now)
      (h ++ [.submitted task.taskId submitter]) := by
  have hsub : submissions (h ++ [.submitted task.taskId submitter]) =
      submissions h ++ [(task.taskId, submitter)] := submissions_append
  have hids : submittedIds (h ++ [.submitted task.taskId submitter]) =
      submittedIds h ++ [task.taskId] := submittedIds_append
  have hfin : finishedIds (h ++ [.submitted task.taskId submitter]) = finishedIds h :=
    finishedIds_append.trans (append_nil _)
  refine ⟨?_, hfin ▸ hb.finished, ?_, ?_, ?_, fun u => ?_, ?_⟩
  · rw [hids, nodup_append']
    exact ⟨hb.distinct, nodup_singleton _, disjoint_singleton.mpr hnew⟩
  · rw [hids, hfin]
    exact fun _ hid => mem_append_left _ (hb.known hid)
  · rw [hsub, hfin]
    refine Table.forall_mem_insert (fun id _ t ht => ?_) ⟨rfl, ?_, fun hid => hnew (hb.known hid)⟩
    · obtain ⟨hid, hmem, hopen⟩ := hb.isOpen id t ht
      exact ⟨hid, mem_append_left _ hmem, hopen⟩
    · exact mem_append_right _ (mem_singleton_self _)
  · rw [hids, hfin]
    intro id hid hopen
    show (update p.publicTasks task.taskId _ id).isSome = true
    obtain rfl | hne := eq_or_ne id task.taskId
    · rw [update_self]
      rfl
    · rw [update_of_ne hne]
      obtain hid | hid := mem_append.mp hid
      · exact hb.stays id hid hopen
      · exact absurd (mem_singleton.mp hid) hne
  · show (p.quota.taskStarted R submitter now).inflightFor u = _
    rw [inflightFor_taskStarted, openCount_submit fun hid => hnew (hb.known hid)]
    split_ifs with hu
    · -- the count does not saturate
      have hle : openCount h u ≤ (submissions h).length := countP_le_length
      rw [← hu, hb.inFlight, satAdd64]
      omega
    · exact hb.inFlight u
  · exact hb.cost.trans (congrArg metered (charges_append.trans (append_nil _)).symm)

theorem finish {t : PublicTask} (ht : p.publicTasks taskId = some t)
    (hpublic : p'.publicTasks = update p.publicTasks taskId none)
    (hquota : p'.quota = p.quota.taskFinished t.submitter)
    (hsubmissions : submissions (h ++ [e]) = submissions h)
    (hfinished : finishedIds (h ++ [e]) = finishedIds h ++ [taskId])
    (hcost : p'.cost = metered (charges (h ++ [e]))) : Booked p' (h ++ [e]) := by
  obtain ⟨-, hmem, hopen⟩ := hb.isOpen taskId t ht
  have hids : submittedIds (h ++ [e]) = submittedIds h := by
    rw [← map_fst_submissions, hsubmissions, map_fst_submissions]
  have hsubmitted : taskId ∈ submittedIds h := by
    rw [← map_fst_submissions]
    exact mem_map.mpr ⟨_, hmem, rfl⟩
  refine ⟨hids ▸ hb.distinct, ?_, ?_, ?_, ?_, fun u => ?_, hcost⟩
  · rw [hfinished, nodup_append']
    exact ⟨hb.finished, nodup_singleton _, disjoint_singleton.mpr hopen⟩
  · rw [hids, hfinished]
    exact append_subset.mpr ⟨hb.known, cons_subset.mpr ⟨hsubmitted, nil_subset _⟩⟩
  · rw [hpublic, hsubmissions, hfinished]
    refine Table.forall_mem_erase fun id hid x hx => ?_
    obtain ⟨hxid, hxmem, hxopen⟩ := hb.isOpen id x hx
    refine ⟨hxid, hxmem, fun hfin => ?_⟩
    obtain hfin | hfin := mem_append.mp hfin
    · exact hxopen hfin
    · exact hid (mem_singleton.mp hfin)
  · rw [hids, hfinished, hpublic]
    intro id hid hnot
    rw [mem_append, mem_singleton, not_or] at hnot
    rw [update_of_ne hnot.2]
    exact hb.stays id hid hnot.1
  · have hcount : openCount h u = openCount (h ++ [e]) u + if u = t.submitter then 1 else 0 :=
      openCount_finish ((map_fst_submissions h).symm ▸ hb.distinct) hmem hopen hsubmissions
        hfinished
    rw [hquota, inflightFor_taskFinished]
    split_ifs with hu
    · rw [← hu, hb.inFlight, hcount, if_pos hu]
      rfl
    · rw [hb.inFlight, hcount, if_neg hu]
      rfl

/-- What an operation keeps that submits nothing. -/
theorem settles (hs : Settles p l p') : Booked p' (h ++ l) := by
  induction hs generalizing h with
  | quiet hq ids => exact hb.quiet hq ids
  | @charge p id t ht result miner ms now =>
    rw [completePublicTask_of_some ht]
    have hcharges : charges (h ++ [.charged id (chargeOf t miner)]) =
        charges h ++ [chargeOf t miner] := charges_append
    refine hb.finish ht rfl rfl (submissions_append.trans (append_nil _))
      finishedIds_append ?_
    show p.cost.record _ _ _ _ = metered (charges (h ++ [.charged id _]))
    rw [hcharges, metered, foldl_append, hb.cost]
    rfl
  | @refund p id t ht now =>
    have hfinished : finishedIds (h ++ [.refunded t.taskId t.submitter]) =
        finishedIds h ++ [id] := by
      rw [finishedIds_append, (hb.isOpen id t ht).1]
      rfl
    rw [expire_of_some ht]
    exact hb.finish ht rfl rfl (submissions_append.trans (append_nil _)) hfinished
      (hb.cost.trans (congrArg metered (charges_append.trans (append_nil _)).symm))
  | trans _ _ ih ih' =>
    rw [← append_assoc]
    exact ih' (ih hb)

theorem perform {op : Op} (hnew : ∀ id ∈ op.submission, id ∉ submittedIds h)
    (hroom : (submissions h).length + op.submission.toList.length < 2 ^ 64) :
    Booked (p.perform R now op).1 (h ++ (p.perform R now op).2) := by
  cases op with
  | submit submitter task maxFee => exact hb.submit submitter task maxFee (hnew _ rfl) hroom
  | trySubmit submitter task maxFee nowMs =>
    obtain ⟨quota, hconfig, hinFlight, hcases⟩ :=
      trySubmitPublicTask_cases R p submitter task maxFee nowMs now
    have hquiet : Quiet p { p with quota := quota } :=
      ⟨fun _ => rfl, rfl, hconfig, hinFlight, rfl⟩
    have hasked : Booked { p with quota := quota } (h ++ []) := hb.quiet hquiet []
    unfold TaskPool.perform
    dsimp only
    obtain ⟨e, htry⟩ | ⟨htry, -⟩ := hcases <;> rw [htry]
    · exact hasked
    · rw [append_nil] at hasked
      exact hasked.submit submitter task maxFee (hnew _ rfl) hroom
  | _ => exact hb.settles (perform_settles R p now rfl)

end Booked

/-! ## Limits -/

namespace WithinLimits

variable {F : Type} {R : Rates F} {p p' : TaskPool F} {l : List PoolEvent}

theorem of_le (hlimits : WithinLimits p) (hconfig : p'.quota.config = p.quota.config)
    (hle : ∀ tenant, p'.quota.inflightFor tenant ≤ p.quota.inflightFor tenant) :
    WithinLimits p' := by
  intro c hc tenant hpos
  rw [hconfig] at hc
  exact (hle tenant).trans (hlimits c hc tenant hpos)

theorem of_finished (hlimits : WithinLimits p) {tenant : Address}
    (hquota : p'.quota = p.quota.taskFinished tenant) : WithinLimits p' := by
  refine hlimits.of_le (by rw [hquota, taskFinished_config]) fun u => ?_
  rw [hquota, inflightFor_taskFinished]
  split_ifs with hu
  · rw [hu]
    exact Nat.sub_le _ _
  · exact le_rfl

theorem settles (hlimits : WithinLimits p) (hs : Settles p l p') : WithinLimits p' := by
  induction hs with
  | quiet hq => exact hlimits.of_le hq.config fun u => (hq.inFlight u).le
  | charge ht =>
    rw [completePublicTask_of_some ht]
    exact hlimits.of_finished rfl
  | refund ht =>
    rw [expire_of_some ht]
    exact hlimits.of_finished rfl
  | trans _ _ ih ih' => exact ih' (ih hlimits)

/-- An admitted task is within the limit of its tenant. -/
theorem trySubmit (hlimits : WithinLimits p) (R : Rates F) (submitter : Address)
    (task : InferenceTask) (maxFee nowMs now : ℕ) :
    WithinLimits (p.trySubmitPublicTask R submitter task maxFee nowMs now).2 := by
  obtain ⟨quota, hconfig, hinFlight, ⟨e, htry⟩ | ⟨htry, hroom⟩⟩ :=
    trySubmitPublicTask_cases R p submitter task maxFee nowMs now <;> rw [htry]
  · exact hlimits.of_le hconfig fun u => (hinFlight u).le
  · intro c hc tenant hpos
    have hc' : c ∈ p.quota.config := by
      rw [← hconfig]
      exact hc
    show (quota.taskStarted R submitter now).inflightFor tenant ≤ _
    rw [inflightFor_taskStarted]
    split_ifs with htenant
    · rw [hinFlight, htenant]
      exact (min_le_left _ _).trans (hroom c hc' (htenant ▸ hpos))
    · rw [hinFlight]
      exact hlimits c hc' tenant hpos

theorem perform {op : Op} (hlimits : WithinLimits p)
    (hop : ∀ submitter task maxFee, op ≠ .submit submitter task maxFee) :
    WithinLimits (p.perform R now op).1 := by
  cases op with
  | submit submitter task maxFee => exact absurd rfl (hop submitter task maxFee)
  | trySubmit submitter task maxFee nowMs =>
    have hstep := hlimits.trySubmit R submitter task maxFee nowMs now
    unfold TaskPool.perform
    dsimp only
    split <;> rename_i heq <;> rw [heq] at hstep <;> exact hstep
  | _ => exact hlimits.settles (perform_settles R p now rfl)

end WithinLimits

/-! ## Runs -/

section Runs

variable {F : Type} {R : Rates F} {state : TaskPool F × List PoolEvent} {ops : List Timed}

/-- A rejected submission changes neither the tasks nor what is in flight. -/
theorem sameTasks_of_rejected (p : TaskPool F) (submitter : Address) (task : InferenceTask)
    (maxFee nowMs now : ℕ) {e : QuotaError F}
    (he : (p.trySubmitPublicTask R submitter task maxFee nowMs now).1 = .error e) :
    SameTasks p (p.trySubmitPublicTask R submitter task maxFee nowMs now).2 := by
  obtain ⟨quota, -, hinFlight, ⟨e, htry⟩ | ⟨htry, -⟩⟩ :=
    trySubmitPublicTask_cases R p submitter task maxFee nowMs now <;> rw [htry] at he ⊢
  · exact ⟨rfl, rfl, rfl, rfl, rfl, rfl, hinFlight⟩
  · cases he

theorem Booked.run (hb : Booked state.1 state.2)
    (hnew : ∀ e ∈ ops, ∀ id ∈ e.op.submission, id ∉ submittedIds state.2)
    (hdistinct : (ops.filterMap fun e => e.op.submission).Nodup)
    (hfew : (submissions state.2).length + (ops.filterMap fun e => e.op.submission).length < 2 ^ 64) :
    Booked (Run.run (poolStep R) state ops).1 (Run.run (poolStep R) state ops).2 := by
  induction ops generalizing state with
  | nil => exact hb
  | cons e ops ih =>
    -- the submissions of this operation are the first of the list
    have hcount : ((e :: ops).filterMap fun e => e.op.submission).length =
        e.op.submission.toList.length + (ops.filterMap fun e => e.op.submission).length := by
      rw [filterMap_cons]
      cases e.op.submission with
      | none => exact (Nat.zero_add _).symm
      | some id => exact Nat.add_comm _ _
    rw [hcount] at hfew
    have hstep : Booked (poolStep R state e).1 (poolStep R state e).2 :=
      hb.perform (hnew e mem_cons_self) (by omega)
    refine ih hstep (fresh_poolStep hnew hdistinct) (nodup_submissions_tail hdistinct) ?_
    have hlength : (submissions (poolStep R state e).2).length ≤
        (submissions state.2).length + e.op.submission.toList.length := by
      show (submissions (state.2 ++ (state.1.perform R e.now e.op).2)).length ≤ _
      rw [submissions_append, length_append]
      refine Nat.add_le_add_left ?_ _
      rw [← length_map (f := Prod.fst), map_fst_submissions]
      exact (submittedIds_perform state.1 e.now e.op).length_le
    omega

/-- A run of which every submission asks for admission keeps the limits. -/
theorem WithinLimits.run (hlimits : WithinLimits state.1)
    (hall : ∀ e ∈ ops, ∀ submitter task maxFee, e.op ≠ .submit submitter task maxFee) :
    WithinLimits (Run.run (poolStep R) state ops).1 := by
  exact Run.invariant_along (P := fun state : TaskPool F × List PoolEvent => WithinLimits state.1)
    hlimits (fun _ _ h => h.perform) (Run.along_of_forall hall)

/-- **The accounts of the pool are exact** after every run with different tasks
from the empty pool; a run of which every submission asks for admission keeps the
limits that are set; and a rejected submission changes no task. -/
theorem pool_accounted {config : Option (QuotaConfig F)} {ops : List Timed}
    (hdistinct : (ops.filterMap fun e => e.op.submission).Nodup)
    (hfew : (ops.filterMap fun e => e.op.submission).length < 2 ^ 64) :
    Accounted (Run.run (poolStep R) (new config, []) ops).1
        (Run.run (poolStep R) (new config, []) ops).2 ∧
      ((∀ e ∈ ops, ∀ submitter task maxFee, e.op ≠ .submit submitter task maxFee) →
        WithinLimits (Run.run (poolStep R) (new config, []) ops).1) ∧
      ∀ (p : TaskPool F) (submitter : Address) (task : InferenceTask) (maxFee nowMs now : ℕ)
        (e : QuotaError F),
        (p.trySubmitPublicTask R submitter task maxFee nowMs now).1 = .error e →
          SameTasks p (p.trySubmitPublicTask R submitter task maxFee nowMs now).2 := by
  have hstart : Booked (new config) [] := Booked.new config
  refine ⟨(Booked.run hstart (fun _ _ _ _ hmem => by cases hmem) hdistinct ?_).accounted,
    fun hall => WithinLimits.run (fun _ _ _ _ => Nat.zero_le _) hall,
    fun p submitter task maxFee nowMs now e he => sameTasks_of_rejected p submitter task maxFee
      nowMs now he⟩
  exact (Nat.zero_add _).trans_lt hfew

end Runs

/-- A configuration with a limit of tasks in flight and no other one. -/
def inflightLimit (limit : ℕ) : QuotaConfig ℕ := ⟨3600, 10000, ⟨0, none, limit, 0, 1⟩, fun _ => none⟩

/-- A tenant with the limit 1 submits, is rejected, completes and submits again. -/
def limitedRun : List Timed :=
  [⟨1000, .trySubmit (partyOf 1) (smallTask 1 90000) 5 1000⟩,
    ⟨1500, .trySubmit (partyOf 1) (smallTask 2 90000) 5 1500⟩,
    ⟨2000, .fetch .cold 4000 (some (partyOf 8))⟩,
    ⟨3000, .complete (hashOf 1) (.inline [7]) (partyOf 8) 12⟩,
    ⟨3500, .complete (hashOf 1) (.inline [7]) (partyOf 9) 12⟩,
    ⟨4000, .trySubmit (partyOf 1) (smallTask 3 60000) 5 4000⟩,
    ⟨61000, .pruneExpiredPublic [hashOf 1, hashOf 3]⟩]

theorem limitedRun_accounted :
    (Run.run (poolStep wholeRates) (new (some (inflightLimit 1)), []) limitedRun).2.length
        = 5 ∧
      Accounted
        (Run.run (poolStep wholeRates) (new (some (inflightLimit 1)), []) limitedRun).1
        (Run.run (poolStep wholeRates) (new (some (inflightLimit 1)), []) limitedRun).2 :=
  ⟨by decide +kernel, (pool_accounted (by decide +kernel) (by decide +kernel)).1⟩

/-- One task is submitted. -/
def oneSubmission : List Timed := [⟨1000, .trySubmit (partyOf 1) (smallTask 1 90000) 5 1000⟩]

/-- **The limit 0 does not limit**: a tenant whose `max_inflight` is 0 has a task in
flight, though all its submissions were admitted. -/
theorem zero_limit_exceeded :
    ((inflightLimit 0).tierFor (partyOf 1)).maxInflight = 0 ∧
      (Run.run (poolStep wholeRates) (new (some (inflightLimit 0)), [])
        oneSubmission).1.quota.inflightFor (partyOf 1) = 1 := by
  decide +kernel

end Qfc.Ai
