import QfcCore.Ai.TrainingVerification
import QfcCore.Ps.Accounting

/-!
# The stake covers the slashes

A worker is assigned to an epoch of a job only if it holds a stake of so many
times the reward of a step as the slash for a step is, and that for every step of
the epoch. The parameter server takes no more steps from it than that, whatever
ranges they are for, and the audit of a step costs it one slash. So all slashes of
an epoch together are never above the stake it had to hold.

The bound is exact arithmetic: no product on the way saturates. It takes one
configuration for the pool and the auditor, and one service for the partition of
the job.
-/

namespace Qfc.Ai

open Ps (AcceptanceRecord Arithmetic EpochOutcome ParamUpdate PsConfig ShardService)
open List

/-! ## Records of a worker -/

section Records

variable {V H : Type} {A : Arithmetic V} {blake3 : Bytes → H} {outcome : EpochOutcome H}
  {s s' : ShardService V H}

/-- The outcome of a barrier has the records of the epoch. -/
theorem accepted_of_endEpoch (h : s.endEpoch A blake3 = (.ok outcome, s')) :
    outcome.accepted = s.accepted := by
  unfold ShardService.endEpoch at h
  split at h
  · cases h
  · unfold ShardService.endEpochWithRule at h
    split at h
    · cases h
    · cases h
      rfl

/-- No worker has more records in an epoch than the epoch has steps. -/
theorem records_le_steps {config : PsConfig} {ceiling epoch : ℕ} {store : Ps.ShardStore V}
    {ranges : List Ps.ParamRange}
    (hnew : ShardService.new store config epoch ranges ceiling = .ok s) (hceiling : ceiling ≠ 0)
    (calls : List (ShardService.Call V))
    (hend : (Run.run (ShardService.step A blake3) (s, []) calls).1.endEpoch A blake3
      = (.ok outcome, s')) (worker : Address) :
    (outcome.accepted.filter (fun record => record.worker = worker)).length ≤ ceiling := by
  have hfirst : ShardService.Kept A blake3 config ceiling s.ranges s [] :=
    ShardService.new_ok hnew hceiling
  have hkept := hfirst.run calls
  obtain ⟨k, hk, hclocks⟩ := (hkept.accounts.accounted hkept.wellFormed).steps worker
  have hcount := congrArg length hclocks
  rw [length_map, length_range] at hcount
  rw [accepted_of_endEpoch hend, hcount]
  exact hk.trans hkept.ceiling_eq.le

end Records

/-! ## Penalties for a worker -/

variable {V F : Type} {A : Arithmetic V} {D : Doubles V F} {blake3 : Bytes → Hash}

/-- **A penalty that an audit of a record comes to**: the context is the one of
the record, the step is run by some engine, and the verdict recommends it. -/
def Issued (A : Arithmetic V) (D : Doubles V F) (blake3 : Bytes → Hash) (v : TrainingVerifier F)
    (spec : TrainingJobSpec) (assignment : TrainingAssignment) (record : AcceptanceRecord Hash)
    (penalty : TrainingPenalty) : Prop :=
  ∃ version ctx, ReplayContext.forClaim blake3 spec assignment record version = .ok ctx ∧
    ∃ claimed executor verdict,
      v.verifyStep A D blake3 record ctx claimed executor = .ok verdict ∧
        verdict.penalty = some penalty

/-- **The penalties of the assigned worker are issued for accepted records**, at
most one for each of them. -/
def OnePerRecord (A : Arithmetic V) (D : Doubles V F) (blake3 : Bytes → Hash)
    (v : TrainingVerifier F) (spec : TrainingJobSpec) (assignment : TrainingAssignment)
    (accepted : List (AcceptanceRecord Hash)) (penalties : List TrainingPenalty) : Prop :=
  ∃ audited : List (AcceptanceRecord Hash), audited.Subperm accepted ∧
    Forall₂ (Issued A D blake3 v spec assignment) audited
      (penalties.filter (fun penalty => penalty.worker = assignment.worker))

variable {v : TrainingVerifier F} {spec : TrainingJobSpec} {assignment : TrainingAssignment}
  {record : AcceptanceRecord Hash} {penalty : TrainingPenalty} {penalties : List TrainingPenalty}
  {accepted : List (AcceptanceRecord Hash)}

section

variable (h : Issued A D blake3 v spec assignment record penalty)
include h

/-- Only records of the assigned worker are audited. -/
theorem Issued.worker_eq : record.worker = assignment.worker := by
  obtain ⟨version, ctx, hctx, -⟩ := h
  unfold ReplayContext.forClaim at hctx
  dsimp only at hctx
  split_ifs at hctx with hjob hworker
  exact (not_not.mp hworker).symm

theorem Issued.slashAmount_eq :
    penalty.slashAmount = satMul128 v.config.slashMultiple spec.perStepReward := by
  obtain ⟨version, ctx, hctx, claimed, executor, verdict, hverdict, hpenalty⟩ := h
  rw [TrainingVerifier.penalty_of_verifyStep hverdict hpenalty]
  show satMul128 v.config.slashMultiple ctx.perStepReward = _
  rw [ReplayContext.perStepReward_of_forClaim hctx]

end

/-- No worker has more penalties than records. -/
theorem OnePerRecord.length_le (h : OnePerRecord A D blake3 v spec assignment accepted penalties) :
    (penalties.filter (fun penalty => penalty.worker = assignment.worker)).length
      ≤ (accepted.filter (fun record => record.worker = assignment.worker)).length := by
  obtain ⟨audited, hsub, hissued⟩ := h
  have hworker : ∀ record ∈ audited, record.worker = assignment.worker :=
    ((forall₂_and_left _ _).mp (hissued.imp fun _ _ h => ⟨h.worker_eq, h⟩)).1
  have hall : audited.filter (fun record => record.worker = assignment.worker) = audited :=
    filter_eq_self.mpr fun record hrecord => decide_eq_true (hworker record hrecord)
  rw [← hissued.length_eq, ← hall]
  exact (hsub.filter _).length_le

theorem OnePerRecord.slashAmount_eq
    (h : OnePerRecord A D blake3 v spec assignment accepted penalties) :
    ∀ penalty ∈ penalties.filter (fun penalty => penalty.worker = assignment.worker),
      penalty.slashAmount = satMul128 v.config.slashMultiple spec.perStepReward := by
  obtain ⟨audited, -, hissued⟩ := h
  exact ((forall₂_and_left _ _).mp (hissued.flip.imp fun _ _ h => ⟨Issued.slashAmount_eq h, h⟩)).1

/-! ## Slashes of a settlement -/

/-- The slashes of a worker are its penalties, one by one. -/
theorem slashes_perm {outcome : EpochOutcome Hash} {jobId : Hash} {rewardPool nowMs : ℕ}
    {spotCheckBps : ℤ} {settlement : EpochSettlement Hash}
    (h : settleEpoch blake3 outcome jobId penalties rewardPool spotCheckBps nowMs
      = .ok settlement) (worker : Address) :
    (settlement.slashes.filter (fun slash => slash.validator = worker)).Perm
      ((penalties.filter (fun penalty => penalty.worker = worker)).map
        (fun penalty => penaltyToSlash penalty nowMs)) := by
  have hslashes : settlement.slashes
      = (penalties.map (fun p => penaltyToSlash p nowMs)).insertionSort SlashLe := by
    unfold settleEpoch at h
    cases hvalid : validate outcome jobId penalties with
    | error e => rw [hvalid] at h; cases h
    | ok _ =>
      rw [hvalid] at h
      obtain rfl := Except.ok.inj h
      rfl
  rw [hslashes]
  refine ((perm_insertionSort SlashLe _).filter _).trans ?_
  rw [filter_map]
  exact Perm.refl _

/-- **The stake covers the slashes.** An assigned worker held the floor of the
stake, which is exactly the slash of every step of an epoch; each of its slashes is
exactly the slash of a step, and all of them together are not above the floor. -/
theorem stake_covers_slashes (A : Arithmetic V) (D : Doubles V F) (blake3 : Bytes → Hash)
    {pool pool' : TrainingPool} {job : TrainingJob} {jobId : Hash} {epoch currentTime : ℕ}
    {registry : MinerRegistry} {assignments : List TrainingAssignment}
    (hjob : pool.jobs.lookup jobId = some job) (hvalid : job.spec.validate pool.psConfig = .ok ())
    (hassign : pool.assignEpoch blake3 jobId epoch registry currentTime = (.ok assignments, pool'))
    (hassignment : assignment ∈ assignments) {store : Ps.ShardStore V} {config : PsConfig}
    {firstEpoch : ℕ} {s s' : ShardService V Hash}
    (hnew : ShardService.new store config firstEpoch job.spec.rangePartition
      job.spec.stepsPerEpoch = .ok s)
    (calls : List (ShardService.Call V)) {outcome : EpochOutcome Hash}
    (hend : (Run.run (ShardService.step A blake3) (s, []) calls).1.endEpoch A blake3
      = (.ok outcome, s')) (hverifier : v.config = pool.psConfig)
    (hpenalties : OnePerRecord A D blake3 v job.spec assignment outcome.accepted penalties)
    {rewardPool nowMs : ℕ} {spotCheckBps : ℤ} {settlement : EpochSettlement Hash}
    (hsettle : settleEpoch blake3 outcome jobId penalties rewardPool spotCheckBps nowMs
      = .ok settlement) :
    ((settlement.slashes.filter (fun slash => slash.validator = assignment.worker)).map
        (fun slash => slash.slashedAmount)).sum ≤ job.spec.stakeFloor pool.psConfig ∧
      (∀ slash ∈ settlement.slashes, slash.validator = assignment.worker →
        slash.slashedAmount = pool.psConfig.slashMultiple * job.spec.perStepReward) ∧
      job.spec.stakeFloor pool.psConfig
        = pool.psConfig.slashMultiple * job.spec.perStepReward * job.spec.stepsPerEpoch ∧
      ∃ m ∈ registry.miners, m.address = assignment.worker ∧
        job.spec.stakeFloor pool.psConfig ≤ m.stake := by
  obtain ⟨hsteps, -⟩ := TrainingJobSpec.validate_ok hvalid
  obtain ⟨hslash, hfloor⟩ := TrainingJobSpec.exact_of_validate hvalid
  have hperm := slashes_perm hsettle assignment.worker
  have hamount : ∀ slash ∈ settlement.slashes.filter
      (fun slash => slash.validator = assignment.worker),
      slash.slashedAmount = pool.psConfig.slashMultiple * job.spec.perStepReward := by
    intro slash hmem
    obtain ⟨penalty, hpenalty, rfl⟩ := mem_map.mp (hperm.mem_iff.mp hmem)
    rw [← hslash, ← hverifier]
    exact hpenalties.slashAmount_eq penalty hpenalty
  have hcount : (settlement.slashes.filter
      (fun slash => slash.validator = assignment.worker)).length ≤ job.spec.stepsPerEpoch := by
    rw [hperm.length_eq, length_map]
    exact hpenalties.length_le.trans (records_le_steps hnew hsteps calls hend _)
  refine ⟨?_, fun slash hmem hworker => hamount slash
    (mem_filter.mpr ⟨hmem, decide_eq_true hworker⟩), hfloor, ?_⟩
  · rw [map_congr_left hamount, map_const', sum_replicate, smul_eq_mul, hfloor, mul_comm]
    exact Nat.mul_le_mul_left _ hcount
  · obtain ⟨m, hm, haddress, heligible⟩ := TrainingPool.assignEpoch_ok hjob hassign hassignment
    exact ⟨m, hm, haddress, TrainingPool.stakeFloor_le_of_eligible heligible⟩

/-! An epoch of two steps, both of them made up by the only worker. -/

/-- The fraction zero. -/
def noTrim : Ps.Beta where
  display := "0"
  inRange := true
  trim _ := 0
  viable _ := ⟨1, by decide⟩

/-- A configuration that slashes forty times the reward. -/
def fortyfold : PsConfig := ⟨noTrim, 3, 40, 64⟩

/-- The sum of the bytes, as a hash. -/
def checksum (bytes : Bytes) : Hash := ⟨Vector.replicate 32 bytes.sum⟩

/-- A job for two parameters. -/
def smallJob : TrainingJobSpec where
  jobId := ⟨Vector.replicate 32 1⟩
  modelId := ⟨"bert-tiny", "v1"⟩
  dataManifest := ⟨[⟨"QmShard0", ⟨Vector.replicate 32 0⟩, 1024, none⟩], 1024,
    ⟨Vector.replicate 32 170⟩⟩
  paramCount := 2
  rangePartition := [⟨0, 1⟩, ⟨1, 2⟩]
  epochs := 1
  stepsPerEpoch := 2
  tokensPerStep := 128
  perStepReward := 5
  requiredBackend := .cpu
  minTier := .cold
  minMemoryMb := 0

/-- A miner with some stake. -/
def minerOf (n : UInt8) (stake : ℕ) : MinerCapability :=
  ⟨⟨Vector.replicate 20 n⟩, .cpu, .cold, 16, 1000, stake⟩

/-- A step for one of the parameters. -/
def madeUpStep (clock : ℕ) : ParamUpdate ℕ :=
  ⟨⟨Vector.replicate 20 7⟩, 0, clock, ⟨clock, clock + 1⟩, [1], 1000⟩

/-- Numbers that nothing is done with, as hashes are compared. -/
def noDoubles : Doubles ℕ Unit where
  ofSingle _ := ()
  zero := ()
  negInfinity := ()
  abs _ := ()
  sub _ _ := ()
  mul _ _ := ()
  max _ _ := ()
  lt _ _ := false
  display _ := ""
  scientific _ := ""

/-- The pool with this job. -/
def smallPool : TrainingPool := ⟨AList.singleton smallJob.jobId ⟨smallJob, .pending, 0, 0⟩, fortyfold⟩

/-- What the worker is assigned. -/
def smallAssignment : TrainingAssignment :=
  ⟨smallJob.jobId, 0, ⟨Vector.replicate 20 7⟩, [0],
    deriveSeed checksum smallJob.jobId 0 ⟨Vector.replicate 20 7⟩, 1000⟩

/-- The penalty for one of the steps. -/
def smallPenalty : TrainingPenalty :=
  ⟨⟨Vector.replicate 20 7⟩, smallJob.jobId, 0, 200, true, invalidTrainingJailMs⟩

/-- What is known of one of the steps. -/
def smallContext (clock : ℕ) : ReplayContext :=
  ⟨smallJob.jobId, smallJob.modelId, 0, smallAssignment.worker, clock, ⟨clock, clock + 1⟩,
    smallAssignment.seed, [0], smallJob.dataManifest, checksum [], 5⟩

/-- **Two made-up steps cost the whole stake**, and no more. -/
theorem made_up_steps_covered :
    ∃ s s' outcome settlement,
      ShardService.new ⟨∅, ⟨0, 2⟩⟩ fortyfold 0 smallJob.rangePartition smallJob.stepsPerEpoch
        = .ok s ∧
      (Run.run (ShardService.step ShardService.naturals checksum) (s, [])
        [.push (madeUpStep 0), .push (madeUpStep 1)]).1.endEpoch ShardService.naturals checksum
          = (.ok outcome, s') ∧
      settleEpoch checksum outcome smallJob.jobId [smallPenalty, smallPenalty] 1000 500 0
        = .ok settlement ∧
      ((settlement.slashes.filter (fun slash => slash.validator = smallAssignment.worker)).map
        (fun slash => slash.slashedAmount)).sum = 400 ∧
      ((settlement.slashes.filter (fun slash => slash.validator = smallAssignment.worker)).map
        (fun slash => slash.slashedAmount)).sum ≤ smallJob.stakeFloor smallPool.psConfig := by
  have hjob : smallPool.jobs.lookup smallJob.jobId = some ⟨smallJob, .pending, 0, 0⟩ := rfl
  obtain ⟨pool', hassign⟩ : ∃ pool', smallPool.assignEpoch checksum smallJob.jobId 0
      ⟨[minerOf 7 400, minerOf 8 399]⟩ 1000 = (.ok [smallAssignment], pool') := ⟨_, rfl⟩
  refine ⟨?_, ?_, ?_, ?_, ?new, ?ended, ?settled, ?sum, (stake_covers_slashes ShardService.naturals
    noDoubles checksum hjob rfl hassign mem_cons_self ?new _ ?ended
    (rfl : TrainingVerifier.config ⟨fortyfold, .exact⟩ = _) ?penalties ?settled).1⟩
  case new | ended | settled => exact rfl
  case sum => decide +kernel
  refine ⟨_, Subperm.refl _, ?_⟩
  rw [filter_eq_self.mpr (by decide +kernel)]
  -- either step is run again, and comes to another value
  exact .cons ⟨checksum [], smallContext 0, by decide +kernel, none, fun _ => .ok [2], _, rfl,
    by decide +kernel⟩ (.cons ⟨checksum [], smallContext 1, by decide +kernel, none,
      fun _ => .ok [2], _, rfl, by decide +kernel⟩ .nil)

end Qfc.Ai
