import QfcCore.Ai.Quota

/-!
# Training jobs

`TrainingJobSpec` and `TrainingPool` of `qfc-ai-coordinator/src/training.rs`, with
the manifest of the training data (`ShardManifest` of `qfc-inference/src/shard.rs`)
and the registry of the miners (`assignment.rs`). A job is submitted once, and its
workers are chosen anew for every epoch among the miners that hold the stake.

Every check of a specification is a line of `validate`, with the text of its error.
Sizes and counts are numbers; `u128` products saturate or are checked, as in the
code. The loaded models of a miner are left out, and so are the queries of the pool
and its estimates of the work.
-/

namespace Qfc

/-- How an error of the parameter server is printed. -/
def Ps.PsError.display : Ps.PsError → String
  | .invalidRange message => "invalid range: " ++ message
  | .invalidUpdate message => "invalid update: " ++ message
  | .staleUpdate workerClock floor bound =>
    "stale update: worker clock " ++ toString workerClock ++ " below admission floor "
      ++ toString floor ++ " (staleness bound " ++ toString bound ++ ")"
  | .epochClosed epoch => "epoch " ++ toString epoch ++ " is closed for pushes"
  | .epochMismatch expected got =>
    "epoch mismatch: expected " ++ toString expected ++ ", got " ++ toString got
  | .workerCapExceeded cap =>
    "worker cap exceeded for range: " ++ toString cap
      ++ " workers already buffered (ADR-0003 memory bound)"
  | .aggregation message => "aggregation failed: " ++ message
  | .config message => "invalid ps config: " ++ message

namespace Ai

open Ps (ParamRange PsConfig TrimmedMean.new TrimmedMean.minUpdates)

/-- How a hash is printed. -/
def Hash.display (h : Hash) : String := "0x" ++ String.join (h.bytes.toList.map hexByte)

/-- `saturating_mul` of 128-bit numbers. -/
def satMul128 (a b : ℕ) : ℕ := min (a * b) (2 ^ 128 - 1)

/-- `checked_mul` of 128-bit numbers. -/
def checkedMul128 (a b : ℕ) : Option ℕ := if a * b < 2 ^ 128 then some (a * b) else none

theorem satMul128_of_lt {a b : ℕ} (h : a * b < 2 ^ 128) : satMul128 a b = a * b :=
  min_eq_left (Nat.le_sub_one_of_lt h)

theorem checkedMul128_eq_some {a b c : ℕ} (h : checkedMul128 a b = some c) :
    c = a * b ∧ a * b < 2 ^ 128 := by
  unfold checkedMul128 at h
  split at h
  next hlt => exact ⟨(Option.some.inj h).symm, hlt⟩
  · cases h

/-! ## Manifests -/

/-- One file of a data set. -/
structure ShardEntry where
  cid : String
  hash : Hash
  sizeBytes : ℕ
  layerRange : Option (ℕ × ℕ)
deriving DecidableEq

/-- A data set. -/
structure ShardManifest where
  shards : List ShardEntry
  totalSizeBytes : ℕ
  assembledHash : Hash
deriving DecidableEq

namespace ShardManifest

/-- The message of an invalid manifest. -/
def invalid (detail : String) : String :=
  "Shard verification failed: Invalid shard manifest: " ++ detail

/-- The first loop of `validate`: the sum of the sizes. -/
def sizes (i sum : ℕ) : List ShardEntry → Except String ℕ
  | [] => .ok sum
  | shard :: shards =>
    if shard.sizeBytes = 0 then
      .error (invalid ("shard " ++ toString i ++ " has zero size"))
    else if !shard.cid.isEmpty && !shard.cid.toList.all Char.isAlphanum then
      .error (invalid ("shard " ++ toString i ++ " cid " ++ shard.cid.quote
        ++ " contains characters outside [A-Za-z0-9]"))
    else if 2 ^ 64 ≤ sum + shard.sizeBytes then .error (invalid "shard sizes overflow u64")
    else sizes (i + 1) (sum + shard.sizeBytes) shards

/-- The second loop of `validate`: every range begins where the last one ended. -/
def layers (i : ℕ) (previous : Option ℕ) : List ShardEntry → Except String Unit
  | [] => .ok ()
  | shard :: shards =>
    match shard.layerRange with
    -- the caller has made sure of a range
    | none => .error (invalid "layer_range must be set on all shards or none")
    | some (start, stop) =>
      if stop ≤ start then
        .error (invalid ("shard " ++ toString i ++ " has empty layer range [" ++ toString start
          ++ ", " ++ toString stop ++ ")"))
      else if previous.any (fun last => start ≠ last) then
        .error (invalid ("shard " ++ toString i ++ " layer range starts at " ++ toString start
          ++ " but previous shard ends at " ++ toString (previous.getD 0)
          ++ " (ranges must be contiguous and non-overlapping)"))
      else layers (i + 1) (some stop) shards

/-- The sizes add up and the layers fit. -/
def validate (m : ShardManifest) : Except String Unit := do
  if m.shards = [] then .error (invalid "shard list is empty")
  let sum ← sizes 0 0 m.shards
  if sum ≠ m.totalSizeBytes then
    .error (invalid ("shard sizes sum to " ++ toString sum ++ " but total_size_bytes is "
      ++ toString m.totalSizeBytes))
  let withRange := m.shards.countP (fun shard => shard.layerRange.isSome)
  if 0 < withRange then
    if withRange ≠ m.shards.length then
      .error (invalid "layer_range must be set on all shards or none")
    layers 0 none m.shards

end ShardManifest

/-! ## Specifications -/

/-- Where a miner computes. -/
inductive BackendType
  | cuda
  | metal
  | rocm
  | cpu
  | openCl
deriving DecidableEq

/-- How a backend is printed. -/
def BackendType.display : BackendType → String
  | .cuda => "CUDA"
  | .metal => "Metal"
  | .rocm => "ROCm"
  | .openCl => "OpenCL"
  | .cpu => "CPU"

/-- Why a request is refused. -/
inductive TrainingError
  | invalidSpec (message : String)
  | duplicateJob (jobId : Hash)
  | jobNotFound (jobId : Hash)
  | epochOutOfOrder (jobId : Hash) (expected got : ℕ)
  | jobNotAssignable (jobId : Hash) (status : String)
  | jobExhausted (jobId : Hash) (epochs : ℕ)
  | invalidTransition (jobId : Hash) (source target detail : String)
  | poolFull (max : ℕ)
  | insufficientWorkers (jobId : Hash) (epoch need available : ℕ)
  | config (message : String)
deriving DecidableEq

/-- The most ranges of a job. -/
def maxRangePartitionLen : ℕ := 4096

/-- The most shards of a job. -/
def maxDataShards : ℕ := 65536

/-- The most jobs of a pool. -/
def maxJobs : ℕ := 1024

/-- The most parameters of a job. -/
def paramCountMax : ℕ := 1000000000000

/-- What a job is. -/
structure TrainingJobSpec where
  jobId : Hash
  modelId : ModelId
  dataManifest : ShardManifest
  paramCount : ℕ
  rangePartition : List ParamRange
  epochs : ℕ
  stepsPerEpoch : ℕ
  tokensPerStep : ℕ
  perStepReward : ℕ
  requiredBackend : BackendType
  minTier : GpuTier
  minMemoryMb : ℕ
deriving DecidableEq

namespace TrainingJobSpec

/-- A check: an error unless the condition holds. -/
def require (condition : Prop) [Decidable condition] (message : String) :
    Except TrainingError Unit :=
  if condition then .ok () else .error (.invalidSpec message)

/-- The loop over the ranges: where the last one ends. -/
def cover (i last : ℕ) : List ParamRange → Except TrainingError ℕ
  | [] => .ok last
  | range :: ranges => do
    require (range.start < range.stop)
      ("range_partition[" ++ toString i ++ "] = " ++ range.display ++ " is empty")
    require (range.start = last)
      ("range_partition[" ++ toString i ++ "] starts at " ++ toString range.start
        ++ " but previous range ends at " ++ toString last
        ++ " (ranges must be sorted, disjoint and contiguous)")
    cover (i + 1) range.stop ranges

variable (spec : TrainingJobSpec) (config : PsConfig)

/-- The stake a worker needs, saturating. -/
def stakeFloor : ℕ :=
  satMul128 (satMul128 config.slashMultiple spec.perStepReward) spec.stepsPerEpoch

/-- The stake a worker needs, if it fits. -/
def checkedStakeFloor : Option ℕ := do
  let slash ← checkedMul128 config.slashMultiple spec.perStepReward
  checkedMul128 slash spec.stepsPerEpoch

/-- The checks of the work, the reward and the backend. -/
def validateWork : Except TrainingError Unit := do
  require (spec.paramCount ≠ 0) "param_count must be > 0"
  require (spec.paramCount ≤ paramCountMax)
    ("param_count " ++ toString spec.paramCount ++ " exceeds PARAM_COUNT_MAX "
      ++ toString paramCountMax ++ " (sanity ceiling)")
  let memoryFloorMb := satMul64 spec.paramCount 4 / (1024 * 1024)
  require (memoryFloorMb ≤ spec.minMemoryMb)
    ("min_memory_mb " ++ toString spec.minMemoryMb ++ " below the fp32 model floor "
      ++ toString memoryFloorMb ++ " MB (param_count " ++ toString spec.paramCount
      ++ " x 4 bytes)")
  require (spec.epochs ≠ 0) "epochs must be > 0"
  require (spec.stepsPerEpoch ≠ 0) "steps_per_epoch must be > 0"
  require (spec.tokensPerStep ≠ 0) "tokens_per_step must be > 0"
  require (spec.perStepReward ≠ 0) "per_step_reward must be > 0"
  require (spec.requiredBackend = .cpu)
    ("required_backend " ++ spec.requiredBackend.display ++ " not allowed: pilot training jobs are "
      ++ "CPU-only for exact-match verification (ADR-0005 stage 1); GPU backends are gated on "
      ++ "the A4b tolerance-band calibration")

/-- The checks of the training data. -/
def validateData : Except TrainingError Unit := do
  let shards := spec.dataManifest.shards
  match spec.dataManifest.validate with
  | .error e => .error (.invalidSpec ("data manifest: " ++ e))
  | .ok () => .ok ()
  require (shards.length ≤ maxDataShards)
    ("data_manifest has " ++ toString shards.length ++ " shards, exceeding MAX_DATA_SHARDS "
      ++ toString maxDataShards)
  require (shards.all (fun shard => !shard.cid.isEmpty))
    ("data_manifest shard " ++ toString (shards.findIdx (fun shard => shard.cid.isEmpty))
      ++ " has an empty cid: training jobs require uploaded data "
      ++ "(the B-1 pre-upload state is not allowed here)")
  match TrimmedMean.new config.trimBeta with
  | .error e => .error (.config e.display)
  | .ok rule =>
    let minWorkers := TrimmedMean.minUpdates rule
    require (minWorkers ≤ shards.length)
      ("data_manifest has " ++ toString shards.length ++ " shards but the aggregation rule needs "
        ++ "at least " ++ toString minWorkers ++ " workers with data (TrimmedMean::min_updates for "
        ++ "trim_beta " ++ config.trimBeta.display ++ "); every epoch would thin-skip (ADR-0003)")

/-- The checks of the partition: it covers the parameters. -/
def validatePartition : Except TrainingError Unit :=
  match spec.rangePartition with
  | [] => .error (.invalidSpec "range_partition is empty")
  | first :: rest => do
    require ((first :: rest).length ≤ maxRangePartitionLen)
      ("range_partition has " ++ toString (first :: rest).length ++ " ranges, exceeding "
        ++ "MAX_RANGE_PARTITION_LEN " ++ toString maxRangePartitionLen)
    require (first.start = 0)
      ("range_partition must start at 0, first range is " ++ first.display)
    let last ← cover 0 0 (first :: rest)
    require (last = spec.paramCount)
      ("range_partition covers [0, " ++ toString last ++ ") but param_count is "
        ++ toString spec.paramCount)

/-- The checks of a submission. -/
def validate : Except TrainingError Unit := do
  spec.validateWork
  spec.validateData config
  spec.validatePartition
  match spec.checkedStakeFloor config with
  | some _ => .ok ()
  | none =>
    .error (.invalidSpec ("stake floor overflows u128: slash_multiple "
      ++ toString config.slashMultiple ++ " x per_step_reward " ++ toString spec.perStepReward
      ++ " x steps_per_epoch " ++ toString spec.stepsPerEpoch ++ " (ADR-0008)"))

/-! What a specification that passes comes to. -/

/-- A check that passed, and what comes after it. -/
theorem require_bind_ok {α : Type} {condition : Prop} [Decidable condition] {message : String}
    {next : Unit → Except TrainingError α} {result : α}
    (h : (require condition message >>= next) = .ok result) :
    condition ∧ next () = .ok result := by
  unfold require at h
  split at h
  next hcondition => exact ⟨hcondition, h⟩
  · cases h

theorem cover_ok {i last stop : ℕ} {ranges : List ParamRange}
    (h : cover i last ranges = .ok stop) : ∀ range ∈ ranges, range.start < range.stop := by
  induction ranges generalizing i last with
  | nil => exact nofun
  | cons range ranges ih =>
    obtain ⟨hrange, h⟩ := require_bind_ok h
    obtain ⟨-, h⟩ := require_bind_ok h
    exact List.forall_mem_cons.mpr ⟨hrange, ih h⟩

variable {spec : TrainingJobSpec} {x : Unit}

theorem validateWork_ok (h : spec.validateWork = .ok x) : spec.stepsPerEpoch ≠ 0 := by
  unfold validateWork at h
  obtain ⟨-, h⟩ := require_bind_ok h
  obtain ⟨-, h⟩ := require_bind_ok h
  obtain ⟨-, h⟩ := require_bind_ok h
  obtain ⟨-, h⟩ := require_bind_ok h
  exact (require_bind_ok h).1

theorem validatePartition_ok (h : spec.validatePartition = .ok x) :
    ∀ range ∈ spec.rangePartition, range.start < range.stop := by
  unfold validatePartition at h
  split at h
  · cases h
  next first rest hranges =>
    obtain ⟨-, h⟩ := require_bind_ok h
    obtain ⟨-, h⟩ := require_bind_ok h
    cases hcover : cover 0 0 (first :: rest) with
    | error e => rw [hcover] at h; cases h
    | ok last => exact hranges ▸ cover_ok hcover

/-- A floor that can be computed is exact. -/
theorem checkedStakeFloor_eq_some {config : PsConfig} {floor : ℕ}
    (h : spec.checkedStakeFloor config = some floor) :
    floor = config.slashMultiple * spec.perStepReward * spec.stepsPerEpoch ∧ floor < 2 ^ 128 := by
  obtain ⟨slash, hslash, hfloor⟩ := Option.bind_eq_some_iff.mp h
  obtain ⟨rfl, -⟩ := checkedMul128_eq_some hslash
  obtain ⟨rfl, hlt⟩ := checkedMul128_eq_some hfloor
  exact ⟨rfl, hlt⟩

/-- What is known of a valid specification: there are steps, the ranges have
keys, and the floor of the stake is not above a 128-bit number. -/
theorem validate_ok {config : PsConfig} (h : spec.validate config = .ok x) :
    spec.stepsPerEpoch ≠ 0 ∧ (∀ range ∈ spec.rangePartition, range.start < range.stop) ∧
      config.slashMultiple * spec.perStepReward * spec.stepsPerEpoch < 2 ^ 128 := by
  unfold validate at h
  cases hwork : spec.validateWork with
  | error e => rw [hwork] at h; cases h
  | ok _ =>
    cases hdata : spec.validateData config with
    | error e => rw [hwork, hdata] at h; cases h
    | ok _ =>
      cases hpartition : spec.validatePartition with
      | error e => rw [hwork, hdata, hpartition] at h; cases h
      | ok _ =>
        refine ⟨validateWork_ok hwork, validatePartition_ok hpartition, ?_⟩
        cases hfloor : spec.checkedStakeFloor config with
        | none => rw [hwork, hdata, hpartition, hfloor] at h; cases h
        | some floor =>
          obtain ⟨rfl, hlt⟩ := checkedStakeFloor_eq_some hfloor
          exact hlt

/-- The slash for a step and the floor of a valid specification are exact. -/
theorem exact_of_validate {config : PsConfig} (h : spec.validate config = .ok x) :
    satMul128 config.slashMultiple spec.perStepReward
        = config.slashMultiple * spec.perStepReward ∧
      spec.stakeFloor config
        = config.slashMultiple * spec.perStepReward * spec.stepsPerEpoch := by
  obtain ⟨hsteps, -, hlt⟩ := validate_ok h
  have hslash : satMul128 config.slashMultiple spec.perStepReward
      = config.slashMultiple * spec.perStepReward :=
    satMul128_of_lt ((Nat.le_mul_of_pos_right _ (Nat.pos_of_ne_zero hsteps)).trans_lt hlt)
  refine ⟨hslash, ?_⟩
  rw [stakeFloor, hslash]
  exact satMul128_of_lt hlt

end TrainingJobSpec

/-! ## Miners -/

/-- `MinerCapability`, without the models it has loaded. -/
structure MinerCapability where
  address : Address
  backend : BackendType
  tier : GpuTier
  memoryMb : ℕ
  lastSeen : ℕ
  stake : ℕ
deriving DecidableEq

/-- Seen in the last minute. -/
def MinerCapability.isActive (m : MinerCapability) (currentTime : ℕ) : Bool :=
  currentTime - m.lastSeen < 60000

/-- The registered miners. -/
structure MinerRegistry where
  miners : List MinerCapability
deriving DecidableEq

/-- `tier_matches`, the same table as the one of the task pool. -/
def tierMatches (minerTier requiredTier : GpuTier) : Bool := tierCanRun minerTier requiredTier

/-! ## Jobs -/

/-- The stage of a job. -/
inductive TrainingJobStatus
  | pending
  | active (epoch : ℕ)
  | suspended (reason : String)
  | completed
  | failed (reason : String)
deriving DecidableEq

/-- How a status is printed. -/
def TrainingJobStatus.display : TrainingJobStatus → String
  | .pending => "Pending"
  | .active epoch => "Active(epoch " ++ toString epoch ++ ")"
  | .suspended reason => "Suspended(" ++ reason ++ ")"
  | .completed => "Completed"
  | .failed reason => "Failed(" ++ reason ++ ")"

/-- Whether a job has come to an end. -/
def TrainingJobStatus.terminal : TrainingJobStatus → Bool
  | .completed | .failed _ => true
  | .pending | .active _ | .suspended _ => false

/-- A job of the pool. -/
structure TrainingJob where
  spec : TrainingJobSpec
  status : TrainingJobStatus
  nextEpoch : ℕ
  createdAt : ℕ
deriving DecidableEq

/-- What a worker is to do in an epoch. -/
structure TrainingAssignment where
  jobId : Hash
  epoch : ℕ
  worker : Address
  dataShardIndices : List ℕ
  seed : ℕ
  assignedAt : ℕ
deriving DecidableEq

/-- `u64::from_be_bytes` of the first eight bytes. -/
def firstBe64 (bytes : Bytes) : ℕ :=
  (bytes.take 8).foldl (fun n b => 256 * n + b.toNat) 0

/-- The seed of a worker's data. -/
def deriveSeed (blake3 : Bytes → Hash) (jobId : Hash) (epoch : ℕ) (worker : Address) : ℕ :=
  firstBe64 (blake3 (jobId.bytes.toList ++ Ps.toBeBytes epoch ++ worker.bytes.toList)).bytes.toList

/-- The jobs and the settings they share. -/
structure TrainingPool where
  jobs : AList (fun _ : Hash => TrainingJob)
  psConfig : PsConfig

namespace TrainingPool

/-- An empty pool. -/
def new (psConfig : PsConfig) : Except TrainingError TrainingPool :=
  match psConfig.validate with
  | .error e => .error (.config e.display)
  | .ok () => .ok ⟨∅, psConfig⟩

variable (pool : TrainingPool) (jobId : Hash) (spec : TrainingJobSpec)

/-- A job enters the pool. -/
def submit (createdAt : ℕ) : Except TrainingError TrainingPool := do
  if maxJobs ≤ pool.jobs.entries.length then .error (.poolFull maxJobs)
  else
    spec.validate pool.psConfig
    if (pool.jobs.lookup spec.jobId).isSome then .error (.duplicateJob spec.jobId)
    else return { pool with jobs := pool.jobs.insert spec.jobId ⟨spec, .pending, 0, createdAt⟩ }

/-- The order of the addresses, by their bytes. -/
def AddressLe (a b : Address) : Prop := byteKey a.bytes ≤ byteKey b.bytes

instance : DecidableRel AddressLe :=
  fun a b => inferInstanceAs (Decidable (byteKey a.bytes ≤ byteKey b.bytes))

/-- Whether a miner may work for a job. -/
def eligible (psConfig : PsConfig) (currentTime : ℕ) (m : MinerCapability) : Bool :=
  m.isActive currentTime && m.backend = spec.requiredBackend && tierMatches m.tier spec.minTier
    && spec.minMemoryMb ≤ m.memoryMb && spec.stakeFloor psConfig ≤ m.stake

/-- The workers of an epoch: the first of the eligible miners. -/
def selected (registry : MinerRegistry) (currentTime : ℕ) : List Address :=
  (((registry.miners.filter (eligible spec pool.psConfig currentTime)).map
    MinerCapability.address).insertionSort AddressLe).take pool.psConfig.maxWorkersPerRange

/-- The shards of a worker: every shard goes to one, in turn. -/
def shardsOf (shards epoch workers w : ℕ) : List ℕ :=
  (List.range shards).filter fun i => (i + epoch) % 2 ^ 64 % workers = w

/-- `assign_epoch`: the answer, and the pool after it. -/
def assignEpoch (blake3 : Bytes → Hash) (pool : TrainingPool) (jobId : Hash) (epoch : ℕ)
    (registry : MinerRegistry) (currentTime : ℕ) :
    Except TrainingError (List TrainingAssignment) × TrainingPool :=
  match pool.jobs.lookup jobId with
  | none => (.error (.jobNotFound jobId), pool)
  | some job =>
    if job.status.terminal then (.error (.jobNotAssignable jobId job.status.display), pool)
    else if job.spec.epochs ≤ job.nextEpoch then
      (.error (.jobExhausted jobId job.spec.epochs), pool)
    else if epoch ≠ job.nextEpoch then
      (.error (.epochOutOfOrder jobId job.nextEpoch epoch), pool)
    else
      let workers := pool.selected job.spec registry currentTime
      match TrimmedMean.new pool.psConfig.trimBeta with
      | .error e => (.error (.config e.display), pool)
      | .ok rule =>
        let need := TrimmedMean.minUpdates rule
        if workers.length < need then
          let reason := "insufficient eligible workers for epoch " ++ toString epoch ++ ": need "
            ++ toString need ++ ", have " ++ toString workers.length ++ " (ADR-0007 fail-safe)"
          (.error (.insufficientWorkers jobId epoch need workers.length),
            { pool with jobs := pool.jobs.insert jobId { job with status := .suspended reason } })
        else
          let assignments := workers.mapIdx fun w worker =>
            { jobId := jobId
              epoch := epoch
              worker := worker
              dataShardIndices :=
                shardsOf job.spec.dataManifest.shards.length epoch workers.length w
              seed := deriveSeed blake3 jobId epoch worker
              assignedAt := currentTime }
          (.ok assignments,
            { pool with
              jobs := pool.jobs.insert jobId
                { job with
                  status := .active epoch
                  nextEpoch := (epoch + 1) % 2 ^ 64 } })

/-- A job is done. -/
def completeJob : Except TrainingError TrainingPool :=
  match pool.jobs.lookup jobId with
  | none => .error (.jobNotFound jobId)
  | some job =>
    match job.status with
    | .active _ =>
      if job.nextEpoch ≠ job.spec.epochs then
        .error (.invalidTransition jobId job.status.display "Completed"
          ("only " ++ toString job.nextEpoch ++ " of " ++ toString job.spec.epochs
            ++ " epochs assigned"))
      else .ok { pool with jobs := pool.jobs.insert jobId { job with status := .completed } }
    | status =>
      .error (.invalidTransition jobId status.display "Completed" "only Active jobs can complete")

/-- A job fails. -/
def failJob (reason : String) : Except TrainingError TrainingPool :=
  match pool.jobs.lookup jobId with
  | none => .error (.jobNotFound jobId)
  | some job =>
    if job.status.terminal then
      .error (.invalidTransition jobId job.status.display "Failed" "job is already terminal")
    else .ok { pool with jobs := pool.jobs.insert jobId { job with status := .failed reason } }

/-! ## Assignments -/

/-- Who is assigned: a miner of the registry that may work for the job, in
the asked epoch. -/
theorem assignEpoch_ok {blake3 : Bytes → Hash} {pool pool' : TrainingPool} {jobId : Hash}
    {epoch currentTime : ℕ} {registry : MinerRegistry} {assignments : List TrainingAssignment}
    {job : TrainingJob} (hjob : pool.jobs.lookup jobId = some job)
    (h : pool.assignEpoch blake3 jobId epoch registry currentTime = (.ok assignments, pool'))
    {assignment : TrainingAssignment} (hmem : assignment ∈ assignments) :
    ∃ m ∈ registry.miners, m.address = assignment.worker ∧
      eligible job.spec pool.psConfig currentTime m = true := by
  unfold assignEpoch at h
  rw [hjob] at h
  dsimp only at h
  split_ifs at h
  · cases h
  · cases h
  · cases h
  split at h
  · cases h
  split_ifs at h
  · cases h
  obtain rfl := Except.ok.inj (congrArg Prod.fst h)
  obtain ⟨w, hw, rfl⟩ := List.mem_mapIdx.mp hmem
  -- the worker is one of the sorted addresses of the eligible miners
  have hworker := List.mem_of_mem_take (List.getElem_mem hw)
  obtain ⟨m, hm, haddress⟩ := List.mem_map.mp ((List.mem_insertionSort AddressLe).mp hworker)
  obtain ⟨hm, heligible⟩ := List.mem_filter.mp hm
  exact ⟨m, hm, haddress, heligible⟩

theorem stakeFloor_le_of_eligible {spec : TrainingJobSpec} {psConfig : PsConfig} {currentTime : ℕ}
    {m : MinerCapability} (h : eligible spec psConfig currentTime m = true) :
    spec.stakeFloor psConfig ≤ m.stake := by
  unfold eligible at h
  exact of_decide_eq_true (Bool.and_eq_true_iff.mp h).2

/-! ## Runs of a pool -/

/-- A call of the pool. -/
inductive Op
  | submit (spec : TrainingJobSpec) (createdAt : ℕ)
  | assignEpoch (jobId : Hash) (epoch : ℕ) (registry : MinerRegistry) (currentTime : ℕ)
  | completeJob (jobId : Hash)
  | failJob (jobId : Hash) (reason : String)

/-- The pool after a call. -/
def step (blake3 : Bytes → Hash) (pool : TrainingPool) : Op → TrainingPool
  | .submit spec createdAt => (pool.submit spec createdAt).toOption.getD pool
  | .assignEpoch jobId epoch registry currentTime =>
    (pool.assignEpoch blake3 jobId epoch registry currentTime).2
  | .completeJob jobId => (pool.completeJob jobId).toOption.getD pool
  | .failJob jobId reason => (pool.failJob jobId reason).toOption.getD pool

end TrainingPool

end Ai

end Qfc
