import QfcCore.Ai.Training

/-!
# Verification of accepted steps

`ReplayContext::for_claim` and `TrainingVerifier::verify_step` of
`qfc-ai-coordinator/src/training_verification.rs`. An auditor runs an accepted step
again and compares. A step that differs is no error: the verdict recommends a
penalty, a fixed multiple of the reward of a step.

What is done with 64-bit floating-point numbers is left free (`Doubles`), and so is
the engine that runs the step. Which records are sampled is left out: every record
may be.
-/

namespace Qfc.Ai

open Ps (AcceptanceRecord Arithmetic ParamRange ParamUpdate PsConfig)

/-- Six hours. -/
def invalidTrainingJailMs : ℕ := 21600000

/-- **What the code does with 64-bit numbers** (`f64`), and how it prints them. -/
structure Doubles (V F : Type) where
  ofSingle : V → F
  zero : F
  negInfinity : F
  abs : F → F
  sub : F → F → F
  mul : F → F → F
  max : F → F → F
  lt : F → F → Bool
  display : F → String
  /-- Six digits and an exponent. -/
  scientific : F → String

/-- Why there is no verdict. -/
inductive TrainingVerificationError
  | contextMismatch (message : String)
  | missingClaimedUpdate
  | claimedUpdateHashMismatch (expected got : Hash)
  | invalidClaimedUpdate (message : String)
  | replayFailed (message : String)
deriving DecidableEq

/-! ## Contexts -/

/-- What the step is run with. -/
structure ReplayContext where
  jobId : Hash
  modelId : ModelId
  epoch : ℕ
  worker : Address
  clock : ℕ
  range : ParamRange
  seed : ℕ
  dataShardIndices : List ℕ
  dataManifest : ShardManifest
  paramsVersionHash : Hash
  perStepReward : ℕ
deriving DecidableEq

namespace ReplayContext

/-- `for_claim`. The partition of a valid specification is sorted, so
`binary_search` finds a range that is one of it. -/
def forClaim (blake3 : Bytes → Hash) (spec : TrainingJobSpec) (assignment : TrainingAssignment)
    (record : AcceptanceRecord Hash) (paramsVersionHash : Hash) :
    Except TrainingVerificationError ReplayContext :=
  let expectedSeed := deriveSeed blake3 spec.jobId assignment.epoch assignment.worker
  if assignment.jobId ≠ spec.jobId then
    .error (.contextMismatch ("assignment job " ++ assignment.jobId.display ++ " != spec job "
      ++ spec.jobId.display))
  else if assignment.worker ≠ record.worker then
    .error (.contextMismatch ("assignment worker " ++ assignment.worker.display
      ++ " != record worker " ++ record.worker.display))
  else if assignment.epoch ≠ record.epoch then
    .error (.contextMismatch ("assignment epoch " ++ toString assignment.epoch
      ++ " != record epoch " ++ toString record.epoch))
  else if spec.stepsPerEpoch ≤ record.clock then
    .error (.contextMismatch ("record clock " ++ toString record.clock ++ " >= steps_per_epoch "
      ++ toString spec.stepsPerEpoch))
  else if assignment.seed ≠ expectedSeed then
    .error (.contextMismatch ("assignment seed " ++ toString assignment.seed ++ " != derived seed "
      ++ toString expectedSeed ++ " for (job " ++ spec.jobId.display ++ ", epoch "
      ++ toString assignment.epoch ++ ", worker " ++ assignment.worker.display
      ++ ") — forged or corrupted assignment"))
  else if record.range ∉ spec.rangePartition then
    .error (.contextMismatch ("record range " ++ record.range.display
      ++ " is not a member of the job's range_partition"))
  else
    .ok
      { jobId := spec.jobId
        modelId := spec.modelId
        epoch := record.epoch
        worker := record.worker
        clock := record.clock
        range := record.range
        seed := assignment.seed
        dataShardIndices := assignment.dataShardIndices
        dataManifest := spec.dataManifest
        paramsVersionHash := paramsVersionHash
        perStepReward := spec.perStepReward }

/-- The context of a claim has the reward of the job. -/
theorem perStepReward_of_forClaim {blake3 : Bytes → Hash} {spec : TrainingJobSpec}
    {assignment : TrainingAssignment} {record : AcceptanceRecord Hash} {paramsVersionHash : Hash}
    {ctx : ReplayContext}
    (h : forClaim blake3 spec assignment record paramsVersionHash = .ok ctx) :
    ctx.perStepReward = spec.perStepReward := by
  unfold forClaim at h
  dsimp only at h
  split_ifs at h
  cases h
  rfl

end ReplayContext

/-! ## Verdicts -/

/-- How two updates are compared. -/
inductive CompareMode (F : Type)
  | exact
  | toleranceBand (epsilon absFloor : F)

/-- The outcome of an audit. -/
structure TrainingVerdict (F : Type) where
  passed : Bool
  modeUsed : CompareMode F
  details : String
  penalty : Option TrainingPenalty

/-- An auditor. -/
structure TrainingVerifier (F : Type) where
  config : PsConfig
  mode : CompareMode F

namespace TrainingVerifier

variable {V F : Type} (A : Arithmetic V) (D : Doubles V F) (blake3 : Bytes → Hash)

variable (v : TrainingVerifier F) (claim : AcceptanceRecord Hash) (ctx : ReplayContext)

/-- Whether the context describes the claim. -/
def describes (claim : AcceptanceRecord Hash) : Bool :=
  ctx.worker = claim.worker && ctx.epoch = claim.epoch && ctx.clock = claim.clock
    && ctx.range = claim.range

/-- A step, as the message of a mismatch prints it. -/
def describeStep (worker : Address) (epoch clock : ℕ) (range : ParamRange) : String :=
  "(worker " ++ worker.display ++ ", epoch " ++ toString epoch ++ ", clock " ++ toString clock
    ++ ", range " ++ range.display ++ ")"

/-- What the claimed update is checked for before the step is run: nothing, if
hashes are compared. -/
def checkClaimed (claimedUpdate : Option (ParamUpdate V)) :
    Except TrainingVerificationError (List V) :=
  match v.mode with
  | .exact => .ok []
  | .toleranceBand _ _ =>
    match claimedUpdate with
    | none => .error .missingClaimedUpdate
    | some claimed =>
      match claimed.validate A with
      | .error e => .error (.invalidClaimedUpdate e.display)
      | .ok () =>
        let got := claimed.updateHash A blake3
        if got ≠ claim.updateHash then
          .error (.claimedUpdateHashMismatch claim.updateHash got)
        else .ok claimed.values

/-- The coordinate that is the most out of its band: where it is, the claimed and
the replayed value, the band, and by how much. -/
def worst (epsilon absFloor : F) (pairs : List (V × V)) : Option (ℕ × F × F × F) × F :=
  pairs.zipIdx.foldl
    (fun found pair =>
      let c := D.ofSingle pair.1.1
      let r := D.ofSingle pair.1.2
      let band := D.max (D.mul epsilon (D.abs r)) absFloor
      let excess := D.sub (D.abs (D.sub c r)) band
      if D.lt found.2 excess then (some (pair.2, c, r, band), excess) else found)
    (none, D.negInfinity)

/-- The comparison: whether the step passed, and why. -/
def compare (claimed replayed : List V) : Bool × String :=
  match v.mode with
  | .exact =>
    let recomputed := (ParamUpdate.mk claim.worker claim.epoch claim.clock claim.range replayed
      claim.flopsEstimated).updateHash A blake3
    if recomputed = claim.updateHash then (true, "exact: replayed update_hash matches claim")
    else
      (false, "exact: replayed update_hash " ++ recomputed.display ++ " != claimed "
        ++ claim.updateHash.display)
  | .toleranceBand epsilon absFloor =>
    let knobs := "(epsilon " ++ D.display epsilon ++ ", abs_floor " ++ D.scientific absFloor ++ ")"
    let within := (true, "tolerance: all " ++ toString replayed.length
      ++ " coordinates within max(epsilon × |replayed_i|, abs_floor) " ++ knobs)
    match worst D epsilon absFloor (claimed.zip replayed) with
    | (some (i, c, r, band), excess) =>
      if D.lt D.zero excess then
        (false, "tolerance: coordinate " ++ toString i ++ " out of band: claimed "
          ++ D.scientific c ++ ", replayed " ++ D.scientific r ++ ", |diff| "
          ++ D.scientific (D.abs (D.sub c r)) ++ " > allowed band " ++ D.scientific band
          ++ " " ++ knobs)
      else within
    | (none, _) => within

/-- The penalty for a claim that did not pass. -/
def penaltyFor : TrainingPenalty where
  worker := claim.worker
  jobId := ctx.jobId
  epoch := claim.epoch
  slashAmount := satMul128 v.config.slashMultiple ctx.perStepReward
  voidEpochRecords := true
  jailDurationMs := invalidTrainingJailMs

/-- The verdict on a comparison. -/
def verdict (comparison : Bool × String) : TrainingVerdict F where
  passed := comparison.1
  modeUsed := v.mode
  details := comparison.2
  penalty := if comparison.1 then none else some (v.penaltyFor claim ctx)

/-- Runs the step and compares. -/
def verifyStep (claimedUpdate : Option (ParamUpdate V))
    (executor : ReplayContext → Except TrainingVerificationError (List V)) :
    Except TrainingVerificationError (TrainingVerdict F) := do
  if !describes ctx claim then
    .error (.contextMismatch ("replay context "
      ++ describeStep ctx.worker ctx.epoch ctx.clock ctx.range ++ " does not describe claim "
      ++ describeStep claim.worker claim.epoch claim.clock claim.range))
  else
    let claimed ← v.checkClaimed A blake3 claim claimedUpdate
    let replayed ← executor ctx
    if replayed.length ≠ ctx.range.len then
      .error (.replayFailed ("executor returned " ++ toString replayed.length
        ++ " values for range " ++ ctx.range.display ++ " (len " ++ toString ctx.range.len ++ ")"))
    else
      return v.verdict claim ctx (v.compare A D blake3 claim claimed replayed)

variable {A D blake3}

/-- A penalty is the fixed one of the claim and the context. -/
theorem penalty_of_verifyStep {v : TrainingVerifier F} {claim : AcceptanceRecord Hash}
    {ctx : ReplayContext} {claimedUpdate : Option (ParamUpdate V)}
    {executor : ReplayContext → Except TrainingVerificationError (List V)}
    {verdict : TrainingVerdict F} {penalty : TrainingPenalty}
    (h : v.verifyStep A D blake3 claim ctx claimedUpdate executor = .ok verdict)
    (hpenalty : verdict.penalty = some penalty) : penalty = v.penaltyFor claim ctx := by
  unfold verifyStep at h
  split_ifs at h
  cases hclaimed : v.checkClaimed A blake3 claim claimedUpdate with
  | error e => rw [hclaimed] at h; cases h
  | ok claimed =>
    cases hreplayed : executor ctx with
    | error e => rw [hclaimed, hreplayed] at h; cases h
    | ok replayed =>
      rw [hclaimed, hreplayed] at h
      change (if _ then _ else Except.ok (v.verdict claim ctx _)) = _ at h
      split at h
      · cases h
      · obtain rfl := Except.ok.inj h
        unfold verdict at hpenalty
        dsimp only at hpenalty
        split at hpenalty
        · cases hpenalty
        · exact (Option.some.inj hpenalty).symm

end TrainingVerifier

end Qfc.Ai
