import QfcCore.Lib.Canonical
import QfcCore.Lib.SortedRows
import QfcCore.Ps.Service

/-!
# Settlement of an epoch

`settle_epoch` of `qfc-ai-coordinator/src/settlement.rs`: what a closed training epoch
changes on the chain. It is meant to be a function of the *set* of accepted records
and the *set* of penalties, so that operators that have seen the same sets agree.

A hash is 32 bytes where it is data. What `blake3` returns is left free, with some
bytes that stand for it; the spot check rate is the rounded number of basis points.
The sums in `u128` wrap.
-/

namespace Qfc.Ai

open Ps (AcceptanceRecord EpochOutcome toBeBytes satAdd64)

/-- A hash. -/
structure Hash where
  bytes : Vector UInt8 32
deriving DecidableEq

/-- Bytes as numbers, by which byte arrays are compared. -/
def byteKey {n : ℕ} (v : Vector UInt8 n) : List ℕ := v.toList.map UInt8.toNat

/-- A recommended penalty. -/
structure TrainingPenalty where
  worker : Address
  jobId : Hash
  epoch : ℕ
  slashAmount : ℕ
  voidEpochRecords : Bool
  jailDurationMs : ℕ
deriving DecidableEq

/-- `SettlementError`, without the error of the storage. -/
inductive SettlementError
  | recordEpochMismatch (worker : Address) (recordEpoch epoch : ℕ)
  | penaltyEpochMismatch (worker : Address) (penaltyEpoch epoch : ℕ)
  | penaltyJobMismatch (worker : Address) (penaltyJob jobId : Hash)
deriving DecidableEq

/-- The offense of a slash; the only one of a settlement. -/
inductive SlashableOffense
  | invalidTraining
deriving DecidableEq

/-- A slash for the registry. -/
structure SlashResult where
  validator : Address
  offense : SlashableOffense
  slashedAmount : ℕ
  jailUntil : ℕ
deriving DecidableEq

/-- What a worker is paid. -/
structure RewardCredit where
  worker : Address
  amount : ℕ
deriving DecidableEq

section Digest

variable {D : Type}

/-- What goes on the chain for an epoch. -/
structure TrainingEpochCommit (D : Type) where
  jobId : Hash
  epoch : ℕ
  paramsHash : Hash
  recordsRoot : D
  acceptedCount : ℕ
  totalFlopsAccepted : ℕ
deriving DecidableEq

variable (r : AcceptanceRecord Hash) (blake3 : Bytes → D) (outcome : EpochOutcome Hash)

/-- What settling an epoch yields. -/
structure EpochSettlement (D : Type) where
  commit : TrainingEpochCommit D
  rewards : List RewardCredit
  slashes : List SlashResult
  verifierReserveWei : ℕ
  verifierBudgetFlops : ℕ
deriving DecidableEq

/-! ## The root of the records -/

/-- What records are sorted by: everything but the estimated work. -/
def recordKey : List ℕ ×ₗ ℕ ×ₗ ℕ ×ₗ ℕ ×ₗ ℕ ×ₗ List ℕ :=
  toLex (byteKey r.worker.bytes, toLex (r.epoch, toLex (r.clock, toLex (r.range.start,
    toLex (r.range.stop, byteKey r.updateHash.bytes)))))

/-- The order of the records. -/
def RecordLe (r r' : AcceptanceRecord Hash) : Prop := recordKey r ≤ recordKey r'

instance : DecidableRel RecordLe := fun r r' => inferInstanceAs (Decidable (recordKey r ≤ recordKey r'))

instance : Std.Total RecordLe := ⟨fun r r' => le_total (recordKey r) (recordKey r')⟩

instance : IsTrans (AcceptanceRecord Hash) RecordLe := ⟨fun r _ _ h h' => le_trans (a := recordKey r) h h'⟩

/-- The bytes of a record. -/
def recordBytes : Bytes :=
  r.worker.bytes.toList ++ toBeBytes r.epoch ++ toBeBytes r.clock ++ toBeBytes r.range.start
    ++ toBeBytes r.range.stop ++ r.updateHash.bytes.toList ++ toBeBytes r.flopsEstimated

/-- The hash of the records in their order. -/
def recordsRoot (records : List (AcceptanceRecord Hash)) : D :=
  blake3 ((records.insertionSort RecordLe).flatMap recordBytes)

/-! ## Settlement -/

/-- The slash of a penalty; the jail starts now. -/
def penaltyToSlash (penalty : TrainingPenalty) (nowMs : ℕ) : SlashResult where
  validator := penalty.worker
  offense := .invalidTraining
  slashedAmount := penalty.slashAmount
  jailUntil := satAdd64 nowMs penalty.jailDurationMs

/-- What slashes are sorted by. -/
def slashKey (s : SlashResult) : List ℕ ×ₗ ℕ ×ₗ ℕ :=
  toLex (byteKey s.validator.bytes, toLex (s.slashedAmount, s.jailUntil))

/-- The order of the slashes. -/
def SlashLe (s s' : SlashResult) : Prop := slashKey s ≤ slashKey s'

instance : DecidableRel SlashLe := fun s s' => inferInstanceAs (Decidable (slashKey s ≤ slashKey s'))

instance : Std.Total SlashLe := ⟨fun s s' => le_total (slashKey s) (slashKey s')⟩

instance : IsTrans SlashResult SlashLe := ⟨fun s _ _ h h' => le_trans (a := slashKey s) h h'⟩

/-- The checks of the records and of the penalties. -/
def validate (jobId : Hash) (penalties : List TrainingPenalty) : Except SettlementError Unit :=
  match outcome.accepted.find? (fun record => record.epoch ≠ outcome.epoch) with
  | some record => .error (.recordEpochMismatch record.worker record.epoch outcome.epoch)
  | none =>
    match penalties.find? (fun p => p.epoch ≠ outcome.epoch ∨ p.jobId ≠ jobId) with
    | some p =>
      if p.epoch ≠ outcome.epoch then .error (.penaltyEpochMismatch p.worker p.epoch outcome.epoch)
      else .error (.penaltyJobMismatch p.worker p.jobId jobId)
    | none => .ok ()

/-- Whether the records of a worker are void. -/
def voided (penalties : List TrainingPenalty) (worker : Address) : Bool :=
  penalties.any (fun p => p.voidEpochRecords && p.worker = worker)

/-- The work of the workers: a map from addresses, in the order of their bytes. -/
abbrev WorkerFlops : Type := SortedRows (fun row : Address × ℕ => byteKey row.1.bytes)

/-- The work of a worker so far. -/
def WorkerFlops.get (m : WorkerFlops) (worker : Address) : ℕ :=
  (m.rows.find? (fun row => row.1 = worker)).elim 0 Prod.snd

/-- `*worker_flops.entry(bytes).or_insert(0) += f`. -/
def WorkerFlops.addFlops (m : WorkerFlops) (worker : Address) (f : ℕ) : WorkerFlops :=
  m.put (worker, (m.get worker + f) % 2 ^ 128)

/-- The work of every worker whose records are not void. -/
def workerFlops (voided : Address → Bool) (records : List (AcceptanceRecord Hash)) : WorkerFlops :=
  (records.filter (fun r => !voided r.worker)).foldl
    (fun m r => m.addFlops r.worker r.flopsEstimated) .empty

/-- All work that is not void. -/
def totalFlops (voided : Address → Bool) (records : List (AcceptanceRecord Hash)) : ℕ :=
  (records.filter (fun r => !voided r.worker)).foldl
    (fun total r => (total + r.flopsEstimated) % 2 ^ 128) 0

/-- The share of a worker in the pool. -/
def amount (workerPool total flops : ℕ) : ℕ :=
  if total = 0 then 0 else workerPool * flops / total % 2 ^ 128

/-- Settles an epoch. -/
def settleEpoch (jobId : Hash) (penalties : List TrainingPenalty) (rewardPool : ℕ)
    (spotCheckBps : ℤ) (nowMs : ℕ) :
    Except SettlementError (EpochSettlement D) := do
  validate outcome jobId penalties
  let totalFlopsAccepted := outcome.accepted.foldl (fun acc r => satAdd64 acc r.flopsEstimated) 0
  let bps := (max 0 (min spotCheckBps 10000)).toNat
  let verifierReserve := rewardPool * bps / 10000 % 2 ^ 128
  let workerPool := rewardPool - verifierReserve
  let total := totalFlops (voided penalties) outcome.accepted
  let credits := (workerFlops (voided penalties) outcome.accepted).rows.map
    (fun row => RewardCredit.mk row.1 (amount workerPool total row.2))
  return {
    commit :=
      { jobId := jobId
        epoch := outcome.epoch
        paramsHash := outcome.paramsHash
        recordsRoot := recordsRoot blake3 outcome.accepted
        acceptedCount := outcome.accepted.length
        totalFlopsAccepted := totalFlopsAccepted }
    rewards := credits.filter (fun credit => 0 < credit.amount)
    slashes := (penalties.map (fun p => penaltyToSlash p nowMs)).insertionSort SlashLe
    verifierReserveWei := verifierReserve
    verifierBudgetFlops := totalFlopsAccepted * bps / 10000 % 2 ^ 64 }

end Digest

end Qfc.Ai
