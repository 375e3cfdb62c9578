import QfcCore.Lib.Run
import QfcCore.Ps.Aggregate
import QfcCore.Ps.Store

/-!
# The shard service

`ShardService` of `qfc-ps/src/service.rs`, with the clocks of `clock.rs` and the
checks of the configuration in `lib.rs`. Workers push updates during an epoch; at
its end the entries of every range are aggregated, and the differences applied to
the store.

A method that fails leaves the service as it is at that point, so a method is a
function to a result *and* a service. Two calls follow one another whatever the
first one returned (`Call`, `step`).
-/

namespace Qfc.Ps

/-! ## The configuration -/

/-- `PsConfig`, as far as the service reads it. -/
structure PsConfig where
  trimBeta : Beta
  stalenessBound : ℕ
  slashMultiple : ℕ
  maxWorkersPerRange : ℕ

/-- The checks of the settings. -/
def PsConfig.validate (c : PsConfig) : Except PsError Unit :=
  match TrimmedMean.new c.trimBeta with
  | .error (.aggregation message) => .error (.config ("aggregation failed: " ++ message))
  | .error e => .error e
  | .ok rule =>
    let min := TrimmedMean.minUpdates rule
    if c.maxWorkersPerRange < min then
      .error (.config ("max_workers_per_range " ++ toString c.maxWorkersPerRange
        ++ " below TrimmedMean's minimum viable worker count " ++ toString min ++ " for trim_beta "
        ++ c.trimBeta.display ++ " (every range would thin-skip, ADR-0003)"))
    else if c.slashMultiple < 1 then
      .error (.config "slash_multiple must be >= 1 (ADR-0008: fabrication must be slashable)")
    else if c.stalenessBound < 1 then
      .error (.config ("staleness_bound must be >= 1 (ADR-0006: a zero bound is per-step "
        ++ "lockstep / BSP, which is rejected)"))
    else .ok ()

/-! ## Clocks -/

/-- **The clocks of an epoch**, one for a worker. -/
structure SspClock where
  stalenessBound : ℕ
  clocks : AList (fun _ : Address => ℕ)

namespace SspClock

/-- No worker has a clock. -/
def new (stalenessBound : ℕ) : SspClock := ⟨stalenessBound, ∅⟩

variable (c : SspClock)

/-- The clock of a worker. -/
def workerClock (worker : Address) : Option ℕ := c.clocks.lookup worker

/-- `advance`. An unknown worker is registered first, at zero. -/
def advance (worker : Address) (clock : ℕ) : Except PsError Unit × SspClock :=
  let entry := (c.clocks.lookup worker).getD 0
  if clock < entry then
    (.error (.invalidUpdate ("clock regression for worker " ++ worker.display ++ ": "
      ++ toString clock ++ " < " ++ toString entry)),
      { c with clocks := c.clocks.insert worker entry })
  else (.ok (), { c with clocks := c.clocks.insert worker clock })

/-- The clock ahead of all. -/
def fastestClock : ℕ := (c.clocks.entries.map (fun entry => entry.2)).foldl max 0

/-- `admit`. -/
def admission (workerClock : ℕ) : Except PsError Unit :=
  let floor := c.fastestClock - c.stalenessBound
  if workerClock < floor then .error (.staleUpdate workerClock floor c.stalenessBound) else .ok ()

/-- The end of an epoch. -/
def barrier : SspClock := { c with clocks := ∅ }

end SspClock

/-! ## The service -/

/-- What an epoch yields. -/
structure EpochOutcome (H : Type) where
  epoch : ℕ
  paramsHash : H
  accepted : List (AcceptanceRecord H)
deriving DecidableEq

/-- **The service.** -/
structure ShardService (V H : Type) where
  store : ShardStore V
  config : PsConfig
  epoch : ℕ
  clock : SspClock
  buffer : UpdateBuffer V
  ranges : List ParamRange
  maxStepsPerEpoch : ℕ
  accepted : List (AcceptanceRecord H)

namespace ShardService

variable {V H : Type} (A : Arithmetic V) (blake3 : Bytes → H)

/-- The registered ranges, sorted and each of them once. -/
def sortedRanges (ranges : List ParamRange) : List ParamRange :=
  (ranges.insertionSort ParamRange.Le).destutter (· ≠ ·)

/-- A service for an epoch. -/
def new (store : ShardStore V) (config : PsConfig) (epoch : ℕ) (ranges : List ParamRange)
    (maxStepsPerEpoch : ℕ) : Except PsError (ShardService V H) := do
  config.validate
  if ranges = [] then
    .error (.invalidRange "registered assignment range set must be non-empty")
  else
    let ranges := sortedRanges ranges
    match ranges.find? (fun r => !store.ownedRange.covers r) with
    | some r =>
      .error (.invalidRange ("registered range " ++ r.display ++ " outside owned range "
        ++ store.ownedRange.display))
    | none =>
      match (ranges.zip ranges.tail).find? (fun pair => pair.1.overlaps pair.2) with
      | some pair =>
        .error (.invalidRange ("registered ranges " ++ pair.1.display ++ " and " ++ pair.2.display
          ++ " overlap; assignment ranges must be pairwise disjoint (ADR-0003)"))
      | none =>
        return {
          store := store
          config := config
          epoch := epoch
          clock := .new config.stalenessBound
          buffer := .new config.maxWorkersPerRange
          ranges := ranges
          maxStepsPerEpoch := maxStepsPerEpoch
          accepted := [] }

variable (s : ShardService V H)

/-- The checks of `push` before anything is changed. The registered ranges are
sorted, so `binary_search` finds a range that is one of them. -/
def admits (update : ParamUpdate V) : Except PsError Unit := do
  if update.epoch ≠ s.epoch then
    .error (if update.epoch < s.epoch then .epochClosed update.epoch
      else .epochMismatch s.epoch update.epoch)
  else
    update.validate A
    if update.range ∉ s.ranges then
      .error (.invalidRange ("update range " ++ update.range.display ++ " is not a registered "
        ++ "assignment range (ADR-0003: pushes are admitted only for assignment-layer ranges)"))
    else if 0 < s.maxStepsPerEpoch ∧ s.maxStepsPerEpoch ≤ update.clock then
      .error (.invalidUpdate ("clock " ++ toString update.clock
        ++ " at or above the per-epoch step ceiling " ++ toString s.maxStepsPerEpoch
        ++ " (steps_per_epoch — ADR-0006)"))
    else
      let expected := (s.clock.workerClock update.worker).elim 0 (· + 1)
      if update.clock ≠ expected then
        .error (.invalidUpdate ("clock step violation for worker " ++ update.worker.display
          ++ ": expected " ++ toString expected ++ ", got " ++ toString update.clock
          ++ " (clocks advance exactly one per accepted push, ADR-0006)"))
      else s.clock.admission update.clock

/-- **An update arrives.** -/
def push (update : ParamUpdate V) : Except PsError (AcceptanceRecord H) × ShardService V H :=
  match s.admits A update with
  | .error e => (.error e, s)
  | .ok () =>
    let record := AcceptanceRecord.forUpdate A blake3 update
    match s.buffer.add A update with
    | (.error e, buffer) => (.error e, { s with buffer := buffer })
    | (.ok (), buffer) =>
      match s.clock.advance update.worker update.clock with
      | (.error e, clock) => (.error e, { s with buffer := buffer, clock := clock })
      | (.ok (), clock) =>
        (.ok record,
          { s with buffer := buffer, clock := clock, accepted := s.accepted ++ [record] })

/-- The loop of `end_epoch_with_rule`: the store changes range by range. -/
def aggregateRanges (rule : AggregationRule V) (buffer : UpdateBuffer V) :
    List ParamRange → ShardStore V → Except PsError Unit × ShardStore V
  | [], store => (.ok (), store)
  | range :: rest, store =>
    let updates := buffer.updatesFor range
    if updates.length < rule.minUpdates then aggregateRanges rule buffer rest store
    else
      match rule.aggregate updates range with
      | .error e => (.error e, store)
      | .ok delta =>
        match store.applyDelta A range delta with
        | (.error e, store) => (.error e, store)
        | (.ok (), store) => aggregateRanges rule buffer rest store

/-- Ends the epoch by a rule. -/
def endEpochWithRule (rule : AggregationRule V) :
    Except PsError (EpochOutcome H) × ShardService V H :=
  match aggregateRanges A rule s.buffer s.buffer.ranges s.store with
  | (.error e, store) => (.error e, { s with store := store })
  | (.ok (), store) =>
    (.ok ⟨s.epoch, store.paramsHash A blake3, s.accepted⟩,
      { s with
        store := store
        buffer := s.buffer.clear
        clock := s.clock.barrier
        epoch := (s.epoch + 1) % 2 ^ 64
        accepted := [] })

/-- Ends the epoch by the trimmed mean. -/
def endEpoch : Except PsError (EpochOutcome H) × ShardService V H :=
  match TrimmedMean.new s.config.trimBeta with
  | .error e => (.error e, s)
  | .ok beta => s.endEpochWithRule A blake3 (TrimmedMean.rule A beta)

/-! ## Calls -/

/-- A call of the service. -/
inductive Call (V : Type)
  | push (update : ParamUpdate V)
  | endEpoch

/-- The service after a call, and the updates accepted since the last barrier. -/
def step (state : ShardService V H × List (ParamUpdate V)) :
    Call V → ShardService V H × List (ParamUpdate V)
  | .push update =>
    match state.1.push A blake3 update with
    | (.ok _, s) => (s, state.2 ++ [update])
    | (.error _, s) => (s, state.2)
  | .endEpoch =>
    match state.1.endEpoch A blake3 with
    | (.ok _, s) => (s, [])
    | (.error _, s) => (s, state.2)

end ShardService

end Qfc.Ps
