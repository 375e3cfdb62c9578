import QfcCore.Consensus.Engine
import QfcCore.Lib.Run
import QfcCore.Types.CodeHash

/-!
# The validator registry

What a node observes of its validators: stakes, reputation, jail flags,
latencies, scores, the epoch it believes in and the cache of recent blocks that
double signing is detected on. All of it is node-local. Every mutator writes to
the first record of an address, and none of them writes the address or the
public key, which is all that the election and the validation of a block read.
Two nodes with one genesis seed and one set of registered pairs therefore
validate alike, whatever they have observed and in whatever order they list the
validators.

The contribution score is a floating-point formula over a record and three
totals, and is a parameter `score`. A slash multiplies a stake by a percentage
in 256 bits and panics when the product does not fit; the registry is then
unchanged.
-/

namespace Qfc

open List

/-- A validator's record: the registered pair, and the fields of
`ValidatorNode` that the engine updates. -/
structure ValidatorRecord extends ValidatorNode where
  stake : U256
  delegatedStake : U256
  delegatorCount : UInt32
  contributionScore : UInt64
  uptime : UInt32
  accuracy : UInt32
  avgLatencyMs : UInt32
  bandwidthMbps : UInt32
  storageProvidedGb : UInt32
  providesCompute : Bool
  hashrate : UInt64
  inferenceScore : UInt64
  tasksCompleted : UInt64
  reputation : UInt32
  lastActive : UInt64
  isJailed : Bool
  jailUntil : UInt64
  blocksProduced : UInt64
  validVotes : UInt64
  invalidVotes : UInt64
deriving DecidableEq

/-- The network state the scores depend on. -/
inductive NetworkState
  | normal
  | congested
  | storageShortage
  | underAttack
deriving DecidableEq

/-- The epoch a node believes in. -/
structure Epoch (H : Type) where
  number : ℕ
  seed : H
  startTime : ℕ

/-- A block as the double-sign cache keeps it. -/
structure BlockRecord (H : Type) where
  hash : H
  producer : Address
  signature : Signature
deriving DecidableEq

/-- Two blocks of one producer at one height. -/
structure DoubleSignEvidence (H : Type) where
  validator : Address
  blockHash1 : H
  blockHash2 : H
  height : ℕ
  signature1 : Signature
  signature2 : Signature
  timestamp : ℕ
deriving DecidableEq

/-- The node-local part of the engine. -/
structure Registry (H : Type) where
  records : List ValidatorRecord
  currentEpoch : Epoch H
  networkState : NetworkState
  /-- The recent blocks by height. -/
  blockCache : ℕ → List (BlockRecord H)
  /-- The evidence rows of the database, by height and validator. -/
  evidence : ℕ → Address → Option (DoubleSignEvidence H)

/-- The cut for double signing. -/
def SLASH_DOUBLE_SIGN_PERCENT : ℕ := 50

/-- A jail time without an end. -/
def JAIL_PERMANENT_MS : UInt64 := 0xFFFFFFFFFFFFFFFF

/-- The jail time for double signing. -/
def JAIL_DOUBLE_SIGN_MS : UInt64 := JAIL_PERMANENT_MS

/-- How many heights are remembered. -/
def CACHE_DEPTH : ℕ := 100

/-- The most blocks remembered per height. -/
def MAX_BLOCKS_PER_HEIGHT : ℕ := 10

namespace ValidatorRecord

/-- `ValidatorNode::new`: a registered pair with a stake and the default
values of the other fields. -/
def new (address : Address) (publicKey : PublicKey) (stake : U256) : ValidatorRecord where
  address := address
  publicKey := publicKey
  stake := stake
  delegatedStake := .zero
  delegatorCount := 0
  contributionScore := 0
  uptime := 10000
  accuracy := 10000
  avgLatencyMs := 100
  bandwidthMbps := 100
  storageProvidedGb := 0
  providesCompute := false
  hashrate := 0
  inferenceScore := 0
  tasksCompleted := 0
  reputation := 5000
  lastActive := 0
  isJailed := false
  jailUntil := 0
  blocksProduced := 0
  validVotes := 0
  invalidVotes := 0

variable (v : ValidatorRecord)

/-- `total_stake`: direct and delegated. -/
def totalStake : U256 := v.stake.satAdd v.delegatedStake

/-- The stakes after a slash of a percentage of the total: the direct stake
first, then the delegated one. `none` is the overflow panic. -/
def slashStake (percent : ℕ) : Option ValidatorRecord :=
  (U256.ofNat? (v.totalStake.val * percent)).map (fun product =>
    let amount := product.divConst 100
    let direct := if amount.val ≤ v.stake.val then amount else v.stake
    let remaining := amount.satSub direct
    { v with
      stake := v.stake.satSub direct
      delegatedStake :=
        if remaining.isZero then v.delegatedStake else v.delegatedStake.satSub remaining })

/-- The reputation after a slash, computed as a signed number. -/
def slashedReputation : UInt32 :=
  let r : Int32 := v.reputation.toInt32 - 2000
  if r < 0 then 0 else r.toUInt32

/-- The jail time is over. -/
def canUnjail (now : UInt64) : Bool :=
  v.isJailed && !(v.isJailed && v.jailUntil == JAIL_PERMANENT_MS) && v.jailUntil ≤ now

end ValidatorRecord

namespace Registry

variable {H : Type}

/-- The registry of an engine that has just been created, over the evidence
rows of its database. -/
def new [Zero H] (records : List ValidatorRecord)
    (evidence : ℕ → Address → Option (DoubleSignEvidence H)) : Registry H where
  records := records
  currentEpoch := ⟨0, 0, 0⟩
  networkState := .normal
  blockCache _ := []
  evidence := evidence

variable (r : Registry H) (validator : Address) (address : Address)

/-- The record of an address: the first one registered under it. -/
def find : Option ValidatorRecord :=
  r.records.find? (fun v => v.address = address)

/-- Writes to the record of an address, if there is one. -/
def update (f : ValidatorRecord → ValidatorRecord) : Registry H :=
  { r with records :=
      r.records.replaceF (fun v => if v.address = address then some (f v) else none) }

/-- Writes what `f` makes of the record of an address; `none` is a panic in
`f`. -/
def replace (f : ValidatorRecord → Option ValidatorRecord) : Option (Registry H) :=
  match r.find address with
  | none => some r
  | some v => (f v).map (fun v' => r.update address (fun _ => v'))

/-- What the election and validation read of a registry. -/
def nodes : List ValidatorNode := r.records.map ValidatorRecord.toValidatorNode

/-- An engine whose registered validators are those of the registry. -/
def engineOn (e : ConsensusEngine H) : ConsensusEngine H :=
  { e with validators := r.nodes }

/-! ## The mutators -/

/-- A validator produced a block. -/
def recordBlockProduced (now : UInt64) (producer : Address) : Registry H :=
  r.update producer (fun v =>
    { v with
      blocksProduced := v.blocksProduced + 1
      lastActive := now
      reputation := min (v.reputation + 10) 10000 })

/-- A validator voted. -/
def recordVote (now : UInt64) (voter : Address) (isValid : Bool) : Registry H :=
  r.update voter (fun v =>
    if isValid then
      { v with
        validVotes := v.validVotes + 1
        accuracy := ((v.accuracy.toUInt64 * 99 + 10000) / 100).toUInt32
        lastActive := now }
    else
      { v with
        invalidVotes := v.invalidVotes + 1
        accuracy := (v.accuracy.toUInt64 * 99 / 100).toUInt32
        lastActive := now })

/-- The mean uptime moves. -/
def updateValidatorUptime (expected actual : UInt64) : Registry H :=
  if expected = 0 then r
  else
    let period := (min (actual * 10000 / expected) 10000).toUInt32
    r.update address (fun v =>
      { v with uptime := ((v.uptime.toUInt64 * 9 + period.toUInt64) / 10).toUInt32 })

/-- The mean latency moves. -/
def recordLatency (latencyMs : UInt32) : Registry H :=
  r.update address (fun v =>
    { v with
      avgLatencyMs := ((v.avgLatencyMs.toUInt64 * 9 + latencyMs.toUInt64) / 10).toUInt32 })

/-- A record after a slash: a percentage of the stake is gone, the reputation
drops, and a positive duration jails the validator. -/
def slashed (now : UInt64) (percent : UInt8) (jailDurationMs : UInt64) (v : ValidatorRecord) :
    Option ValidatorRecord :=
  (v.slashStake percent.toNat).map (fun w =>
    let w := { w with reputation := v.slashedReputation }
    if jailDurationMs = 0 then w
    else
      { w with
        isJailed := true
        jailUntil :=
          if jailDurationMs = JAIL_PERMANENT_MS then JAIL_PERMANENT_MS
          else if now + jailDurationMs < now then JAIL_PERMANENT_MS else now + jailDurationMs })

/-- Cuts the stake and jails. -/
def slashValidator (now : UInt64) (address : Address) (percent : UInt8) (jailDurationMs : UInt64) :
    Option (Registry H) :=
  r.replace address (slashed now percent jailDurationMs)

/-- Frees who can be freed. -/
def processUnjails (now : UInt64) : Registry H :=
  { r with records := r.records.map (fun v =>
      if v.canUnjail now then { v with isJailed := false, jailUntil := 0 } else v) }

/-- A record after double-sign processing: half of the stake and the whole
reputation are gone, and the validator is jailed for good. -/
def doubleSigned (v : ValidatorRecord) : Option ValidatorRecord :=
  (v.slashStake SLASH_DOUBLE_SIGN_PERCENT).map (fun w =>
    { w with isJailed := true, jailUntil := JAIL_DOUBLE_SIGN_MS, reputation := 0 })

/-- `process_double_sign_evidence`: the evidence is not verified. -/
def processDoubleSignEvidence (ev : DoubleSignEvidence H) : Option (Registry H) :=
  (r.replace ev.validator doubleSigned).map (fun r =>
    let row := Function.update (r.evidence ev.height) ev.validator (some ev)
    { r with evidence := Function.update r.evidence ev.height row })

/-- Delegated stake is added. -/
def addDelegatedStake (amount : U256) : Registry H :=
  r.update validator (fun v =>
    { v with
      delegatedStake := v.delegatedStake.satAdd amount
      delegatorCount := v.delegatorCount + 1 })

/-- Delegated stake is taken. -/
def subDelegatedStake (amount : U256) : Registry H :=
  r.update validator (fun v =>
    { v with
      delegatedStake := v.delegatedStake.satSub amount
      delegatorCount := if 0 < v.delegatorCount then v.delegatorCount - 1 else v.delegatorCount })

/-- Who computes. -/
def setProvidesCompute (provides : Bool) : Registry H :=
  r.update validator (fun v => { v with providesCompute := provides })

/-- The hash rate is replaced. -/
def updateHashrate (hashrate : UInt64) : Registry H :=
  r.update validator (fun v => { v with hashrate := hashrate })

/-- Reputation is taken. -/
def reduceReputation (reductionBps : UInt32) : Registry H :=
  r.update address (fun v =>
    { v with reputation := if v.reputation < reductionBps then 0 else v.reputation - reductionBps })

/-- `saturating_add` on `u64`. -/
def satAdd64 (a b : UInt64) : UInt64 := if a + b < a then 0xFFFFFFFFFFFFFFFF else a + b

/-- Inference work is added. -/
def updateInferenceScore (flops tasks : UInt64) : Registry H :=
  r.update validator (fun v =>
    { v with
      inferenceScore := satAdd64 v.inferenceScore flops
      tasksCompleted := satAdd64 v.tasksCompleted tasks })

/-- The score of a record under the network's totals of stake, hashrate and
storage. -/
abbrev Score := ValidatorRecord → ℕ → UInt64 → UInt64 → NetworkState → UInt64

/-- The scores are computed anew. -/
def updateContributionScores (score : Score) (r : Registry H) : Registry H :=
  let totalStake := (r.records.map (fun v => v.totalStake.val % 2 ^ 128)).sum % 2 ^ 128
  let totalHashrate := ((r.records.filter (fun v => v.providesCompute)).map
    ValidatorRecord.hashrate).sum
  let totalStorage := (r.records.map (fun v => v.storageProvidedGb.toUInt64)).sum
  { r with records := r.records.map (fun v =>
      { v with contributionScore :=
          score v totalStake totalHashrate totalStorage r.networkState }) }

/-- An epoch starts. -/
def startEpoch (score : Score) (r : Registry H) (now number : ℕ) (seed : H) : Registry H :=
  updateContributionScores score { r with currentEpoch := ⟨number, seed, now⟩ }

/-! ## The double-sign cache -/

/-- `cache_block`: the block is put last at its height, heights far below the
finalized one are dropped, and a height keeps its first records. -/
def cacheBlock [HashScheme H] (r : Registry H) (finalizedHeight : ℕ) (b : Block H) : Registry H :=
  let cache := Function.update r.blockCache b.number
    (r.blockCache b.number ++ [⟨b.hash, b.header.producer, b.signature⟩])
  let cache := fun h =>
    if CACHE_DEPTH < finalizedHeight ∧ h < finalizedHeight - CACHE_DEPTH then [] else cache h
  { r with blockCache :=
      Function.update cache b.number ((cache b.number).take MAX_BLOCKS_PER_HEIGHT) }

/-- Whether a cached block conflicts with a block: one producer, two hashes. -/
def conflicts [HashScheme H] (b : Block H) (existing : BlockRecord H) : Bool :=
  existing.producer = b.header.producer && existing.hash ≠ b.hash

/-- Evidence, if the producer has signed another block. -/
def checkDoubleSign [HashScheme H] (r : Registry H) (now : ℕ) (b : Block H) :
    Option (DoubleSignEvidence H) :=
  ((r.blockCache b.number).find? (conflicts b)).map (fun existing =>
    ⟨b.header.producer, existing.hash, b.hash, b.number, existing.signature, b.signature, now⟩)

end Registry

/-! ## Runs of the mutators -/

/-- The operations on the registry. -/
inductive RegistryOp (H : Type)
  | recordBlockProduced (now : UInt64) (producer : Address)
  | recordVote (now : UInt64) (voter : Address) (isValid : Bool)
  | updateValidatorUptime (address : Address) (expected actual : UInt64)
  | recordLatency (address : Address) (latencyMs : UInt32)
  | slashValidator (now : UInt64) (address : Address) (percent : UInt8) (jailDurationMs : UInt64)
  | processUnjails (now : UInt64)
  | processDoubleSignEvidence (ev : DoubleSignEvidence H)
  | addDelegatedStake (validator : Address) (amount : U256)
  | subDelegatedStake (validator : Address) (amount : U256)
  | setProvidesCompute (validator : Address) (provides : Bool)
  | updateHashrate (validator : Address) (hashrate : UInt64)
  | reduceReputation (address : Address) (reductionBps : UInt32)
  | updateInferenceScore (validator : Address) (flops tasks : UInt64)
  | updateContributionScores
  | startEpoch (now number : ℕ) (seed : H)
  | cacheBlock (finalizedHeight : ℕ) (b : Block H)

namespace Registry

variable {H : Type} [HashScheme H]

/-- One operation; a panic leaves the registry as it was. -/
def step (score : Score) (r : Registry H) : RegistryOp H → Registry H
  | .recordBlockProduced now producer => r.recordBlockProduced now producer
  | .recordVote now voter isValid => r.recordVote now voter isValid
  | .updateValidatorUptime address expected actual =>
    r.updateValidatorUptime address expected actual
  | .recordLatency address latencyMs => r.recordLatency address latencyMs
  | .slashValidator now address percent jail => (r.slashValidator now address percent jail).getD r
  | .processUnjails now => r.processUnjails now
  | .processDoubleSignEvidence ev => (r.processDoubleSignEvidence ev).getD r
  | .addDelegatedStake validator amount => r.addDelegatedStake validator amount
  | .subDelegatedStake validator amount => r.subDelegatedStake validator amount
  | .setProvidesCompute validator provides => r.setProvidesCompute validator provides
  | .updateHashrate validator hashrate => r.updateHashrate validator hashrate
  | .reduceReputation address reductionBps => r.reduceReputation address reductionBps
  | .updateInferenceScore validator flops tasks => r.updateInferenceScore validator flops tasks
  | .updateContributionScores => r.updateContributionScores score
  | .startEpoch now number seed => r.startEpoch score now number seed
  | .cacheBlock finalizedHeight b => r.cacheBlock finalizedHeight b

/-- A list of operations. -/
abbrev run (score : Score) (r : Registry H) (ops : List (RegistryOp H)) : Registry H :=
  Run.run (step score) r ops

section Nodes

omit [HashScheme H]

/-- The projection of a list is kept when the first record that is replaced
keeps it. -/
theorem map_replaceF {α β : Type} (g : α → β) (p : α → Bool) (f : α → α) (l : List α)
    (h : ∀ v, l.find? p = some v → g (f v) = g v) :
    (l.replaceF (fun v => if p v then some (f v) else none)).map g = l.map g := by
  induction l with
  | nil => rfl
  | cons v l ih =>
    cases hp : p v with
    | true =>
      have hv : g (f v) = g v := h v (by rw [find?_cons, hp])
      simp [hp, hv]
    | false =>
      have hl := ih (fun w hw => h w (by rw [find?_cons, hp, hw]))
      simp [hp, hl]

variable {a : Address} {r r' : Registry H} {f : ValidatorRecord → Option ValidatorRecord}

theorem nodes_update {f : ValidatorRecord → ValidatorRecord}
    (h : ∀ v, r.find a = some v → (f v).toValidatorNode = v.toValidatorNode) :
    (r.update a f).nodes = r.nodes := by
  have hmap := map_replaceF ValidatorRecord.toValidatorNode (fun v => decide (v.address = a)) f
    r.records h
  simpa [nodes, update] using hmap

/-- A replacement that does not panic: the address has no record, or its
record is written. -/
theorem replace_cases (h : r.replace a f = some r') :
    (r.find a = none ∧ r' = r) ∨
      ∃ v v', r.find a = some v ∧ f v = some v' ∧ r' = r.update a (fun _ => v') := by
  unfold replace at h
  cases hv : r.find a with
  | none =>
    rw [hv] at h
    cases h
    exact .inl ⟨rfl, rfl⟩
  | some v =>
    rw [hv] at h
    obtain ⟨v', hv', rfl⟩ := Option.map_eq_some_iff.mp h
    exact .inr ⟨v, v', rfl, hv', rfl⟩

theorem nodes_replace (h : ∀ v v', f v = some v' → v'.toValidatorNode = v.toValidatorNode)
    (hr : r.replace a f = some r') : r'.nodes = r.nodes := by
  obtain ⟨-, rfl⟩ | ⟨v, v', hv, hv', rfl⟩ := replace_cases hr
  · rfl
  · refine nodes_update (fun w hw => ?_)
    rw [hv] at hw
    cases hw
    exact h v v' hv'

variable {v w : ValidatorRecord}

theorem slashStake_node {percent : ℕ} (h : v.slashStake percent = some w) :
    w.toValidatorNode = v.toValidatorNode := by
  obtain ⟨product, -, rfl⟩ := Option.map_eq_some_iff.mp h
  rfl

theorem doubleSigned_node (h : doubleSigned v = some w) :
    w.toValidatorNode = v.toValidatorNode := by
  obtain ⟨u, hu, rfl⟩ := Option.map_eq_some_iff.mp h
  show u.toValidatorNode = v.toValidatorNode
  exact slashStake_node hu

theorem slashed_node {now jailDurationMs : UInt64} {percent : UInt8}
    (h : slashed now percent jailDurationMs v = some w) :
    w.toValidatorNode = v.toValidatorNode := by
  obtain ⟨u, hu, rfl⟩ := Option.map_eq_some_iff.mp h
  have hnode := slashStake_node hu
  dsimp only
  split
  · exact hnode
  · exact hnode

/-- Records changed one by one keep the registered pairs. -/
theorem nodes_map {f : ValidatorRecord → ValidatorRecord}
    (h : ∀ v, (f v).toValidatorNode = v.toValidatorNode) :
    nodes { r with records := r.records.map f } = r.nodes := by
  unfold nodes
  rw [map_map]
  exact map_congr_left (fun v _ => h v)

theorem nodes_updateContributionScores (score : Score) (r : Registry H) :
    (r.updateContributionScores score).nodes = r.nodes :=
  nodes_map (fun _ => rfl)

theorem nodes_processDoubleSignEvidence {ev : DoubleSignEvidence H}
    (h : r.processDoubleSignEvidence ev = some r') : r'.nodes = r.nodes := by
  obtain ⟨u, hu, rfl⟩ := Option.map_eq_some_iff.mp h
  show u.nodes = r.nodes
  exact nodes_replace (fun _ _ => doubleSigned_node) hu

end Nodes

/-- No operation writes an address or a key. -/
theorem nodes_step (score : Score) (r : Registry H) (op : RegistryOp H) :
    (r.step score op).nodes = r.nodes := by
  cases op with
  | slashValidator now address percent jail =>
    show ((r.slashValidator now address percent jail).getD r).nodes = r.nodes
    cases h : r.slashValidator now address percent jail with
    | none => rfl
    | some r' => exact nodes_replace (fun _ _ => slashed_node) h
  | processDoubleSignEvidence ev =>
    show ((r.processDoubleSignEvidence ev).getD r).nodes = r.nodes
    cases h : r.processDoubleSignEvidence ev with
    | none => rfl
    | some r' => exact nodes_processDoubleSignEvidence h
  | processUnjails now =>
    refine nodes_map (fun v => ?_)
    split
    · rfl
    · rfl
  | recordVote now voter isValid =>
    refine nodes_update (fun v _ => ?_)
    split
    · rfl
    · rfl
  | updateValidatorUptime address expected actual =>
    show (r.updateValidatorUptime address expected actual).nodes = r.nodes
    unfold updateValidatorUptime
    split
    · rfl
    · exact nodes_update (fun _ _ => rfl)
  | updateContributionScores => exact nodes_updateContributionScores score r
  | startEpoch now number seed => exact nodes_updateContributionScores score _
  | cacheBlock finalizedHeight b => rfl
  | _ => exact nodes_update (fun _ _ => rfl)

theorem nodes_run (score : Score) (r : Registry H) (ops : List (RegistryOp H)) :
    (r.run score ops).nodes = r.nodes :=
  Run.invariant (P := fun s => s.nodes = r.nodes) rfl
    (fun s op hs => (nodes_step score s op).trans hs) ops

end Registry

/-! ## The order of the list -/

namespace ConsensusEngine

variable {H : Type} [HashScheme H] {l l' : List ValidatorNode}

/-- The search for an address in a list of distinct addresses does not depend
on the order. -/
theorem find_perm (hperm : l.Perm l') (hdistinct : (l.map ValidatorNode.address).Nodup)
    (a : Address) : l.find? (fun v => v.address = a) = l'.find? (fun v => v.address = a) := by
  induction hperm with
  | nil => rfl
  | cons v _ ih => rw [find?_cons, find?_cons, ih (nodup_cons.mp hdistinct).2]
  | swap v w l =>
    have hne : w.address ≠ v.address := by
      intro h
      rw [map_cons, map_cons, h] at hdistinct
      exact (nodup_cons.mp hdistinct).1 mem_cons_self
    by_cases hv : v.address = a
    · have hw : w.address ≠ a := fun h => hne (h.trans hv.symm)
      simp [hv, hw]
    · simp [find?_cons, hv]
  | trans h _ ih ih' => rw [ih hdistinct, ih' ((h.map _).nodup_iff.mp hdistinct)]

/-- The order of the election set. -/
def ByAddress (v w : ValidatorNode) : Prop := v.address.bytes.toList ≤ w.address.bytes.toList

instance : DecidableRel ByAddress := fun v w =>
  inferInstanceAs (Decidable (v.address.bytes.toList ≤ w.address.bytes.toList))

instance : Std.Total ByAddress := ⟨fun v w =>
  List.le_total v.address.bytes.toList w.address.bytes.toList⟩

instance : IsTrans ValidatorNode ByAddress := ⟨fun _ _ _ h h' => List.le_trans h h'⟩

/-- The election set does not depend on the order of the list. -/
theorem insertionSort_perm (hperm : l.Perm l') (hdistinct : (l.map ValidatorNode.address).Nodup) :
    l.insertionSort ByAddress = l'.insertionSort ByAddress := by
  have hp := ((l.perm_insertionSort ByAddress).trans hperm).trans
    (l'.perm_insertionSort ByAddress).symm
  refine Perm.eq_of_pairwise ?_ (l.pairwise_insertionSort ByAddress)
    (l'.pairwise_insertionSort ByAddress) hp
  intro v w hv hw hvw hwv
  have hbytes : v.address.bytes.toList = w.address.bytes.toList := List.le_antisymm hvw hwv
  have haddress : v.address = w.address :=
    congrArg Address.mk (Vector.toList_inj.mp hbytes)
  have hv' := (List.mem_insertionSort ByAddress).mp hv
  have hw' := hperm.mem_iff.mpr ((mem_insertionSort ByAddress).mp hw)
  exact inj_on_of_nodup_map hdistinct hv' hw' haddress

/-- Two engines that agree in what the election and validation read. -/
structure Alike (e e' : ConsensusEngine H) : Prop where
  crypto : e.crypto = e'.crypto
  genesisSeed : e.genesisSeed = e'.genesisSeed
  validators : e.validators.Perm e'.validators
  distinct : (e.validators.map ValidatorNode.address).Nodup

section Alike

variable {e e' : ConsensusEngine H}

omit [HashScheme H] in
theorem Alike.electionSet (h : Alike e e') : e.electionSet = e'.electionSet :=
  insertionSort_perm h.validators h.distinct

theorem Alike.deriveEpochSeed (h : Alike e e') (epoch : ℕ) :
    e.deriveEpochSeed epoch = e'.deriveEpochSeed epoch := by
  unfold ConsensusEngine.deriveEpochSeed
  rw [h.genesisSeed]

omit [HashScheme H] in
theorem Alike.selectProducerWithSeed (h : Alike e e') (slot : ℕ) (seed : H) :
    e.selectProducerWithSeed slot seed = e'.selectProducerWithSeed slot seed := by
  unfold ConsensusEngine.selectProducerWithSeed
  rw [h.electionSet, h.crypto]

theorem Alike.selectProducer (h : Alike e e') (slot : ℕ) :
    e.selectProducer slot = e'.selectProducer slot := by
  unfold ConsensusEngine.selectProducer
  rw [h.deriveEpochSeed]
  simp only [h.selectProducerWithSeed]

theorem Alike.matchProducer (h : Alike e e') (b : Block H) (key : PublicKey) (slots : List ℕ)
    (matched : Bool) : e.matchProducer b key slots matched = e'.matchProducer b key slots matched := by
  induction slots generalizing matched with
  | nil => rfl
  | cons slot slots ih =>
    unfold ConsensusEngine.matchProducer
    simp [h.deriveEpochSeed, h.selectProducerWithSeed, h.crypto, ih]

/-- Engines that agree validate alike, at one clock. -/
theorem Alike.validateBlock (h : Alike e e') (now : ℕ) (b parent : Block H) :
    e.validateBlock now b parent = e'.validateBlock now b parent := by
  unfold ConsensusEngine.validateBlock
  simp [h.matchProducer, find_perm h.validators h.distinct]

end Alike

end ConsensusEngine

/-- **Validation ignores node-local observations.** Two engines with one
genesis seed and the same registered pairs, in any order and with distinct
addresses, give the same verdict on every block and elect the same producer
for every slot, whatever each of them has observed since. -/
theorem validation_ignores_observations {H : Type} [HashScheme H]
    (score score' : Registry.Score) (e e' : ConsensusEngine H) (r r' : Registry H)
    (ops ops' : List (RegistryOp H)) (hcrypto : e.crypto = e'.crypto)
    (hseed : e.genesisSeed = e'.genesisSeed) (hpairs : r.nodes.Perm r'.nodes)
    (hdistinct : (r.nodes.map ValidatorNode.address).Nodup) :
    (∀ now b parent,
      ((r.run score ops).engineOn e).validateBlock now b parent
        = ((r'.run score' ops').engineOn e').validateBlock now b parent) ∧
    ∀ slot, ((r.run score ops).engineOn e).selectProducer slot
      = ((r'.run score' ops').engineOn e').selectProducer slot := by
  have halike : ConsensusEngine.Alike ((r.run score ops).engineOn e)
      ((r'.run score' ops').engineOn e') := by
    refine ⟨hcrypto, hseed, ?_, ?_⟩
    · show (r.run score ops).nodes.Perm (r'.run score' ops').nodes
      rw [Registry.nodes_run, Registry.nodes_run]
      exact hpairs
    · show ((r.run score ops).nodes.map ValidatorNode.address).Nodup
      rw [Registry.nodes_run]
      exact hdistinct
  exact ⟨halike.validateBlock, halike.selectProducer⟩

/-- An engine that knows a seed and accepts every VRF proof. -/
def seededEngine : ConsensusEngine CodeName where
  crypto := ⟨fun _ _ _ => true, fun _ => 3, fun _ _ _ => true⟩
  validators := []
  genesisSeed := some 0
  finalizedHeight := 0
  validatorKey := none
  address := none
  pendingVotes _ := none
  ownVotes _ := none

/-- A validator that owns the address and the key which repeat one byte. -/
def byteRecord (b : UInt8) (stake : U256) : ValidatorRecord :=
  .new ⟨Vector.replicate 20 b⟩ ⟨Vector.replicate 32 b⟩ stake

/-- Two validators, the first with a stake of a thousand. -/
def firstListing : Registry CodeName :=
  .new [byteRecord 1 (.fromU64 1000), byteRecord 2 .zero] (fun _ _ => none)

/-- The same pairs the other way round, without stakes. -/
def otherListing : Registry CodeName :=
  .new [byteRecord 2 .zero, byteRecord 1 .zero] (fun _ _ => none)

/-- One node slashes and jails a validator and starts an epoch, the other sees
nothing of it; both elect the same producer. -/
theorem validation_ignores_observations_slashed :
    ((firstListing.run (fun _ _ _ _ _ => 7)
        [.slashValidator 50 (byteRecord 1 .zero).address 10 3600000,
          .startEpoch 60 5 0]).engineOn seededEngine).selectProducer 8
      = ((otherListing.run (fun _ _ _ _ _ => 0) []).engineOn seededEngine).selectProducer 8 :=
  (validation_ignores_observations _ _ seededEngine seededEngine firstListing otherListing _ _
    rfl rfl (by decide +kernel) (by decide +kernel)).2 8

end Qfc
