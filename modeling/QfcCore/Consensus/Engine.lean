import QfcCore.Types.Block

/-!
# The consensus engine

The parts of `qfc-consensus/src/engine.rs` that decide which blocks are valid
and when a block is final: the election of the producer of a slot, the
validation of a block against its parent, and the votes. Scores, reputation,
jailing and the double-sign cache are node-local observations that none of
these functions reads.

`now` is the wall clock, an argument of every function that reads it.
-/

namespace Qfc

/-- A registered validator: the two fields of `ValidatorNode` that validation
and finality read. -/
structure ValidatorNode where
  address : Address
  publicKey : PublicKey
deriving DecidableEq

/-- The engine's errors. -/
inductive ConsensusError
  | invalidStateTransition
  | invalidTimestamp
  | invalidProducer
  | invalidVrfProof
  | blockTooLarge
  | genesisSeedUnset
  | notValidator
deriving DecidableEq

/-- The signature functions of the crypto crate that validation calls. -/
structure ConsensusCrypto (H : Type) where
  /-- `vrf_verify_with_seed`. -/
  vrfVerifyWithSeed : PublicKey → H → VrfProof → Bool
  /-- The first eight bytes of a seed, read little endian. -/
  firstWord : H → UInt64
  /-- `verify_hash_signature`. -/
  verifyHashSignature : PublicKey → H → Signature → Bool

/-- The engine's state. -/
structure ConsensusEngine (H : Type) where
  crypto : ConsensusCrypto H
  validators : List ValidatorNode
  genesisSeed : Option H
  finalizedHeight : ℕ
  /-- What our key signs a hash with, when the node is a validator. -/
  validatorKey : Option (H → Signature)
  /-- Our address, when the node is a validator. -/
  address : Option Address
  pendingVotes : H → Option (List (Vote H))
  ownVotes : ℕ → Option H

/-- The time between two blocks. -/
def BLOCK_INTERVAL_MS : ℕ := 5000

/-- The time of an epoch. -/
def EPOCH_DURATION_MS : ℕ := 10000

/-- How far ahead a block may be. -/
def MAX_TIMESTAMP_DRIFT_MS : ℕ := 1500

/-- The most transactions of a block. -/
def MAX_TRANSACTIONS_PER_BLOCK : ℕ := 10000

/-- The most proofs of a block. -/
def MAX_INFERENCE_PROOFS_PER_BLOCK : ℕ := 500

namespace ConsensusEngine

variable {H : Type} [HashScheme H]

/-! ## The election -/

variable (b : Block H) (e : ConsensusEngine H) (slot : ℕ)

/-- The seed an epoch draws from. -/
def deriveEpochSeed (epoch : ℕ) : Except ConsensusError H :=
  match e.genesisSeed with
  | none => .error .genesisSeedUnset
  | some genesis => .ok (Digest.digest (genesis, epoch))

/-- The slot of a time. -/
def slotOfTimestamp (timestamp : ℕ) : ℕ := timestamp / BLOCK_INTERVAL_MS

/-- The epoch of a slot. -/
def epochOfSlot : ℕ := slot / (EPOCH_DURATION_MS / BLOCK_INTERVAL_MS)

/-- `election_set`: the registered validators in address order. -/
def electionSet : List ValidatorNode :=
  e.validators.insertionSort (fun v w => v.address.bytes.toList ≤ w.address.bytes.toList)

/-- `select_producer_with_seed`: round robin over the election set, from an
offset the seed gives. -/
def selectProducerWithSeed (seed : H) : Option Address :=
  let set := e.electionSet
  (set[(slot + (e.crypto.firstWord seed).toNat) % 2 ^ 64 % set.length]?).map
    ValidatorNode.address

/-- `select_producer`: `none` when the genesis seed is unset or nobody is
registered. -/
def selectProducer : Option Address :=
  match e.deriveEpochSeed (epochOfSlot slot) with
  | .ok seed => e.selectProducerWithSeed slot seed
  | .error _ => none

/-! ## Validation -/

/-- The loop of `validate_block` over the candidate slots: whether a slot
elected the producer, and whether the VRF proof verified for one that did. -/
def matchProducer (e : ConsensusEngine H) (b : Block H) (key : PublicKey) :
    List ℕ → Bool → Except ConsensusError (Bool × Bool)
  | [], matched => .ok (matched, false)
  | slot :: slots, matched => do
    let seed ← e.deriveEpochSeed (epochOfSlot slot)
    if e.selectProducerWithSeed slot seed ≠ some b.header.producer then
      e.matchProducer b key slots matched
    else if key = PublicKey.zero ∨ e.crypto.vrfVerifyWithSeed key seed b.header.vrfProof then
      return (true, true)
    else
      e.matchProducer b key slots true

/-- The root of a block's inference proofs. -/
def expectedProofsRoot : H :=
  merkleRoot (b.inferenceProofs.map (fun p => Digest.digest p.unsigned))

/-- Whether a block's proofs root is to be checked: from version 2 on, or when
it carries proofs. -/
def checksProofs : Bool := 2 ≤ b.header.version || !b.inferenceProofs.isEmpty

/-- `validate_block`: everything is read off the block, its parent and the
registered validators. -/
def validateBlock (now : ℕ) (b parent : Block H) : Except ConsensusError Unit := do
  if b.number ≠ parent.number + 1 then throw .invalidStateTransition
  if b.parentHash ≠ parent.hash then throw .invalidStateTransition
  if b.header.timestamp > now + MAX_TIMESTAMP_DRIFT_MS then throw .invalidTimestamp
  if b.header.timestamp ≤ parent.header.timestamp then throw .invalidTimestamp
  let key ← match e.validators.find? (fun v => v.address = b.header.producer) with
    | some v => pure v.publicKey
    | none => throw .invalidProducer
  let slot := slotOfTimestamp b.header.timestamp
  let candidates :=
    if b.header.timestamp % BLOCK_INTERVAL_MS < MAX_TIMESTAMP_DRIFT_MS ∧ slot > 0 then
      [slot, slot - 1]
    else [slot]
  let (matched, vrfOk) ← e.matchProducer b key candidates false
  if ¬ matched then throw .invalidProducer
  if ¬ vrfOk then throw .invalidVrfProof
  if b.transactions.length > MAX_TRANSACTIONS_PER_BLOCK then throw .blockTooLarge
  if checksProofs b then
    if b.header.proofsRoot ≠ expectedProofsRoot b then throw .invalidStateTransition
    if b.inferenceProofs.length > MAX_INFERENCE_PROOFS_PER_BLOCK then throw .blockTooLarge

/-- What a valid block guarantees: it is one above the parent it names, its
transactions fit the block size, and its proofs root is right where it is
checked. -/
theorem validateBlock_ok {e : ConsensusEngine H} {now : ℕ} {b parent : Block H}
    (h : e.validateBlock now b parent = .ok ()) :
    b.number = parent.number + 1 ∧ b.parentHash = parent.hash ∧
      b.transactions.length ≤ MAX_TRANSACTIONS_PER_BLOCK ∧
      (checksProofs b = true → b.header.proofsRoot = expectedProofsRoot b) := by
  unfold validateBlock at h
  simp only [bind, Except.bind, pure, Except.pure, throw, throwThe, MonadExceptOf.throw] at h
  -- every failed check has thrown, so only the branch that passes them all is left
  repeat' split at h
  all_goals first | contradiction | skip
  all_goals simp_all

/-! ## Votes -/

/-- Whether this node has a key. -/
def isValidator : Bool := e.validatorKey.isSome

/-- `vote`: an accepting or rejecting vote of this node. -/
def vote (now : ℕ) (b : Block H) (accept : Bool) : Except ConsensusError (Vote H) :=
  match e.validatorKey, e.address with
  | none, _ => .error .notValidator
  | some _, none => .error .notValidator
  | some sign, some voter =>
    let unsigned : UnsignedVote H :=
      { blockHash := b.hash, blockHeight := b.number, voter := voter,
        decision := if accept then .accept else .reject,
        rejectReason := if accept then none else some .invalidStateTransition,
        timestamp := now }
    .ok { unsigned with signature := sign (Digest.digest unsigned) }

/-- `add_vote`: at most one vote per voter for each block. -/
def addVote (v : Vote H) : ConsensusEngine H :=
  let votes := (e.pendingVotes v.blockHash).getD []
  { e with
    pendingVotes := Function.update e.pendingVotes v.blockHash
      (some (if votes.any (fun w => w.voter = v.voter) then votes else votes ++ [v])) }

/-- `try_record_own_vote`: whether this is our first vote at the height, which
is then recorded. -/
def tryRecordOwnVote (height : ℕ) (hash : H) : ConsensusEngine H × Bool :=
  match e.ownVotes height with
  | some _ => (e, false)
  | none => ({ e with ownVotes := Function.update e.ownVotes height (some hash) }, true)

/-- The accept votes of registered validators held for a block. -/
def acceptCount (votes : List (Vote H)) : ℕ :=
  ((votes.filter Vote.isAccept).filter
    (fun v => e.validators.any (fun w => w.address = v.voter))).length

/-- `check_finality`: accept votes of at least 67% of the registered
validators are held for the block. -/
def checkFinality (hash : H) : Bool :=
  match e.pendingVotes hash with
  | none => false
  | some votes =>
    if e.validators.length = 0 then false
    else 67 * e.validators.length ≤ 100 * e.acceptCount votes

/-- `prune_old_votes`: drop the votes at or below a finalized height. -/
def pruneOldVotes (height : ℕ) : ConsensusEngine H :=
  { e with
    pendingVotes := fun h => (e.pendingVotes h).filter
      (fun votes => (votes.head?.map (fun v => decide (height < v.blockHeight))).getD false)
    ownVotes := fun n => if height < n then e.ownVotes n else none }

end ConsensusEngine

end Qfc
