import QfcCore.Lib.Digest
import QfcCore.Types.Transaction

/-!
# Blocks, receipts and votes

The block types of `qfc-types/src/block.rs`, the receipts of `receipt.rs` and
the votes of `validator.rs`. All are parametrised by the type `H` of hashes:
a block names its parent, its state root and its body roots by hashes, and
the hash of a block is the digest of its header. The body (transactions,
votes, inference proofs, signature) is outside that hash.

An inference proof is read by one function only, which hashes it without its
signature, so it is kept as that byte string and the signature. Heights and
timestamps are natural numbers: nothing below depends on their width.
-/

namespace Qfc

/-- A VRF proof: 32 bytes of output and 64 bytes of proof. -/
structure VrfProof where
  output : Vector UInt8 32
  proof : Vector UInt8 64
deriving DecidableEq

/-- The default proof, all zeros. -/
def VrfProof.zero : VrfProof := ⟨Vector.replicate 32 0, Vector.replicate 64 0⟩

/-- A block header. -/
structure BlockHeader (H : Type) where
  version : ℕ
  number : ℕ
  parentHash : H
  stateRoot : H
  transactionsRoot : H
  receiptsRoot : H
  proofsRoot : H
  producer : Address
  contributionScore : UInt64
  vrfProof : VrfProof
  timestamp : ℕ
  gasLimit : UInt64
  gasUsed : UInt64
  extraData : Bytes
deriving DecidableEq

/-- What a voter decides. -/
inductive VoteDecision
  | accept
  | reject
  | abstain
deriving DecidableEq

/-- Why a voter rejects. -/
inductive RejectReason
  | invalidProducer
  | invalidVRF
  | invalidStateTransition
  | invalidSignature
  | invalidTimestamp
  | blockTooLarge
  | other (reason : String)
deriving DecidableEq

/-- A vote on a block, without its signature. -/
structure UnsignedVote (H : Type) where
  blockHash : H
  blockHeight : ℕ
  voter : Address
  decision : VoteDecision
  rejectReason : Option RejectReason
  timestamp : ℕ
deriving DecidableEq

/-- A vote on a block. -/
structure Vote (H : Type) extends UnsignedVote H where
  signature : Signature
deriving DecidableEq

/-- An inference proof. -/
structure InferenceProof where
  /-- The bytes hashed for the proofs root (`to_bytes_without_signature`). -/
  unsigned : Bytes
  signature : Signature
deriving DecidableEq

/-- A block: a header and a body. -/
structure Block (H : Type) where
  header : BlockHeader H
  transactions : List Transaction
  votes : List (Vote H)
  inferenceProofs : List InferenceProof
  signature : Signature
deriving DecidableEq

/-- The part of a block stored apart from its header. -/
structure BlockBody (H : Type) where
  transactions : List Transaction
  votes : List (Vote H)
  inferenceProofs : List InferenceProof
  signature : Signature
deriving DecidableEq

/-- A block with its hash. -/
structure SealedBlock (H : Type) where
  hash : H
  block : Block H
deriving DecidableEq

/-- The outcome of a transaction as its receipt records it. -/
inductive ReceiptStatus
  | success
  | failure (error : String)
  | outOfGas
  | reverted
deriving DecidableEq

/-- An event emitted by a contract. -/
structure Log (H : Type) where
  address : Address
  topics : List H
  data : Bytes
deriving DecidableEq

/-- A transaction receipt. -/
structure Receipt (H : Type) where
  txHash : H
  txIndex : UInt32
  status : ReceiptStatus
  cumulativeGasUsed : UInt64
  gasUsed : UInt64
  logs : List (Log H)
  contractAddress : Option Address
deriving DecidableEq

/-! ## Hashing -/

/-- **The hash function of the chain.** `H` stands for the 32-byte BLAKE3
hashes, with the all-zero hash and the byte order; the digests are those of
the serialised payloads the chain hashes, and they are collision free. -/
class HashScheme (H : Type) extends Zero H, LinearOrder H where
  /-- Headers, for the block hash. -/
  header : Digest H (BlockHeader H)
  /-- Unsigned transactions, for the transaction hash. -/
  transaction : Digest H UnsignedTransaction
  /-- Byte strings: unsigned inference proofs and contract code. -/
  bytes : Digest H Bytes
  /-- Pairs of hashes, for Merkle roots. -/
  pair : Digest H (H × H)
  /-- A seed with an epoch number, for epoch seeds. -/
  epoch : Digest H (H × ℕ)
  /-- Unsigned votes, for their signatures. -/
  vote : Digest H (UnsignedVote H)

attribute [reducible, instance] HashScheme.header HashScheme.transaction HashScheme.bytes
  HashScheme.pair HashScheme.epoch HashScheme.vote

section Hashing

variable {H : Type} [HashScheme H]

/-- The hash of a transaction: the digest of its unsigned part. -/
def Transaction.hash (tx : Transaction) : H := Digest.digest tx.toUnsignedTransaction

/-- The hash of a block: the digest of its header. -/
def Block.hash (b : Block H) : H := Digest.digest b.header

/-- Two blocks of one hash have one header. Their bodies may differ. -/
theorem Block.hash_inj {b c : Block H} : b.hash = c.hash ↔ b.header = c.header :=
  Digest.digest_inj

theorem Block.hash_ne_zero (b : Block H) : b.hash ≠ 0 := Digest.digest_ne_zero _

/-- One level of the Merkle tree: neighbours hashed in pairs, an odd last one
with itself. -/
def pairUp : List H → List H
  | [] => []
  | [a] => [Digest.digest (a, a)]
  | a :: b :: l => Digest.digest (a, b) :: pairUp l

/-- Levels of the Merkle tree until one hash is left. -/
def merkleLevels : ℕ → List H → H
  | _, [] => 0
  | _, [a] => a
  | 0, a :: _ => a
  | fuel + 1, l => merkleLevels fuel (pairUp l)

/-- `merkle_root`: zero for no hash, and a single hash for itself. -/
def merkleRoot (l : List H) : H := merkleLevels l.length l

end Hashing

namespace Block

variable {H : Type}

/-- The height. -/
abbrev number (b : Block H) : ℕ := b.header.number

/-- The block before. -/
abbrev parentHash (b : Block H) : H := b.header.parentHash

/-- The state after. -/
abbrev stateRoot (b : Block H) : H := b.header.stateRoot

/-- `BlockBody::from_block`. -/
def body (b : Block H) : BlockBody H where
  transactions := b.transactions
  votes := b.votes
  inferenceProofs := b.inferenceProofs
  signature := b.signature

/-- A block put together from the two columns that store it. -/
def ofParts (header : BlockHeader H) (body : BlockBody H) : Block H where
  header := header
  transactions := body.transactions
  votes := body.votes
  inferenceProofs := body.inferenceProofs
  signature := body.signature

end Block

/-- Whether it accepts. -/
def Vote.isAccept {H : Type} (v : Vote H) : Bool := v.decision = .accept

end Qfc
