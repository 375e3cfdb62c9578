import QfcCore.Types.Block

/-!
# A hash scheme to compute with

The results about the chain hold for every collision-free hash scheme. This
module gives one whose names can be computed and compared: the hash of a
payload is its serialisation, behind a tag. Concrete chains are evaluated over
it.
-/

namespace Qfc

open Delimited

instance : Delimited UInt8 := ofInjective UInt8.toNat (fun _ _ h => UInt8.toNat_inj.mp h)

instance : Delimited UInt64 := ofInjective UInt64.toNat (fun _ _ h => UInt64.toNat_inj.mp h)

instance : Delimited U256 := ofInjective U256.val (fun _ _ h => U256.ext h)

instance {n : ℕ} : Delimited (Vector UInt8 n) :=
  ofInjective Vector.toList (fun _ _ h => Vector.toList_inj.mp h)

instance : Delimited Address := ofInjective Address.bytes (by rintro ⟨u⟩ ⟨v⟩ h; cases h; rfl)

instance : Delimited PublicKey := ofInjective PublicKey.bytes (by rintro ⟨u⟩ ⟨v⟩ h; cases h; rfl)

instance : Delimited VrfProof :=
  ofInjective (fun p => (p.output, p.proof)) (by rintro ⟨u, v⟩ ⟨u', v'⟩ h; cases h; rfl)

/-- The discriminant of a transaction type. -/
def TransactionType.code : TransactionType → ℕ
  | .transfer => 0
  | .contractCreate => 1
  | .contractCall => 2
  | .stake => 3
  | .unstake => 4
  | .validatorRegister => 5
  | .validatorExit => 6
  | .delegate => 7
  | .undelegate => 8
  | .claimDelegationRewards => 9
  | .inferenceTask => 10

instance : Delimited TransactionType :=
  ofInjective TransactionType.code (by
    intro a b h
    cases a <;> cases b <;> first | rfl | cases h)

instance : Delimited UnsignedTransaction :=
  ofInjective (fun t => (t.txType, t.chainId, t.nonce, t.recipient, t.value, t.data, t.gasLimit,
    t.gasPrice, t.publicKey)) (by
    rintro ⟨⟩ ⟨⟩ h
    cases h
    rfl)

instance {H : Type} [Delimited H] : Delimited (BlockHeader H) :=
  ofInjective (fun h => (h.version, h.number, h.parentHash, h.stateRoot, h.transactionsRoot,
    h.receiptsRoot, h.proofsRoot, h.producer, h.contributionScore, h.vrfProof, h.timestamp,
    h.gasLimit, h.gasUsed, h.extraData)) (by
    rintro ⟨⟩ ⟨⟩ h
    cases h
    rfl)

instance : Delimited String :=
  ofInjective (fun s => s.toList.map Char.toNat)
    (fun _ _ h => String.toList_inj.mp (List.map_injective_iff.mpr (fun _ _ => Char.toNat_inj.mp) h))

/-- The discriminant of a vote's decision. -/
def VoteDecision.code : VoteDecision → ℕ
  | .accept => 0
  | .reject => 1
  | .abstain => 2

instance : Delimited VoteDecision :=
  ofInjective VoteDecision.code (by
    intro a b h
    cases a <;> cases b <;> first | rfl | cases h)

/-- The discriminant of a reason, with its text. -/
def RejectReason.code : RejectReason → ℕ × String
  | .invalidProducer => (0, "")
  | .invalidVRF => (1, "")
  | .invalidStateTransition => (2, "")
  | .invalidSignature => (3, "")
  | .invalidTimestamp => (4, "")
  | .blockTooLarge => (5, "")
  | .other reason => (6, reason)

instance : Delimited RejectReason :=
  ofInjective RejectReason.code (by
    intro a b h
    cases a <;> cases b <;> first | rfl | (cases h; rfl) | cases h)

instance {H : Type} [Delimited H] : Delimited (UnsignedVote H) :=
  ofInjective (fun v => (v.blockHash, v.blockHeight, v.voter, v.decision, v.rejectReason,
    v.timestamp)) (by
    rintro ⟨⟩ ⟨⟩ h
    cases h
    rfl)

/-- **The scheme of serialised names.** -/
instance codeScheme : HashScheme CodeName where
  header := CodeName.digest (BlockHeader CodeName) 1
  transaction := CodeName.digest UnsignedTransaction 2
  bytes := CodeName.digest Bytes 3
  pair := CodeName.digest (CodeName × CodeName) 4
  epoch := CodeName.digest (CodeName × ℕ) 5
  vote := CodeName.digest (UnsignedVote CodeName) 6

end Qfc
