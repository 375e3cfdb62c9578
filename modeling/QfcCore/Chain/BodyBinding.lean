import QfcCore.Chain.TxIndex
import QfcCore.Types.Merkle

/-!
# What the block hash binds

The hash of a block is the digest of its header, and the header carries Merkle
roots of the transactions, of the receipts and of the inference proofs.
`produce_block` fills in all three. `validate_block` and `import_block` compare
only the last one, and only where `checksProofs` says so; nothing compares
`transactions_root` or `receipts_root` with the block (`Accepted.withRoots`).
Of accepted blocks whose header has the roots that `produce_block` computes
(`HasRoots`) the hash determines the body and the receipts, up to signatures
and among the bodies of one length: the odd hash at the end of a level is
paired with itself, so a Merkle root does not tell how many hashes there are.
-/

namespace Qfc

open InferenceProof Delimited List

namespace Chain

variable {H X : Type} [HashScheme H] {ex : BlockExecutor H X}

/-- The hashes of a block's transactions, as `produce_block` puts them under
`transactions_root`. -/
def txHashes (b : Block H) : List H := b.transactions.map Transaction.hash

/-- A list of transactions is determined, up to signatures, by the hashes. -/
theorem txHashes_eq_iff {b b' : Block H} :
    txHashes b = txHashes b' ↔
      b.transactions.map Transaction.toUnsignedTransaction =
        b'.transactions.map Transaction.toUnsignedTransaction := by
  have hmap : ∀ d : Block H, txHashes d =
      (d.transactions.map Transaction.toUnsignedTransaction).map Digest.digest := by
    intro d
    rw [map_map]
    rfl
  rw [hmap b, hmap b']
  exact (map_injective_iff.mpr Digest.digest_injective).eq_iff

/-- The receipts that importing a block produces: those of its execution on the
state root of its parent. -/
def importReceipts (ex : BlockExecutor H X) (c : Chain H X) (b : Block H) :
    Option (List (Receipt H)) := do
  let parent ← c.db.getBlockByHash b.parentHash
  let o ← (executeBlock ex c.exec c.db.blocksByHash b parent.stateRoot).2.toOption
  return o.receipts

/-- The transactions root and the receipts root are those that `produce_block`
computes. -/
def HasRoots [Digest H (Receipt H)] (ex : BlockExecutor H X) (c : Chain H X) (b : Block H) : Prop :=
  b.header.transactionsRoot = merkleRoot (txHashes b) ∧
    (importReceipts ex c b).map (fun receipts => merkleRoot (receipts.map Digest.digest))
      = some b.header.receiptsRoot

instance [Digest H (Receipt H)] (ex : BlockExecutor H X) (c : Chain H X) (b : Block H) :
    Decidable (HasRoots ex c b) :=
  inferInstanceAs (Decidable (_ ∧ _))

/-! ## The roots nobody checks -/

/-- An imported block was accepted on its parent. -/
theorem accepted_of_importBlock {c : Chain H X} {now : ℕ} {b : Block H}
    (h : (importBlock ex now c b).2.isOk = true) :
    ∃ parent x o, c.db.getBlockByHash b.parentHash = some parent ∧
      Accepted ex c now b parent x o := by
  have heff : Effect ex c (.importBlock now b) true (importBlock ex now c b).1 :=
    h ▸ step_effect ex c (.importBlock now b)
  generalize (importBlock ex now c b).1 = after at heff
  cases heff with
  | extended _ _ _ hparent hacc | side _ _ _ hparent hacc
  | reorged _ _ _ hparent hacc => exact ⟨_, _, _, hparent, hacc⟩

variable {c : Chain H X} {now : ℕ} {b parent : Block H} {x : X} {o : ExecutionOutcome H}

/-- The block under another transactions and another receipts root. -/
def withRoots (b : Block H) (transactionsRoot receiptsRoot : H) : Block H :=
  { b with header := { b.header with
      transactionsRoot := transactionsRoot
      receiptsRoot := receiptsRoot } }

/-- The loop over the candidate slots reads the producer and the VRF proof. -/
theorem matchProducer_withRoots (e : ConsensusEngine H) (key : PublicKey) (r r' : H)
    (slots : List ℕ) (matched : Bool) :
    e.matchProducer (withRoots b r r') key slots matched
      = e.matchProducer b key slots matched := by
  induction slots generalizing matched with
  | nil => rfl
  | cons slot slots ih =>
    unfold ConsensusEngine.matchProducer
    simp only [ih]
    rfl

/-- A block stays accepted under any transactions and receipts root. -/
theorem Accepted.withRoots (h : Accepted ex c now b parent x o) (r r' : H) :
    Accepted ex c now (withRoots b r r') parent x o := by
  refine ⟨?_, h.executed, h.root_eq, h.gas_eq⟩
  have hvalid := h.valid
  unfold ConsensusEngine.validateBlock at hvalid ⊢
  simp only [matchProducer_withRoots]
  exact hvalid

/-- The receipts of an accepted block, one for each transaction. -/
theorem Accepted.importReceipts_eq (h : Accepted ex c now b parent x o)
    (hparent : c.db.getBlockByHash b.parentHash = some parent) :
    importReceipts ex c b = some o.receipts ∧ o.receipts.length = b.transactions.length := by
  constructor
  · unfold importReceipts
    rw [hparent]
    simp [h.executed, Except.toOption]
  · simpa using congrArg length (ex.receipts_match h.executed)

/-! ## Two accepted blocks of one hash -/

/-- Accepted blocks with one header and equally many inference proofs have the
same proofs, up to signatures. -/
theorem unsignedProofs_eq {c c' : Chain H X} {now now' : ℕ} {b b' parent parent' : Block H}
    {x x' : X} {o o' : ExecutionOutcome H} (hacc : Accepted ex c now b parent x o)
    (hacc' : Accepted ex c' now' b' parent' x' o') (hheader : b.header = b'.header)
    (hlen : b.inferenceProofs.length = b'.inferenceProofs.length) :
    b.inferenceProofs.map unsigned
      = b'.inferenceProofs.map unsigned := by
  by_cases hempty : b.inferenceProofs = []
  · rw [hempty, length_nil] at hlen
    rw [hempty, length_eq_zero_iff.mp hlen.symm]
  · have hempty' : b'.inferenceProofs ≠ [] := by
      intro h
      rw [h, length_nil] at hlen
      exact hempty (length_eq_zero_iff.mp hlen)
    have hroot := (ConsensusEngine.validateBlock_ok hacc.valid).2.2.2
      (by simp [ConsensusEngine.checksProofs, hempty])
    have hroot' := (ConsensusEngine.validateBlock_ok hacc'.valid).2.2.2
      (by simp [ConsensusEngine.checksProofs, hempty'])
    rw [hheader, hroot'] at hroot
    have hdigests := merkleRoot_inj (by simp [hlen]) hroot.symm
    have hmap : ∀ l : List InferenceProof, l.map (fun p => (Digest.digest p.unsigned : H))
        = (l.map unsigned).map Digest.digest := by
      intro l
      rw [map_map]
      rfl
    rw [hmap, hmap] at hdigests
    exact (map_injective_iff.mpr Digest.digest_injective) hdigests

theorem inferenceProofs_eq {l l' : List InferenceProof}
    (hunsigned : l.map unsigned = l'.map unsigned)
    (hsignature : l.map signature = l'.map signature) : l = l' := by
  induction l generalizing l' with
  | nil => exact (map_eq_nil_iff.mp hunsigned.symm).symm
  | cons p l ih =>
    match l' with
    | p' :: l' =>
      obtain ⟨hu, hus⟩ := cons.inj hunsigned
      obtain ⟨hs, hss⟩ := cons.inj hsignature
      have hp : p = p' := by
        cases p
        cases p'
        cases hu
        cases hs
        rfl
      rw [hp, ih hus hss]

/-- **What the hash of an accepted block binds.** Two blocks of one hash that
are imported, and whose header has the roots of the body and of its receipts,
carry the same transactions, up to signatures, have the same receipts and carry
the same inference proofs exactly when they carry equally many transactions and
their inference proofs have the same signatures. -/
theorem importBlock_binds_body [Digest H (Receipt H)] (ex : BlockExecutor H X) (c c' : Chain H X)
    (now now' : ℕ) (b b' : Block H) (hok : (importBlock ex now c b).2.isOk = true)
    (hok' : (importBlock ex now' c' b').2.isOk = true) (hhash : b.hash = b'.hash)
    (hroots : HasRoots ex c b) (hroots' : HasRoots ex c' b') :
    (b.transactions.map Transaction.toUnsignedTransaction
        = b'.transactions.map Transaction.toUnsignedTransaction ∧
      importReceipts ex c b = importReceipts ex c' b' ∧
      b.inferenceProofs = b'.inferenceProofs) ↔
    (b.transactions.length = b'.transactions.length ∧
      b.inferenceProofs.map signature = b'.inferenceProofs.map signature) := by
  obtain ⟨parent, x, o, hparent, hacc⟩ := accepted_of_importBlock hok
  obtain ⟨parent', x', o', hparent', hacc'⟩ := accepted_of_importBlock hok'
  obtain ⟨hreceipts, hcount⟩ := hacc.importReceipts_eq hparent
  obtain ⟨hreceipts', hcount'⟩ := hacc'.importReceipts_eq hparent'
  have hheader : b.header = b'.header := Block.hash_inj.mp hhash
  obtain ⟨htxs, hrs⟩ := hroots
  obtain ⟨htxs', hrs'⟩ := hroots'
  rw [hreceipts, hheader] at hrs
  rw [hreceipts'] at hrs'
  rw [hheader] at htxs
  constructor
  · rintro ⟨htxs, -, hproofs⟩
    exact ⟨by simpa using congrArg length htxs, by rw [hproofs]⟩
  · rintro ⟨hlen, hsignatures⟩
    refine ⟨?_, ?_, ?_⟩
    · exact txHashes_eq_iff.mp
        (merkleRoot_inj (by simp [txHashes, hlen]) (htxs.symm.trans htxs'))
    · have hdigests := merkleRoot_inj (by simp [hcount, hcount', hlen])
        (Option.some.inj (hrs.trans hrs'.symm))
      rw [hreceipts, hreceipts', (map_injective_iff.mpr Digest.digest_injective) hdigests]
    · have hproofs : b.inferenceProofs.length = b'.inferenceProofs.length := by
        simpa using congrArg length hsignatures
      exact inferenceProofs_eq (unsignedProofs_eq hacc hacc' hheader hproofs) hsignatures

/-! ## One header, two bodies -/

instance : Delimited ReceiptStatus :=
  ofInjective (fun s => match s with
    | .success => (0, "")
    | .failure error => (1, error)
    | .outOfGas => (2, "")
    | .reverted => (3, "")) (by
    rintro ⟨⟩ ⟨⟩ h <;> first | rfl | (cases h; rfl) | cases h)

instance : Delimited (Log CodeName) :=
  ofInjective (fun l => (l.address, l.topics, l.data)) (by
    rintro ⟨⟩ ⟨⟩ h
    cases h
    rfl)

instance : Delimited (Receipt CodeName) :=
  ofInjective (fun r => (r.txHash, r.txIndex.toNat, r.status, r.cumulativeGasUsed, r.gasUsed,
    r.logs, r.contractAddress)) (by
    rintro ⟨⟩ ⟨⟩ h
    simp only [Prod.mk.injEq, UInt32.toNat_inj] at h
    simp [h])

instance : Digest CodeName (Receipt CodeName) := CodeName.digest (Receipt CodeName) 7

/-- The block that carries one refused transaction, with the roots of its body
and of its receipts, under a signature. -/
def txFirstRooted (signature : Signature) : Block CodeName :=
  { txFirst.2 with
    header := { txFirst.2.header with
      transactionsRoot := merkleRoot (txHashes txFirst.2)
      receiptsRoot := merkleRoot (((importReceipts sampleConfig.blockExecutor txNode
        txFirst.2).getD []).map Digest.digest) }
    signature := signature }

/-- Two deliveries that differ in the block's signature only. -/
theorem importBlock_binds_body_signature :
    importReceipts sampleConfig.blockExecutor txNode (txFirstRooted Signature.zero)
        = importReceipts sampleConfig.blockExecutor txNode (txFirstRooted (sampleSignature 7)) ∧
      (importReceipts sampleConfig.blockExecutor txNode
        (txFirstRooted Signature.zero)).map length = some 1 :=
  ⟨((importBlock_binds_body sampleConfig.blockExecutor txNode txNode 100000 100000
    (txFirstRooted Signature.zero) (txFirstRooted (sampleSignature 7)) (by decide +kernel)
    (by decide +kernel) rfl (by decide +kernel) (by decide +kernel)).mpr ⟨rfl, rfl⟩).2.1,
    by decide +kernel⟩

/-- The header of the first block over another transaction. -/
def txFirstSwapped : Block CodeName :=
  { txFirst.2 with transactions :=
      [sampleTx .transfer 1 0 (some (sampleAddress 3)) (sampleAmount 7) 21000 (sampleAmount 0)] }

/-- One header, two bodies, and the node accepts either; neither root is that of
the first one. -/
theorem importBlock_swapped_body :
    (importBlock sampleConfig.blockExecutor 100000 txNode txFirst.2).2.isOk = true ∧
      (importBlock sampleConfig.blockExecutor 100000 txNode txFirstSwapped).2.isOk = true ∧
      txFirst.2.hash = txFirstSwapped.hash ∧
      txFirst.2.transactions.map Transaction.toUnsignedTransaction
        ≠ txFirstSwapped.transactions.map Transaction.toUnsignedTransaction ∧
      txFirst.2.header.transactionsRoot ≠ merkleRoot (txHashes txFirst.2) ∧
      (importReceipts sampleConfig.blockExecutor txNode txFirst.2).map
        (fun receipts => merkleRoot (receipts.map Digest.digest))
          ≠ some txFirst.2.header.receiptsRoot := by
  decide +kernel

end Chain

end Qfc
