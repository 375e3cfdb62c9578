import QfcCore.Chain.Import

/-!
# A node's handlers

The parts of `qfc-node/src/sync.rs` and `producer.rs` that drive the chain and
the votes of one node: what it does with a block from the network, with a
fetched block, with a vote, and with a block it produced. A handler returns the
node and the votes it broadcasts. Requests to peers, the mempool and the vote
statistics play no part.
-/

namespace Qfc

/-- A node: its chain and the blocks that wait for a parent. -/
structure Node (H X : Type) where
  chain : Chain H X
  pendingBlocks : List (Block H)

/-- The most blocks that wait. -/
def MAX_PENDING_BLOCKS : ℕ := 1000

namespace Node

variable {H X : Type} [HashScheme H] (ex : BlockExecutor H X) (now : ℕ) (n : Node H X) (b : Block H)

/-- The node with another engine. -/
def withEngine (e : ConsensusEngine H) : Node H X :=
  { n with chain := { n.chain with engine := e } }

/-! ## Finality and votes -/

/-- `try_finalize`: record a canonical block with a quorum, and forget the
votes up to its height. -/
def tryFinalize (hash : H) (height : ℕ) : Node H X :=
  if height ≤ n.chain.finalized.1 then n
  else if ¬ n.chain.db.isCanonical hash height then n
  else if ¬ n.chain.engine.checkFinality hash then n
  else
    let c := n.chain.recordFinalized height hash
    if c.finalized.1 > n.chain.finalized.1 then
      { n with chain := { c with engine := c.engine.pruneOldVotes height } }
    else { n with chain := c }

/-- Record that we vote at a height, unless we did before, and then sign the
vote. -/
def signVote (height : ℕ) (hash : H) (b : Block H) (accept : Bool) : Node H X × List (Vote H) :=
  match n.chain.engine.tryRecordOwnVote height hash with
  | (e, false) => (n.withEngine e, [])
  | (e, true) =>
    match e.vote now b accept with
    | .error _ => (n.withEngine e, [])
    | .ok v => (n.withEngine e, [v])

/-- `add_vote` on the node's engine. -/
def holdVote (v : Vote H) : Node H X := n.withEngine (n.chain.engine.addVote v)

/-- Sign a vote, broadcast it and hold it. -/
def castVote (height : ℕ) (hash : H) (b : Block H) (accept : Bool) : Node H X × List (Vote H) :=
  let r := n.signVote now height hash b accept
  (r.2.foldl holdVote r.1, r.2)

/-- `cast_vote_for_block`, also the vote of a producer for its block. -/
def castVoteForBlock : Node H X × List (Vote H) :=
  n.castVote now b.number b.hash b true

/-- Votes on a canonical block. -/
def maybeCastVote (hash : H) (height : ℕ) : Node H X × List (Vote H) :=
  if n.chain.engine.address.isNone then (n, [])
  else if ¬ n.chain.db.isCanonical hash height then (n, [])
  else
    match n.chain.db.getBlockByHash hash with
    | none => (n, [])
    | some b =>
      match n.chain.db.getBlockByHash b.parentHash with
      | none => (n, [])
      | some parent =>
        n.castVote now height hash b (n.chain.engine.validateBlock now b parent).isOk

/-- The checks of `handle_vote`: the voter is registered and its key signed the
vote. -/
def checksVote (v : Vote H) : Bool :=
  match n.chain.engine.validators.find? (fun w => w.address = v.voter) with
  | none => false
  | some w => n.chain.engine.crypto.verifyHashSignature w.publicKey
      (Digest.digest v.toUnsignedVote) v.signature

/-- A vote arrives. -/
def handleVote (v : Vote H) : Node H X × List (Vote H) :=
  if ¬ n.checksVote v then (n, [])
  else
    let exists_ := (n.chain.db.getBlockByHash v.blockHash).isSome
    let n := n.holdVote v
    let n := if exists_ then n.tryFinalize v.blockHash v.blockHeight else n
    if n.chain.engine.isValidator then n.maybeCastVote now v.blockHash v.blockHeight
    else (n, [])

/-! ## Blocks -/

/-- The node after an import. -/
def importBlock : Node H X × Except (ChainError H) H :=
  let r := Chain.importBlock ex now n.chain b
  ({ n with chain := r.1 }, r.2)

/-- One pass of `process_pending_blocks` over the drained queue: the node,
whether a block was imported, and the blocks that still miss a parent. -/
def processPass (now : ℕ) : Node H X → List (Block H) → Node H X × Bool × List (Block H)
  | n, [] => (n, false, [])
  | n, b :: queue =>
    match importBlock ex now n b with
    | (n, .ok _) =>
      let r := processPass now (n.tryFinalize b.hash b.number) queue
      (r.1, true, r.2.2)
    | (n, .error (.invalidParent _ _)) =>
      let r := processPass now n queue
      (r.1, r.2.1, b :: r.2.2)
    | (n, .error _) => processPass now n queue

/-- `process_pending_blocks`: passes until one imports nothing or nothing is
left. A pass that imports shortens the queue, which bounds the passes. -/
def processPending (now : ℕ) : ℕ → Node H X → Node H X
  | 0, n => n
  | fuel + 1, n =>
    if n.pendingBlocks = [] then n
    else
      let r := processPass ex now { n with pendingBlocks := [] } n.pendingBlocks
      let n' := { r.1 with pendingBlocks := r.2.2 }
      if ¬ r.2.1 ∨ r.2.2 = [] then n' else processPending now fuel n'

/-- Imports the waiting blocks that now fit. -/
def processPendingBlocks : Node H X :=
  processPending ex now n.pendingBlocks.length n

/-- Queue a block that misses its parent; a full queue drops its oldest. -/
def queueBlock : Node H X :=
  { n with
    pendingBlocks :=
      (if n.pendingBlocks.length ≥ MAX_PENDING_BLOCKS then n.pendingBlocks.drop 1
        else n.pendingBlocks) ++ [b] }

/-- A block arrives. -/
def handleBlock : Node H X × List (Vote H) :=
  match importBlock ex now n b with
  | (n, .ok _) =>
    let n := processPendingBlocks ex now n
    let r :=
      if n.chain.engine.isValidator && n.chain.db.isCanonical b.hash b.number then
        n.castVoteForBlock now b
      else (n, [])
    (r.1.tryFinalize b.hash b.number, r.2)
  | (n, .error (.invalidParent _ _)) => (n.queueBlock b, [])
  | (n, .error _) => (n, [])

/-- What becomes of a block that `request_missing_blocks` fetched. -/
def handleFetched : Node H X :=
  match importBlock ex now n b with
  | (n, .ok _) => processPendingBlocks ex now n
  | (n, .error (.invalidParent _ _)) =>
    if n.pendingBlocks.length < MAX_PENDING_BLOCKS then
      { n with pendingBlocks := b :: n.pendingBlocks }
    else n
  | (n, .error _) => n

/-- The end of `produce_block`: store the sealed block and vote for it. -/
def handleProduced : Node H X × List (Vote H) :=
  match Chain.storeProducedBlock ex now n.chain b with
  | (c, .ok ()) => castVoteForBlock now { n with chain := c } b
  | (c, .error _) => ({ n with chain := c }, [])

end Node

end Qfc
