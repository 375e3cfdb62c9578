import QfcCore.Types.Primitives

/-!
# Stake-weighted governance

The spend proposals of `qfc-ai-coordinator/src/treasury.rs`, the parameter
proposals of `param_governance.rs`, and the four endpoints of
`qfc-rpc/src/server.rs` that reach them. The two kinds of proposals have the
same votes and the same tally, so there is one `Board` of proposals, over what a
proposal asks for. `execute`, `execute_mature`, `cancel` and `pause` are not
reached from any endpoint.

The texts of a request are taken as parsed; a text that does not parse is
refused before anything is read. What a request reads outside the server is in
its `Chain`: the committed stakes and balances, the stakes of the validators and
the clock. Amounts are `u128`, and their sums and products wrap; the conversion
`as_u128` of a larger number panics.
-/

namespace Qfc.Governance

/-- The number of 128-bit values. -/
def u128Size : ℕ := 2 ^ 128

/-- `as_u128`; `none` is the panic. -/
def asU128 (a : U256) : Option ℕ := if a.val < u128Size then some a.val else none

/-- `SpendStatus` and `ParamProposalStatus`. -/
inductive Status
  | active
  | queued (executeAfter : ℕ)
  | executed
  | rejected
  | expired
  | cancelled
deriving DecidableEq

/-- `TreasuryError` and `ParamGovernanceError`, as far as they are raised. -/
inductive GovernanceError (Id : Type)
  | proposalNotFound (id : Id)
  | proposalNotActive
  | votingPeriodExpired
  | alreadyVoted (voter : Address)
  | insufficientStake (need held : ℕ)
  | spendTooLarge (max : ℕ)
  | insufficientBalance
  | changeTooLarge (percent max : ℕ)
  | paused
deriving DecidableEq

/-- A vote: the voter, whether it approves, and the stake that it counts with. -/
structure Vote where
  voter : Address
  approve : Bool
  stake : ℕ
deriving DecidableEq

/-- `SpendProposal` and `ParameterProposal`; `content` is what is proposed. -/
structure Proposal (Id Content : Type) where
  proposalId : Id
  proposer : Address
  content : Content
  description : String
  votes : List Vote
  status : Status
  createdAt : ℕ
  votingDeadline : ℕ
deriving DecidableEq

namespace Proposal

variable {Id Content : Type} (p : Proposal Id Content)

/-- The stake that approves. -/
def stakeFor : ℕ :=
  ((p.votes.filter Vote.approve).map Vote.stake).sum % u128Size

/-- The stake that rejects. -/
def stakeAgainst : ℕ :=
  ((p.votes.filter (fun v => !v.approve)).map Vote.stake).sum % u128Size

/-- More than two thirds of the total stake approve. -/
def passed (totalStake : ℕ) : Bool :=
  totalStake * 2 % u128Size < p.stakeFor * 3 % u128Size

/-- The stake that has not voted could not make the proposal pass. -/
def hopeless (totalStake : ℕ) : Bool :=
  let totalVoted := (p.stakeFor + p.stakeAgainst) % u128Size
  let remaining := totalStake - totalVoted
  (p.stakeFor + remaining) % u128Size * 3 % u128Size ≤ totalStake * 2 % u128Size

/-- The turn of one proposal in `tally`. -/
def tally (timelockMs totalStake now : ℕ) : Proposal Id Content :=
  if p.status ≠ .active then p
  else if p.votingDeadline < now then
    if p.passed totalStake then { p with status := .queued ((now + timelockMs) % 2 ^ 64) }
    else { p with status := .expired }
  else if p.passed totalStake then { p with status := .queued ((now + timelockMs) % 2 ^ 64) }
  else if p.hopeless totalStake then { p with status := .rejected }
  else p

end Proposal

/-! ## The board of proposals -/

/-- The common part of `Treasury` and `ParameterGovernance`. -/
structure Board (Id Content : Type) where
  proposals : Id → Option (Proposal Id Content)
  votingPeriodMs : ℕ
  timelockMs : ℕ
  proposalCounter : ℕ

/-- `u64::to_le_bytes`. -/
def leBytes (n : ℕ) : Bytes := (List.range 8).map fun i => UInt8.ofNat (n / 256 ^ i)

namespace Board

variable {Id Content : Type} [DecidableEq Id]

/-- The end of `propose_spend` and `propose`: the new proposal is entered under
the hash of its proposer and its number. -/
def enter (blake3 : Bytes → Id) (b : Board Id Content) (tag : Bytes) (proposer : Address)
    (content : Content) (description : String) (now : ℕ) : Id × Board Id Content :=
  let proposalCounter := (b.proposalCounter + 1) % 2 ^ 64
  let proposalId := blake3 (proposer.bytes.toList ++ leBytes proposalCounter ++ tag)
  let proposal : Proposal Id Content :=
    { proposalId, proposer, content, description
      votes := []
      status := .active
      createdAt := now
      votingDeadline := (now + b.votingPeriodMs) % 2 ^ 64 }
  (proposalId, { b with
    proposals := Function.update b.proposals proposalId (some proposal)
    proposalCounter := proposalCounter })

/-- A vote is cast. -/
def vote (b : Board Id Content) (proposalId : Id) (voter : Address) (approve : Bool)
    (voterStake now : ℕ) : Except (GovernanceError Id) (Board Id Content) :=
  match b.proposals proposalId with
  | none => .error (.proposalNotFound proposalId)
  | some p =>
    if p.status ≠ .active then .error .proposalNotActive
    else if p.votingDeadline < now then .error .votingPeriodExpired
    else if p.votes.any (fun v => v.voter = voter) then .error (.alreadyVoted voter)
    else
      .ok { b with
        proposals := Function.update b.proposals proposalId
          (some { p with votes := ⟨voter, approve, voterStake⟩ :: p.votes }) }

/-- Closes what can be closed. -/
def tally (b : Board Id Content) (totalStake now : ℕ) : Board Id Content :=
  { b with proposals := fun id => (b.proposals id).map (·.tally b.timelockMs totalStake now) }

end Board

/-! ## Treasury -/

/-- What a spend proposal asks for. -/
structure Spend where
  recipient : Address
  amount : ℕ
deriving DecidableEq

/-- `MIN_PROPOSAL_STAKE` of both modules. -/
def minProposalStake : ℕ := 10000000000000000000000

/-- The most of the treasury a proposal spends. -/
def maxSpendPercent : ℕ := 25

/-- The tag `b"treasury"` in the id of a proposal. -/
def treasuryTag : Bytes := [116, 114, 101, 97, 115, 117, 114, 121]

/-- A proposal to spend. -/
def proposeSpend {Id : Type} [DecidableEq Id] (blake3 : Bytes → Id) (b : Board Id Spend)
    (proposer recipient : Address) (amount : ℕ) (description : String)
    (proposerStake treasuryBalance now : ℕ) :
    Except (GovernanceError Id) (Id × Board Id Spend) :=
  if proposerStake < minProposalStake then
    .error (.insufficientStake minProposalStake proposerStake)
  else if treasuryBalance < amount then .error .insufficientBalance
  else if 0 < treasuryBalance ∧ treasuryBalance * maxSpendPercent % u128Size / 100 < amount then
    .error (.spendTooLarge maxSpendPercent)
  else .ok (b.enter blake3 treasuryTag proposer ⟨recipient, amount⟩ description now)

/-! ## Parameters -/

/-- The parameters that can change. -/
inductive ParameterKey
  | blockReward
  | minValidatorStake
  | blockGasLimit
  | minGasPrice
  | feeProducerPercent
  | feeVotersPercent
  | feeBurnPercent
  | feeTreasuryPercent
  | producerRewardPercent
  | votersRewardPercent
  | inferenceMinersRewardPercent
  | inferenceFeeMinerPercent
  | inferenceFeeValidatorsPercent
  | inferenceFeeBurnPercent
  | slashDoubleSignPercent
  | slashOfflinePercent
  | unstakeDelaySecs
  | minDelegation
  | maxTransactionsPerBlock
deriving DecidableEq

/-- The constants that `get_current_param_value` falls back to. -/
def ParameterKey.default : ParameterKey → ℕ
  | .blockReward => 10000000000000000000
  | .minValidatorStake => 10000000000000000000000
  | .blockGasLimit => 30000000
  | .minGasPrice => 1000000000
  | .feeProducerPercent => 47
  | .feeVotersPercent => 28
  | .feeBurnPercent => 20
  | .feeTreasuryPercent => 5
  | .producerRewardPercent => 60
  | .votersRewardPercent => 25
  | .inferenceMinersRewardPercent => 15
  | .inferenceFeeMinerPercent => 70
  | .inferenceFeeValidatorsPercent => 10
  | .inferenceFeeBurnPercent => 20
  | .slashDoubleSignPercent => 50
  | .slashOfflinePercent => 1
  | .unstakeDelaySecs => 604800
  | .minDelegation => 100000000000000000000
  | .maxTransactionsPerBlock => 10000

/-- What a parameter proposal asks for. -/
structure Change where
  parameter : ParameterKey
  currentValue : ℕ
  proposedValue : ℕ
deriving DecidableEq

/-- The most a proposal changes a value. -/
def maxChangePercent : ℕ := 50

/-- The tag `b"param"` in the id of a proposal. -/
def paramTag : Bytes := [112, 97, 114, 97, 109]

/-- The board and the parameters. -/
structure ParameterGovernance (Id : Type) where
  board : Board Id Change
  overrides : ParameterKey → Option ℕ
  paused : Bool

namespace ParameterGovernance

variable {Id : Type} [DecidableEq Id]

/-- The distance of the proposed value in percent of the current one. -/
def changePercent (currentValue proposedValue : ℕ) : ℕ :=
  let change := if currentValue < proposedValue then proposedValue - currentValue
    else currentValue - proposedValue
  change * 100 % u128Size / currentValue

/-- A proposal to change a parameter. -/
def propose (blake3 : Bytes → Id) (g : ParameterGovernance Id) (proposer : Address)
    (parameter : ParameterKey) (currentValue proposedValue : ℕ) (description : String)
    (proposerStake now : ℕ) : Except (GovernanceError Id) (Id × ParameterGovernance Id) :=
  if g.paused then .error .paused
  else if proposerStake < minProposalStake then
    .error (.insufficientStake minProposalStake proposerStake)
  else if 0 < currentValue ∧ maxChangePercent < changePercent currentValue proposedValue then
    .error (.changeTooLarge (changePercent currentValue proposedValue % 2 ^ 64) maxChangePercent)
  else
    let (id, board) := g.board.enter blake3 paramTag proposer
      ⟨parameter, currentValue, proposedValue⟩ description now
    .ok (id, { g with board := board })

/-- A vote on a parameter. -/
def vote (g : ParameterGovernance Id) (proposalId : Id) (voter : Address) (approve : Bool)
    (voterStake now : ℕ) : Except (GovernanceError Id) (ParameterGovernance Id) :=
  if g.paused then .error .paused
  else do
    let board ← g.board.vote proposalId voter approve voterStake now
    return { g with board := board }

end ParameterGovernance

/-! ## The endpoints -/

/-- What a request reads outside the server. -/
structure Chain where
  stake : Address → U256
  balance : Address → U256
  validators : List U256
  now : ℕ

/-- The total stake of the validators; `none` if a stake does not convert. -/
def Chain.totalStake (c : Chain) : Option ℕ := do
  let stakes ← c.validators.mapM asU128
  return stakes.sum % u128Size

/-- The treasury and the parameter governance of the server. -/
structure Server (Id : Type) where
  treasury : Board Id Spend
  paramGovernance : ParameterGovernance Id

/-- A request. None of them carries a signature. -/
inductive Request (Id : Type)
  | proposeSpend (proposer recipient : Address) (amount : ℕ) (description : String)
  | voteSpend (proposalId : Id) (voter : Address) (approve : Bool)
  | proposeParameter (proposer : Address) (parameter : ParameterKey) (proposedValue : ℕ)
      (description : String)
  | voteParameter (proposalId : Id) (voter : Address) (approve : Bool)
deriving DecidableEq

/-- How a request ends. -/
inductive Response (Id : Type)
  | proposed (id : Id)
  | voted
  | failed (error : GovernanceError Id)
  | panicked
deriving DecidableEq

namespace Server

variable {Id : Type} [DecidableEq Id] (blake3 : Bytes → Id) (s : Server Id) (c : Chain)

/-- `get_current_param_value`. -/
def currentParamValue (key : ParameterKey) : ℕ :=
  (s.paramGovernance.overrides key).getD key.default

/-- The endpoint of spend proposals. -/
def proposeSpend (proposer recipient : Address) (amount : ℕ) (description : String) :
    Server Id × Response Id :=
  match asU128 (c.stake proposer), asU128 (c.balance TREASURY_ADDRESS) with
  | some proposerStake, some treasuryBalance =>
    match Governance.proposeSpend blake3 s.treasury proposer recipient amount description
        proposerStake treasuryBalance c.now with
    | .ok (id, treasury) => ({ s with treasury := treasury }, .proposed id)
    | .error e => (s, .failed e)
  | _, _ => (s, .panicked)

/-- `vote_spend`. The vote stays when the total stake does not convert. -/
def voteSpend (proposalId : Id) (voter : Address) (approve : Bool) : Server Id × Response Id :=
  match asU128 (c.stake voter) with
  | none => (s, .panicked)
  | some voterStake =>
    match s.treasury.vote proposalId voter approve voterStake c.now with
    | .error e => (s, .failed e)
    | .ok treasury =>
      match c.totalStake with
      | none => ({ s with treasury := treasury }, .panicked)
      | some totalStake => ({ s with treasury := treasury.tally totalStake c.now }, .voted)

/-- The endpoint of parameter proposals. -/
def proposeParameter (proposer : Address) (parameter : ParameterKey) (proposedValue : ℕ)
    (description : String) :
    Server Id × Response Id :=
  let currentValue := s.currentParamValue parameter
  match asU128 (c.stake proposer) with
  | none => (s, .panicked)
  | some stake =>
    match s.paramGovernance.propose blake3 proposer parameter currentValue proposedValue
        description stake c.now with
    | .ok (id, paramGovernance) => ({ s with paramGovernance := paramGovernance }, .proposed id)
    | .error e => (s, .failed e)

/-- `vote_parameter`. The vote stays when the total stake does not convert. -/
def voteParameter (proposalId : Id) (voter : Address) (approve : Bool) : Server Id × Response Id :=
  match asU128 (c.stake voter) with
  | none => (s, .panicked)
  | some voterStake =>
    match s.paramGovernance.vote proposalId voter approve voterStake c.now with
    | .error e => (s, .failed e)
    | .ok g =>
      match c.totalStake with
      | none => ({ s with paramGovernance := g }, .panicked)
      | some totalStake =>
        ({ s with paramGovernance := { g with board := g.board.tally totalStake c.now } }, .voted)

/-- A request and its response. -/
def handle : Request Id → Server Id × Response Id
  | .proposeSpend proposer recipient amount description =>
    s.proposeSpend blake3 c proposer recipient amount description
  | .voteSpend proposalId voter approve => s.voteSpend c proposalId voter approve
  | .proposeParameter proposer parameter proposedValue description =>
    s.proposeParameter blake3 c proposer parameter proposedValue description
  | .voteParameter proposalId voter approve => s.voteParameter c proposalId voter approve

end Server

end Qfc.Governance
