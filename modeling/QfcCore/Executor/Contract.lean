import QfcCore.Chain.ExecuteAt
import QfcCore.State.Contract

/-!
# What the executor's programs may write

Every native transaction writes the account of its sender, and credits others.
So under a condition on accounts that receiving funds keeps (`Credits`) and
that does not restrict what the sender does with storage, code and nonce left
alone (`Spends`), all the programs of a transaction write only what the
condition allows; prepayment and penalty also count up the nonce (`Counts`).
Validation writes nothing.
-/

namespace Qfc

open StateProg

variable {H α : Type} {G : Address → Account H → Prop} {U : Undelegation → Prop} {sender : Address}
  {p : StateProg H (StateError H) α}

theorem stateCall_within {Q : α → Prop} (h : Within G U Q p) : Within G U Q (stateCall p) :=
  h.mapErr _

theorem recipientOf_within (tx : Transaction) :
    Allowed G U (recipientOf tx : ExecProg H Address) := by
  unfold recipientOf
  cases tx.recipient <;> trivial

theorem require_within (cond : Bool) (e : ExecutorError H) :
    Allowed G U (require cond e) := by
  unfold require
  cases cond <;> trivial

section Sequences

variable {β : Type} {Q : β → Prop} {f : α → ExecProg H β}

/-- A call, and what follows it. -/
theorem seq_call (h : Allowed G U p) (hf : ∀ a, Within G U Q (f a)) :
    Within G U Q (stateCall p >>= f) :=
  (stateCall_within h).bind (fun a _ => hf a)

/-- A check, and what follows it. -/
theorem seq_require {cond : Bool} {e : ExecutorError H} {f : Unit → ExecProg H β}
    (hf : Within G U Q (f ())) : Within G U Q (require cond e >>= f) :=
  (require_within cond e).bind (fun _ _ => hf)

theorem seq_panic {o : Option α} (hf : ∀ a, Within G U Q (f a)) :
    Within G U Q (Prog.orPanic o >>= f) :=
  Prog.Respects.bind (.orPanic o) (fun a _ => hf a)

end Sequences

namespace Executor

variable (x : Executor H)

/-- The cap only reads. -/
theorem ensureValidatorStakeCap_within (validator : Address) (added : U256) :
    Allowed G U (ensureValidatorStakeCap validator added : ExecProg H Unit) := by
  unfold ensureValidatorStakeCap
  split
  · trivial
  · refine seq_call getTotalStake_within (fun total => ?_)
    split
    · trivial
    · refine seq_call (getStake_within _) (fun stake => ?_)
      refine seq_call (getTotalDelegatedTo_within _) (fun delegated => ?_)
      exact seq_panic (fun _ => require_within _ _)

theorem amountOr_within (tx : Transaction) {all : ExecProg H U256}
    (h : Allowed G U all) : Allowed G U (amountOr tx all) := by
  unfold amountOr
  split
  · trivial
  · exact h

theorem validateType_within (tx : Transaction) (a : Address) :
    Allowed G U (validateType tx a : ExecProg H Unit) := by
  unfold validateType
  split
  · exact (recipientOf_within tx).bind (fun _ _ => trivial)
  · exact seq_call (getStake_within a) (fun _ => require_within _ _)
  · exact require_within _ _
  · refine (recipientOf_within tx).bind (fun validator _ => ?_)
    refine seq_require ?_
    refine seq_call (getDelegation_within a) (fun _ => ?_)
    refine seq_require ?_
    exact seq_call (getStake_within _) (fun _ => require_within _ _)
  · trivial

/-- Validation writes nothing, and returns the sender it found. -/
theorem validateTransaction_within [HashScheme H] (tx : Transaction) :
    Within G U (fun signed => signed.tx = tx ∧ x.senderOf tx = .ok signed.sender)
      (x.validateTransaction tx) := by
  refine seq_require (seq_require ?_)
  cases hsender : x.senderOf tx with
  | error e => trivial
  | ok sender =>
    show Within G U _ (stateCall (getBalance sender) >>= _)
    refine seq_call (getBalance_within sender) (fun _ => ?_)
    refine seq_panic (fun _ => seq_require ?_)
    refine seq_call (getNonce_within sender) (fun _ => ?_)
    refine seq_require ?_
    exact (validateType_within tx sender).bind (fun _ _ => ⟨rfl, rfl⟩)

/-! ## The sender's own transactions -/

section Sender

variable (hs : Spends G sender) (hc : Credits G)

include hs

variable (tx : Transaction)

theorem executeStake_within :
    Allowed G U (executeStake tx sender : ExecProg H _) := by
  refine seq_call (getStake_within sender) (fun _ => ?_)
  refine seq_panic (fun newStake => seq_require ?_)
  refine (ensureValidatorStakeCap_within _ _).bind (fun _ _ => ?_)
  refine seq_call (subBalance_within hs.charges _) (fun _ => ?_)
  exact seq_call (setStake_within hs newStake) (fun _ => trivial)

theorem executeValidatorRegister_within :
    Allowed G U (executeValidatorRegister tx sender : ExecProg H _) := by
  refine seq_call (getStake_within sender) (fun _ => ?_)
  refine seq_require (seq_require ?_)
  refine (ensureValidatorStakeCap_within _ _).bind (fun _ _ => ?_)
  refine seq_call (subBalance_within hs.charges _) (fun _ => ?_)
  refine seq_call (setStake_within hs _) (fun _ => ?_)
  exact seq_call (setContributionScore_within hs _) (fun _ => trivial)

theorem recordDelegation_within (validator : Address) (existing : Option Address) (amount : U256) :
    Allowed G U (recordDelegation sender validator existing amount) := by
  unfold recordDelegation
  split
  · exact addDelegationAmount_within hs _
  · exact setDelegation_within hs _ _

theorem executeDelegate_within :
    Allowed G U (executeDelegate tx sender : ExecProg H _) := by
  refine (recipientOf_within tx).bind (fun validator _ => ?_)
  refine seq_require ?_
  refine seq_call (getDelegation_within sender) (fun existing => ?_)
  refine seq_require ?_
  refine seq_call (getStake_within _) (fun _ => ?_)
  refine seq_require ?_
  refine (ensureValidatorStakeCap_within _ _).bind (fun _ _ => ?_)
  refine seq_call (subBalance_within hs.charges _) (fun _ => ?_)
  exact seq_call (recordDelegation_within hs _ _ _) (fun _ => trivial)

theorem executeUndelegate_within
    (hu : ∀ u : Undelegation, u.unlockAt = x.blockTimestamp / 1000 + UNSTAKE_DELAY_SECS → U u) :
    Allowed G U (x.executeUndelegate tx sender : ExecProg H _) := by
  refine (recipientOf_within tx).bind (fun validator _ => ?_)
  refine (amountOr_within tx (stateCall_within (getDelegationAmount_within _ _))).bind
    (fun amount _ => ?_)
  refine seq_call (getDelegation_within sender) (fun existing => ?_)
  refine seq_require (seq_require ?_)
  refine seq_call (subDelegationAmount_within hs _) (fun _ => ?_)
  exact seq_call (storeUndelegation_within (hu _ rfl)) (fun _ => trivial)

include hc

theorem executeTransfer_within :
    Allowed G U (executeTransfer tx sender : ExecProg H _) :=
  (recipientOf_within tx).bind (fun target _ =>
    seq_call (transfer_within hs.charges hc target tx.value) (fun _ => trivial))

theorem executeUnstake_within :
    Allowed G U (executeUnstake tx sender : ExecProg H _) := by
  refine (amountOr_within tx (stateCall_within (getStake_within sender))).bind (fun amount _ => ?_)
  refine seq_call (getStake_within sender) (fun _ => ?_)
  refine seq_require (seq_panic (fun newStake => ?_))
  refine seq_call (setStake_within hs newStake) (fun _ => ?_)
  exact seq_call (addBalance_within hc sender amount) (fun _ => trivial)

theorem executeValidatorExit_within :
    Allowed G U (executeValidatorExit sender : ExecProg H _) := by
  refine seq_call (getStake_within sender) (fun stake => ?_)
  refine seq_require ?_
  refine seq_call (addBalance_within hc sender stake) (fun _ => ?_)
  exact seq_call (setStake_within hs _) (fun _ => trivial)

/-- A native transaction writes its sender's account and credits others, and
only an `Undelegate` stores a record, that unlocks after the delay. -/
theorem executeNative_within (hu : tx.txType = .undelegate →
      ∀ u : Undelegation, u.unlockAt = x.blockTimestamp / 1000 + UNSTAKE_DELAY_SECS → U u) :
    Allowed G U (x.executeNative tx sender : ExecProg H _) := by
  unfold executeNative
  split
  · exact executeTransfer_within hs hc tx
  · exact executeStake_within hs tx
  · exact executeUnstake_within hs hc tx
  · exact executeValidatorRegister_within hs tx
  · exact executeValidatorExit_within hs hc
  · exact executeDelegate_within hs tx
  · exact x.executeUndelegate_within hs tx (hu ‹_›)
  · refine seq_call (getDelegation_within sender) (fun _ => ?_)
    exact seq_require (trivial)
  all_goals trivial

end Sender

/-! ## Payment -/

section Payment

variable {tx : SignedTransaction H} (hb : Charges G sender) (hn : Counts G sender) (hc : Credits G)

include hb

/-- The fee is taken and the nonce counted. -/
theorem prepay_within (hn : tx.tx.isEvm = false → Counts G sender) (htx : tx.sender = sender) :
    Allowed G U (prepay tx) := by
  subst htx
  refine seq_panic (fun cost => ?_)
  refine seq_call (subBalance_within hb cost) (fun _ => ?_)
  cases hevm : tx.tx.isEvm with
  | true => trivial
  | false => exact stateCall_within (updateAccount_within (hn hevm))

include hc

theorem transferValue_within (tx : Transaction) (target : Address) :
    Allowed G U (transferValue tx sender target : ExecProg H Unit) := by
  unfold transferValue
  split
  · trivial
  · exact stateCall_within (transfer_within hb hc target tx.value)

include hn

theorem penalize_within (htx : tx.sender = sender) (producer : Address) :
    Allowed G U (penalize tx producer) := by
  subst htx
  refine seq_panic (fun cost => ?_)
  refine seq_call (subBalance_within hb cost) (fun _ => ?_)
  refine seq_call (addBalance_within hc producer cost) (fun _ => ?_)
  exact stateCall_within (updateAccount_within hn)

omit hb hn

/-- The settlement counts nothing, but sets the nonce of an EVM transaction. -/
theorem settle_within (hset : tx.tx.isEvm = true →
      ∀ acc, G sender acc → G sender { acc with nonce := tx.tx.nonce + 1 })
    (htx : tx.sender = sender) (producer : Address) (r : ExecutionResult H) :
    Allowed G U (settle tx producer r) := by
  subst htx
  have hnonce : Allowed G U (finalizeNonce tx) := by
    unfold finalizeNonce
    cases hevm : tx.tx.isEvm with
    | true => exact stateCall_within (updateAccount_within (hset hevm))
    | false => trivial
  refine hnonce.bind (fun _ _ => ?_)
  refine seq_call (addBalance_within hc _ _) (fun _ => ?_)
  exact seq_call (addBalance_within hc _ _) (fun _ => trivial)

end Payment

/-! ## The block's own programs -/

/-- Mature records are paid out. -/
theorem processMature_within (hc : Credits G) (us : List Undelegation) :
    Allowed G U (processMature us) := by
  induction us with
  | nil => trivial
  | cons u us ih =>
    refine (addBalance_within hc u.delegator u.amount).attempt.bind (fun r _ => ?_)
    cases r with
    | error e => exact ih
    | ok => exact (deleteUndelegation_within _ _ _).bind (fun _ _ => ih)

end Executor

/-- Rewards only credit. -/
theorem applyBlockRewards_within (hc : Credits G) (number : ℕ) (producer : Address) (fees : U256) :
    Allowed G U (applyBlockRewards number producer fees) := by
  refine Prog.Respects.bind (.orPanic _) (fun share _ => ?_)
  refine Prog.Respects.bind (.orPanic _) (fun reward _ => ?_)
  refine (addBalance_within hc producer reward).bind (fun _ _ => ?_)
  refine Prog.Respects.bind (.orPanic _) (fun treasury _ => ?_)
  split
  · trivial
  · exact addBalance_within hc _ _

end Qfc
