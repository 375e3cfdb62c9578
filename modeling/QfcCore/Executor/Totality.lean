import QfcCore.Executor.StakeCap
import QfcCore.State.Growth

/-!
# Which blocks execute without a panic

Amounts are multiplied and added with operators that panic on overflow, and
the operands come from whoever sends a transaction. Validation panics on the
total cost, before it compares it with the balance; execution panics on sums of
stake; the fees of a block are summed and multiplied by a percentage.

Nothing else panics. So a block goes through if its transactions have costs
below `2 ^ 256`, if there is room for the stake they add, and if the gas and
the fees of the block, at the most that each transaction can use, fit.
-/

namespace Qfc

open StateDB Transaction Prog U256

variable {H : Type}

open Prog

/-! ## Programs -/

namespace StateProg

variable {α : Type}

/-- A program that does not panic. -/
abbrev Quiet {ε : Type} (p : StateProg H ε α) : Prop := p.Calm (fun _ => True)

section

variable (a : Address)
include a

theorem getAccount_calm : Quiet (getAccount a : StateProg H (StateError H) _) := by
  intro r
  cases r <;> trivial

theorem setAccount_calm (acc : Account H) :
    Quiet (setAccount a acc : StateProg H (StateError H) _) := by
  intro r
  cases r <;> trivial

/-- A method that reads one account and returns something of it. -/
theorem read_calm (f : Account H → α) :
    Quiet (getAccount a >>= fun acc => pure (f acc) : StateProg H (StateError H) _) :=
  (getAccount_calm a).bind (fun _ _ => trivial)

theorem updateAccount_calm (f : Account H → Account H) :
    Quiet (updateAccount a f : StateProg H (StateError H) _) :=
  (getAccount_calm a).bind (fun _ _ => setAccount_calm a _)

theorem subBalance_calm (amount : U256) :
    Quiet (subBalance a amount : StateProg H (StateError H) _) := by
  refine (getAccount_calm a).bind (fun acc _ => ?_)
  cases acc.subBalance amount with
  | none => trivial
  | some acc' => exact setAccount_calm a acc'

end

theorem transfer_calm (source target : Address) (amount : U256) :
    Quiet (transfer source target amount : StateProg H (StateError H) _) := by
  unfold transfer
  split
  · trivial
  · refine (getAccount_calm source).bind (fun _ _ => ?_)
    split
    · trivial
    · exact (subBalance_calm source amount).bind (fun _ _ => updateAccount_calm target _)

theorem subDelegationAmount_calm (a : Address) (amount : U256) :
    Quiet (subDelegationAmount a amount : StateProg H (StateError H) _) := by
  refine (getAccount_calm a).bind (fun acc _ => ?_)
  cases acc.subDelegatedAmount amount with
  | none => trivial
  | some acc' => exact (setAccount_calm a acc').bind (fun _ _ => trivial)

end StateProg

open StateProg

theorem calm_call {α β : Type} {p : StateProg H (StateError H) α} (hp : Quiet p)
    {f : α → ExecProg H β} {Q : β → Prop} (hf : ∀ a, (f a).Calm Q) : (stateCall p >>= f).Calm Q :=
  (hp.mapErr _).bind fun a _ => hf a

theorem recipientOf_calm (tx : Transaction) : Quiet (recipientOf tx : ExecProg H _) := by
  unfold recipientOf
  cases tx.recipient <;> trivial

theorem require_calm (c : Bool) (e : ExecutorError H) : (require c e).Calm (fun _ => c = true) := by
  cases c
  · trivial
  · exact rfl

/-! ## Native transactions -/

namespace Executor

/-- The most gas a native transaction uses. -/
def NATIVE_GAS : ℕ := 63000

/-- The most gas a transaction uses, by its receipt. -/
def gasBound (tx : Transaction) : ℕ := max tx.gasLimit.toNat NATIVE_GAS

variable (x : Executor H) (tx : Transaction) (sender : Address)

/-- A result within the bound of its transaction. -/
abbrev GasFits (r : ExecutionResult H) : Prop := r.gasUsed.toNat ≤ gasBound tx

theorem gasFits_ofSuccess {gas : UInt64} (h : gas.toNat ≤ NATIVE_GAS) :
    GasFits tx (.ofSuccess gas : ExecutionResult H) :=
  h.trans (le_max_right _ _)

/-- A native transaction that adds no stake does not panic. -/
theorem executeNative_calm (hadds : tx.addsStake = false) (hevm : tx.isEvm = false) :
    (x.executeNative tx sender : ExecProg H _).Calm (GasFits tx) := by
  have hamount : ∀ {p : StateProg H (StateError H) U256}, Quiet p →
      Quiet (amountOr tx (stateCall p)) := by
    intro p hp
    unfold amountOr
    split
    · trivial
    · exact hp.mapErr _
  unfold executeNative
  unfold addsStake at hadds
  unfold isEvm at hevm
  cases htype : tx.txType <;> simp only [htype] at hadds hevm ⊢
  case transfer =>
    refine (recipientOf_calm tx).bind (fun target _ => ?_)
    exact calm_call (transfer_calm _ _ _) fun _ => gasFits_ofSuccess tx (by decide)
  case unstake =>
    refine (hamount (read_calm _ _)).bind (fun amount _ => ?_)
    refine calm_call (read_calm _ _) fun stake => (require_calm _ _).bind fun _ hle => ?_
    -- the check before it excludes the underflow
    rw [sub?, if_pos (of_decide_eq_true hle)]
    refine calm_call (updateAccount_calm _ _) fun _ => ?_
    exact calm_call (updateAccount_calm _ _) fun _ => gasFits_ofSuccess tx (by decide)
  case validatorExit =>
    refine calm_call (read_calm _ _) fun stake => (require_calm _ _).bind fun _ _ => ?_
    refine calm_call (updateAccount_calm _ _) fun _ => ?_
    exact calm_call (updateAccount_calm _ _) fun _ => gasFits_ofSuccess tx (by decide)
  case undelegate =>
    refine (recipientOf_calm tx).bind (fun validator _ => (hamount (read_calm _ _)).bind fun _ _ => ?_)
    refine calm_call (read_calm _ _) fun existing => (require_calm _ _).bind fun _ _ => ?_
    refine (require_calm _ _).bind (fun _ _ => ?_)
    refine calm_call (subDelegationAmount_calm _ _) fun _ => fun _ => ?_
    exact gasFits_ofSuccess tx (by decide)
  case claimDelegationRewards =>
    refine calm_call (read_calm _ _) fun existing => (require_calm _ _).bind fun _ _ => ?_
    exact gasFits_ofSuccess tx (by decide)
  case inferenceTask => exact gasFits_ofSuccess tx (by decide)
  all_goals cases hadds
  all_goals cases hevm

/-! ## Transactions that add stake -/

variable [HashScheme H] [Digest H (TrieNode H (Cell H))]

open StateDB

/-- Stake and delegation of an account are at most `W`. -/
abbrev Within (W : Address → ℕ) (a : Address) (acc : Account H) : Prop :=
  acc.getStake.val + acc.getDelegatedAmount.val ≤ W a

variable {s : StateDB H}

section Stake

variable {W : Address → ℕ} {cols : StateColumns H}

/-- The total over the working trie is at most the sum of the bounds. -/
theorem getTotalStake_le (h : Guarded (Within W) cols s) :
    ∃ total, s.getTotalStake = .ok total ∧ total.val ≤ ∑ a, W a := by
  obtain ⟨l, hl⟩ := h.stored.stored.uncached_refines
  refine ⟨_, hl.getTotalStake_eq, (min_le_left _ _).trans ?_⟩
  exact Finset.sum_le_sum fun a _ => h.working a _ (hl.trieAccount_eq a)

theorem read_safe {α : Type} (h : Guarded (Within W) cols s) (a : Address) (f : Account H → α) :
    ((stateCall (getAccount a >>= fun acc => pure (f acc)) : ExecProg H α).run exec).Safe s
      (fun v s' => (∃ acc, Within W a acc ∧ v = f acc) ∧ Guarded (Within W) cols s') := by
  obtain ⟨hpost, hG⟩ := Guarded.exec (U := fun _ => True) (.getAccount a) s h trivial
  obtain ⟨acc, cache, hget, -, -⟩ := h.stored.stored.getAccount_eq a
  change ∀ acc, (s.getAccount a).1 = .ok acc → _ at hpost
  change Guarded _ _ (s.getAccount a).2 at hG
  show Act.Safe (fun s => run exec (mapErr ExecutorError.state
    (Prog.bind (Prog.ofExcept (s.getAccount a).1) fun acc => pure (f acc))) (s.getAccount a).2) s _
  unfold Act.Safe
  dsimp only
  rw [hget] at hpost hG ⊢
  exact ⟨⟨acc, (hpost acc rfl).2, rfl⟩, hG⟩

section

variable {α : Type} {Q : α → StateDB H → Prop} {f : Unit → ExecProg H α}

theorem require_safe {c : Bool} {e : ExecutorError H} (hf : ((f ()).run exec).Safe s Q) :
    ((require c e >>= f).run exec).Safe s Q := by
  cases c
  · trivial
  · exact hf

theorem cap_safe {added : U256} {Q : α → Prop} (h : Guarded (Within W) cols s)
    (hbound : 20 * (∑ a, W a + added.val) < u256Size) (hf : (f ()).Calm Q) (validator : Address) :
    ((ensureValidatorStakeCap validator added >>= f).run exec).Safe s (fun a _ => Q a) := by
  refine safe_run_bind (Act.Safe.mono (Q := fun _ _ => True) ?_ fun _ s' _ => hf.run s')
  unfold ensureValidatorStakeCap
  split
  · trivial
  · obtain ⟨total, htotal, hle⟩ := getTotalStake_le h
    have hmax : maxValidatorStake (total.satAdd added) ≠ none := by
      have hsat : saturated total.val = total :=
        ext (min_eq_left (Nat.le_sub_one_of_lt total.isLt))
      rw [← hsat]
      exact Ledger.maxValidatorStake_ne_none (by omega)
    show Act.Safe (fun s => Prog.run exec (Prog.bind (Prog.mapErr ExecutorError.state
      (ofExcept s.getTotalStake)) _) s) s _
    unfold Act.Safe
    dsimp only
    rw [htotal]
    refine Calm.run (Q := fun _ => True) ?_ s
    show Calm _ (if total.isZero then pure () else _)
    split
    · trivial
    · refine calm_call (read_calm _ _) fun stake => ?_
      have hdelegated : (getTotalDelegatedTo validator : StateProg H (StateError H) _).Calm
          (fun _ => True) := by
        intro r
        cases r <;> trivial
      refine calm_call hdelegated fun delegated => ?_
      obtain ⟨maxAllowed, hmax⟩ := Option.ne_none_iff_exists'.mp hmax
      rw [hmax]
      show Calm _ (if _ then _ else _)
      split <;> trivial

end

/-- With room for its stake, a transaction that adds stake does not panic. -/
theorem executeNative_safe (hadds : tx.addsStake = true) (h : Guarded (Within W) cols s)
    (hbound : 20 * (∑ a, W a + tx.value.val) < u256Size) :
    ((x.executeNative tx sender).run exec).Safe s (fun r _ => GasFits tx r) := by
  unfold executeNative
  simp only [addsStake, Bool.or_eq_true, decide_eq_true_eq] at hadds
  obtain (htype | htype) | htype := hadds <;> rw [htype]
  · refine safe_run_bind ((read_safe h sender _).mono ?_)
    rintro _ s' ⟨⟨acc, hacc, rfl⟩, hG⟩
    have hfits : acc.getStake.val + tx.value.val < u256Size := by
      have hpart : W sender ≤ ∑ a, W a :=
        Finset.single_le_sum (fun _ _ => Nat.zero_le _) (Finset.mem_univ sender)
      omega
    have hsum : acc.getStake.add? tx.value = some ⟨_, hfits⟩ := ofNat?_eq_some.mpr rfl
    rw [hsum]
    refine require_safe (cap_safe hG hbound ?_ sender)
    refine calm_call (subBalance_calm _ _) fun _ => ?_
    exact calm_call (updateAccount_calm _ _) fun _ => gasFits_ofSuccess tx (by decide)
  · refine safe_run_bind ((read_safe h sender _).mono ?_)
    rintro stake s' ⟨-, hG⟩
    refine require_safe (require_safe (cap_safe hG hbound ?_ sender))
    refine calm_call (subBalance_calm _ _) fun _ => ?_
    refine calm_call (updateAccount_calm _ _) fun _ => ?_
    exact calm_call (updateAccount_calm _ _) fun _ => gasFits_ofSuccess tx (by decide)
  · unfold executeDelegate recipientOf
    cases tx.recipient with
    | none => trivial
    | some validator =>
      refine require_safe (safe_run_bind ((read_safe h sender _).mono ?_))
      rintro existing s' ⟨-, hG⟩
      refine require_safe (safe_run_bind ((read_safe hG validator _).mono ?_))
      rintro stake s'' ⟨-, hG⟩
      refine require_safe (cap_safe hG hbound ?_ validator)
      refine calm_call (subBalance_calm _ _) fun _ => ?_
      have hrecord : (recordDelegation sender validator existing.1 tx.value :
          StateProg H (StateError H) _).Calm (fun _ => True) := by
        unfold recordDelegation
        split <;> exact updateAccount_calm _ _
      exact calm_call hrecord fun _ => gasFits_ofSuccess tx (by decide)

end Stake

/-! ## Transactions of the EVM -/

section Evm

/-- The EVM does not panic, and reports no more gas than the limit. -/
def Metered (evm : Evm H) : Prop :=
  ∀ env tx, (evm.transact env tx).Calm (fun r => r.1.gasUsed.toNat ≤ tx.gasLimit.toNat)

theorem answer_safe (c : RevmCmd) (s : StateDB H) : (x.answer c).Safe s (fun _ _ => True) := by
  cases c with
  | basic a =>
    refine .bind ((((read_calm a _).run s).mapErr _).mono fun _ s _ => ?_)
    refine .bind ((((read_calm a _).run s).mapErr _).mono fun _ s _ => ?_)
    refine .bind (((Act.safe_ofExcept _ s).mapErr _).mono fun code s _ => ?_)
    split <;> trivial
  | storage a slot => exact (Act.safe_ofExcept _ s).mapErr _
  | blockHash number => trivial

theorem applyChange_safe (c : ChangedAccount) (s : StateDB H) :
    (applyChange c).Safe s (fun _ _ => True) := by
  have hslots : ∀ (slots : List (U256 × U256)) (s : StateDB H),
      (applySlots c.address slots).Safe s (fun _ _ => True) := by
    intro slots
    induction slots with
    | nil => exact fun _ => trivial
    | cons slot slots ih =>
      exact fun s => .bind (((Act.safe_ofExcept _ s).mapErr _).mono fun _ s _ => ih s)
  unfold applyChange
  split
  · trivial
  · refine .bind ((((updateAccount_calm _ _).mapErr _).run s).mono fun _ s _ => ?_)
    refine .bind ((((updateAccount_calm _ _).mapErr _).run s).mono fun _ s _ => ?_)
    refine .bind (Act.Safe.mono (Q := fun _ _ => True) ?_ fun _ s _ => hslots _ s)
    unfold applyCode
    split
    · exact .bind (((Act.safe_ofExcept _ s).mapErr _).mono fun _ _ _ => trivial)
    · trivial

theorem transact_safe (hevm : Metered x.runtime.evm) (coinbase : Address) (tx : RevmTx)
    (s : StateDB H) :
    (x.transact coinbase tx).Safe s (fun r _ => r.gasUsed.toNat ≤ tx.gasLimit.toNat) := by
  refine .bind ((((hevm _ tx).interp x.answer_safe s).mapErr _).mono fun r s hr => ?_)
  obtain ⟨result, changes⟩ := r
  cases result with
  | revert gas | halt reason gas => exact hr
  | success gas logs created =>
    refine .bind (Act.Safe.mono (Q := fun _ _ => True) ?_ fun _ _ _ => hr)
    induction changes generalizing s with
    | nil => trivial
    | cons c changes ih => exact .bind ((applyChange_safe c s).mono fun _ s _ => ih s hr)

/-- A transaction of the EVM does not panic. -/
theorem executeBody_safe {tx : SignedTransaction H} (hevm : Metered x.runtime.evm)
    (htype : tx.tx.isEvm = true) (hgas : tx.tx.intrinsicGas ≤ tx.tx.gasLimit) (producer : Address)
    (s : StateDB H) : (x.executeBody tx producer).Safe s (fun r _ => GasFits tx.tx r) := by
  simp only [isEvm, Bool.or_eq_true, decide_eq_true_eq] at htype
  have hlimit : tx.tx.gasLimit.toNat ≤ gasBound tx.tx := le_max_left _ _
  unfold executeBody
  obtain htype | htype := htype <;> rw [htype]
  · refine .bind ((x.transact_safe hevm _ _ s).mono fun r s hr => ?_)
    have hr := hr.trans hlimit
    cases r with
    | revert gas | halt reason gas => exact hr
    | success gas logs created =>
      have hmax : (max gas CONTRACT_CREATE_GAS).toNat ≤ gasBound tx.tx := by
        show (if gas ≤ CONTRACT_CREATE_GAS then CONTRACT_CREATE_GAS else gas).toNat ≤ _
        split
        · exact le_max_of_le_right (by decide)
        · exact hr
      cases created <;> exact hmax
  · refine .bind (((recipientOf_calm tx.tx).run s).mono fun target s _ => ?_)
    refine .bind (((Act.safe_ofExcept _ s).mapErr _).mono fun code s _ => ?_)
    split
    · -- the gas of a call to an account without code is the intrinsic gas
      refine .bind (Act.Safe.mono (Q := fun _ _ => True) ?_ fun _ _ _ => ?_)
      · unfold transferValue
        split
        · trivial
        · exact ((transfer_calm _ _ _).mapErr _).run s
      · have hbase : tx.tx.intrinsicGas = MINIMUM_GAS + tx.tx.dataGas := by
          unfold intrinsicGas isContractCreate
          rw [htype]
          rfl
        exact (UInt64.le_iff_toNat_le.mp (hbase ▸ hgas)).trans hlimit
    · refine .bind ((x.transact_safe hevm _ _ s).mono fun r s hr => ?_)
      cases r <;> exact hr.trans hlimit

end Evm

/-! ## One transaction -/

/-- **A transaction has room**: its total cost is below `2 ^ 256`, and if it adds
stake, the largest stakes and delegations in any version of the accounts leave
room for it. -/
def HasRoom (s : StateDB H) (tx : Transaction) : Prop :=
  tx.value.val + tx.gasPrice.val * tx.gasLimit.toNat < u256Size ∧
    (tx.addsStake = true → ∃ W : Address → ℕ, Guarded (Within W) s.cols s ∧
      20 * (∑ a, W a + tx.value.val) < u256Size)

variable {tx : Transaction}

omit [Digest H (TrieNode H (Cell H))] in
/-- With its total cost computed, validation does not panic. -/
theorem validateTransaction_calm {cost : U256} (hcost : tx.totalCost = some cost) :
    (x.validateTransaction tx).Calm
      (fun signed => signed.tx = tx ∧ tx.intrinsicGas ≤ tx.gasLimit) := by
  refine (require_calm _ _).bind (fun _ _ => (require_calm _ _).bind fun _ hgas => ?_)
  cases x.senderOf tx with
  | error e => trivial
  | ok sender =>
    refine calm_call (read_calm sender _) fun _ => ?_
    rw [hcost]
    refine (require_calm _ _).bind (fun _ _ => ((read_calm sender _).mapErr _).bind fun _ _ => ?_)
    refine (require_calm _ _).bind (fun _ _ => ?_)
    refine Calm.bind (Q := fun _ => True) ?_ (fun _ _ => ⟨rfl, of_decide_eq_true hgas⟩)
    have hchecked : ∀ (c : Bool) (e : ExecutorError H), (require c e).Calm (fun _ => True) := by
      intro c e
      cases c <;> trivial
    unfold validateType
    split
    · exact (recipientOf_calm tx).bind (fun _ _ => trivial)
    · exact calm_call (read_calm sender _) fun _ => hchecked _ _
    · exact hchecked _ _
    · refine (recipientOf_calm tx).bind (fun validator _ => (hchecked _ _).bind fun _ _ => ?_)
      refine calm_call (read_calm sender _) fun _ => (hchecked _ _).bind fun _ _ => ?_
      exact calm_call (read_calm validator _) fun _ => hchecked _ _
    · trivial

/-- Validation panics exactly on the total cost: of a transaction for this
chain, with enough gas and a valid signature, that costs `2 ^ 256` or more. -/
theorem validateTransaction_panics_iff (h : s.WellStored) :
    ((x.validateTransaction tx).run exec s).1 = .panic ↔
      tx.chainId = x.chainId ∧ tx.intrinsicGas ≤ tx.gasLimit ∧ (∃ a, x.senderOf tx = .ok a) ∧
        u256Size ≤ tx.value.val + tx.gasPrice.val * tx.gasLimit.toNat := by
  rw [← totalCost_eq_none]
  cases hcost : tx.totalCost with
  | some cost =>
    have hsafe : ((x.validateTransaction tx).run exec).Safe s _ :=
      (x.validateTransaction_calm hcost).run s
    exact iff_of_false hsafe.ne_panic (fun h => nomatch h.2.2.2)
  | none =>
    unfold validateTransaction require
    by_cases hchain : tx.chainId = x.chainId
    · by_cases hgas : tx.intrinsicGas ≤ tx.gasLimit
      · rw [if_pos (decide_eq_true hchain), if_pos (decide_eq_true hgas)]
        cases hsender : x.senderOf tx with
        | error e => exact iff_of_false nofun (fun h => nomatch h.2.2.1)
        | ok sender =>
          obtain ⟨acc, cache, hget, -, -⟩ := h.getAccount_eq sender
          refine iff_of_true ?_ ⟨hchain, hgas, ⟨sender, rfl⟩, rfl⟩
          show (Prog.run exec (Prog.bind (Prog.mapErr ExecutorError.state (Prog.bind
            (ofExcept (s.getAccount sender).1) _)) _) (s.getAccount sender).2).1 = .panic
          rw [hget, hcost]
          rfl
      · rw [if_pos (decide_eq_true hchain), if_neg (by simpa using hgas)]
        exact iff_of_false nofun (fun h => hgas h.2.1)
    · rw [if_neg (by simpa using hchain)]
      exact iff_of_false nofun (fun h => hchain h.1)

section Run

variable (hevm : Metered x.runtime.evm) (producer : Address)

include hevm

theorem execute_safe {tx : SignedTransaction H} {cost : U256} (hcost : tx.tx.gasCost = some cost)
    (hgas : tx.tx.intrinsicGas ≤ tx.tx.gasLimit)
    (hroom : tx.tx.addsStake = true → ∃ W cols, Guarded (Within W) cols s ∧
      20 * (∑ a, W a + tx.tx.value.val) < u256Size) :
    (x.execute tx producer).Safe s (fun r _ => GasFits tx.tx r) := by
  have hprepay : (prepay tx).Calm (fun _ => True) := by
    unfold prepay
    rw [hcost]
    refine calm_call (subBalance_calm _ _) fun _ => ?_
    split
    · trivial
    · exact (updateAccount_calm _ _).mapErr _
  obtain ⟨e, s₁, hpre, hx⟩ | ⟨s₁, hpre, hx⟩ | ⟨s₁, hpre, hrest⟩ := x.execute_cases tx producer s
  · rw [Act.Safe, hx]
    trivial
  · exact absurd (congrArg Prod.fst hpre) (hprepay.run s).ne_panic
  have hbody : (x.executeBody tx producer).Safe s₁ (fun r _ => GasFits tx.tx r) := by
    cases hevm' : tx.tx.isEvm with
    | true => exact x.executeBody_safe hevm hevm' hgas producer s₁
    | false =>
      rw [x.executeBody_eq hevm' producer]
      cases hadds : tx.tx.addsStake with
      | false => exact (x.executeNative_calm tx.tx tx.sender hadds hevm').run s₁
      | true =>
        obtain ⟨W, cols, hG, hbound⟩ := hroom hadds
        have hG₁ : Guarded (Within W) cols ((prepay tx).run exec s).2 :=
          Guarded.run (prepay_within (U := fun _ => True)
            (fun acc _ h => ⟨h.1.congr rfl rfl, h.2⟩) (fun _ acc h => ⟨h.1.congr rfl rfl, h.2⟩) rfl)
            s hG
        rw [hpre] at hG₁
        exact x.executeNative_safe tx.tx tx.sender hadds hG₁ hbound
  unfold Act.Safe at hbody ⊢
  obtain ⟨s₂, hdone, hx⟩ | ⟨r, s₂, hdone, hx⟩ | ⟨e, s₂, hdone, hx⟩ := hrest <;> rw [hdone] at hbody
  · exact hbody.elim
  · rw [hx]
    refine Calm.run (Q := GasFits tx.tx) ?_ s₂
    refine Calm.bind (Q := fun _ => True) ?_ (fun _ _ => ?_)
    · unfold finalizeNonce
      split
      · exact (updateAccount_calm _ _).mapErr _
      · trivial
    refine calm_call (updateAccount_calm _ _) fun _ => ?_
    exact calm_call (updateAccount_calm _ _) fun _ => hbody
  · rw [hx]
    have hpenal : (penalize tx producer).Calm (fun _ => True) := by
      unfold penalize
      rw [hcost]
      refine calm_call (subBalance_calm _ _) fun _ => ?_
      refine calm_call (updateAccount_calm _ _) fun _ => ?_
      exact (updateAccount_calm _ _).mapErr _
    exact Act.Safe.bind ((hpenal.run _).mono fun _ _ _ => le_max_left _ _)

/-- One transaction with room does not panic, and its gas is within bounds. -/
theorem runTransaction_safe (hroom : HasRoom s tx) :
    (x.runTransaction producer tx).Safe s (fun r _ => GasFits tx r) := by
  obtain ⟨hfits, hstake⟩ := hroom
  obtain ⟨total, htotal⟩ : ∃ total, tx.totalCost = some total :=
    Option.ne_none_iff_exists'.mp fun hnone =>
      absurd (totalCost_eq_none.mp hnone) (Nat.not_le.mpr hfits)
  obtain ⟨cost, hcost, -⟩ := totalCost_eq_some.mp htotal
  have hsafe : ((x.validateTransaction tx).run exec).Safe s _ :=
    (x.validateTransaction_calm htotal).run s
  refine .bind ?_
  unfold Act.Safe at hsafe ⊢
  rcases hval : (x.validateTransaction tx).run exec s with ⟨signed | e | _, s₁⟩
  all_goals rw [hval] at hsafe
  · obtain ⟨rfl, hgas⟩ := hsafe
    refine x.execute_safe hevm producer hcost hgas fun hadds => ?_
    obtain ⟨W, hG, hbound⟩ := hstake hadds
    have hG₁ := Guarded.run (x.validateTransaction_within (U := fun _ => True) signed.tx) s hG
    rw [hval] at hG₁
    exact ⟨W, _, hG₁, hbound⟩
  · trivial
  · exact hsafe.elim

/-- **The transactions of a block have room**, each in the state before it. -/
def AllHaveRoom (x : Executor H) (producer : Address) : StateDB H → List Transaction → Prop
  | _, [] => True
  | s, tx :: txs => HasRoom s tx ∧ AllHaveRoom x producer (x.runTransaction producer tx s).2 txs

theorem executeTransaction_total {ε : Type} (hroom : HasRoom s tx) (index : ℕ) (gas : UInt64) :
    ∃ receipt, (x.executeTransaction producer index gas tx : Act (StateDB H) ε _) s
        = (.ok receipt, (x.runTransaction producer tx s).2) ∧
      receipt.gasUsed.toNat ≤ gasBound tx ∧
      receipt.cumulativeGasUsed = gas + receipt.gasUsed := by
  have hsafe := x.runTransaction_safe hevm producer hroom
  unfold Act.Safe at hsafe
  rcases hrun : x.runTransaction producer tx s with ⟨r | e | _, s'⟩ <;> rw [hrun] at hsafe
  · exact ⟨_, (Act.attempt_ok _ hrun).trans rfl, hsafe, rfl⟩
  · exact ⟨_, (Act.attempt_err _ hrun).trans rfl, le_max_left _ _, rfl⟩
  · exact hsafe.elim

/-- A block body with room executes, and its gas counter does not wrap. -/
theorem executeTransactions_total {ε : Type} {txs : List Transaction}
    (hroom : x.AllHaveRoom producer s txs) (index : ℕ) {gas : UInt64}
    (hgas : gas.toNat + (txs.map gasBound).sum < 2 ^ 64) :
    ∃ receipts gas' s', (x.executeTransactions producer index gas txs : Act (StateDB H) ε _) s
        = (.ok (receipts, gas'), s') ∧
      gas'.toNat = gas.toNat + (receipts.map (fun r => r.gasUsed.toNat)).sum ∧
      List.Forall₂ (fun tx (r : Receipt H) => r.gasUsed.toNat ≤ gasBound tx) txs receipts := by
  induction txs generalizing s index gas with
  | nil => exact ⟨[], gas, s, rfl, rfl, .nil⟩
  | cons tx txs ih =>
    obtain ⟨receipt, hround, hused, hcum⟩ :=
      x.executeTransaction_total (ε := ε) hevm producer hroom.1 index gas
    rw [List.map_cons, List.sum_cons] at hgas
    have hnext : receipt.cumulativeGasUsed.toNat = gas.toNat + receipt.gasUsed.toNat := by
      rw [hcum, UInt64.toNat_add]
      exact Nat.mod_eq_of_lt (by omega)
    have hleft : receipt.cumulativeGasUsed.toNat + (txs.map gasBound).sum < 2 ^ 64 := by omega
    obtain ⟨receipts, gas', s', hrest, htotal, hall⟩ := ih hroom.2 (index + 1) hleft
    refine ⟨receipt :: receipts, gas', s', ?_, ?_, .cons hused hall⟩
    · unfold executeTransactions
      rw [Act.bind_ok _ hround, Act.bind_ok _ hrest]
      rfl
    · rw [htotal, hnext, List.map_cons, List.sum_cons, Nat.add_assoc]

end Run

end Executor

/-! ## Fees and rewards -/

/-- The most that the fees of a block can be. -/
def feeBound (txs : List Transaction) : ℕ :=
  (txs.map (fun tx => Executor.gasBound tx * tx.gasPrice.val)).sum

/-- Fees within the bounds of their transactions are summed without overflow. -/
theorem totalFees_of_fits {txs : List Transaction} {receipts : List (Receipt H)}
    (hall : List.Forall₂ (fun tx (r : Receipt H) => r.gasUsed.toNat ≤ Executor.gasBound tx) txs
      receipts) (hfees : feeBound txs < u256Size) :
    ∃ fees, totalFees txs receipts = some fees ∧ fees.val ≤ feeBound txs := by
  suffices hloop : ∀ total : U256, total.val + feeBound txs < u256Size →
      ∃ fees, (txs.zip receipts).foldlM (fun total p => do
          total.add? (← (fromU64 p.2.gasUsed).mul? p.1.gasPrice)) total = some fees ∧
        fees.val ≤ total.val + feeBound txs by
    have hzero := hloop zero
    rw [zero_val, Nat.zero_add] at hzero
    exact hzero hfees
  clear hfees
  induction hall with
  | nil => exact fun total _ => ⟨total, rfl, le_rfl⟩
  | @cons tx r txs receipts hused hall ih =>
    intro total hsum
    have hbound : feeBound (tx :: txs) = Executor.gasBound tx * tx.gasPrice.val + feeBound txs := rfl
    have hfee : r.gasUsed.toNat * tx.gasPrice.val ≤ Executor.gasBound tx * tx.gasPrice.val :=
      Nat.mul_le_mul_right _ hused
    generalize hprice : r.gasUsed.toNat * tx.gasPrice.val = fee at hfee
    have hmul : (fromU64 r.gasUsed).mul? tx.gasPrice = some ⟨fee, by omega⟩ :=
      ofNat?_eq_some.mpr hprice
    have hadd : total.add? ⟨fee, by omega⟩ = some ⟨total.val + fee, by omega⟩ :=
      ofNat?_eq_some.mpr rfl
    obtain ⟨fees, hrest, hle⟩ := ih ⟨total.val + fee, by omega⟩ (by dsimp only; omega)
    refine ⟨fees, ?_, hle.trans (by dsimp only; omega)⟩
    rw [List.zip_cons_cons, List.foldlM_cons, hmul]
    show (total.add? _ >>= _) = _
    rw [hadd]
    exact hrest

/-- Rewards are paid without a panic, if the producer's share can be computed. -/
theorem applyBlockRewards_calm (number : ℕ) (producer : Address) {fees : U256}
    (h : fees.val * 47 < u256Size) :
    (applyBlockRewards number producer fees : StateProg H (StateError H) Unit).Calm
      (fun _ => True) := by
  have hshare : ∀ percent : UInt64, percent.toNat ≤ 47 →
      ∃ share, feeShare fees percent = some share ∧ share.val * 100 < u256Size := by
    intro percent hle
    have hlt : fees.val * percent.toNat < u256Size := lt_of_le_of_lt (Nat.mul_le_mul_left _ hle) h
    have hmul : fees.mul? (fromU64 percent) = some ⟨_, hlt⟩ := ofNat?_eq_some.mpr rfl
    refine ⟨(⟨_, hlt⟩ : U256).divConst 100, ?_, ?_⟩
    · unfold feeShare
      rw [hmul]
      rfl
    · exact lt_of_le_of_lt (Nat.div_mul_le_self _ _) hlt
  obtain ⟨share, hproducer, hfits⟩ := hshare FEE_PRODUCER_PERCENT (by decide)
  obtain ⟨treasury, htreasury, -⟩ := hshare FEE_TREASURY_PERCENT (by decide)
  have hreward : (blockRewardForYear (number / BLOCKS_PER_YEAR)).val ≤ BLOCK_REWARD :=
    max_le (Nat.shiftRight_le _ _) (by decide)
  have hroom : (blockRewardForYear (number / BLOCKS_PER_YEAR)).val + share.val < u256Size := by
    norm_num [u256Size, BLOCK_REWARD] at hfits hreward ⊢
    omega
  have hsum : (blockRewardForYear (number / BLOCKS_PER_YEAR)).add? share = some ⟨_, hroom⟩ :=
    ofNat?_eq_some.mpr rfl
  unfold applyBlockRewards
  rw [hproducer, htreasury]
  show Calm _ (orPanic ((blockRewardForYear (number / BLOCKS_PER_YEAR)).add? share) >>= _)
  rw [hsum]
  refine (updateAccount_calm producer _).bind (fun _ _ => ?_)
  show Calm _ (if treasury.isZero then _ else _)
  split
  · trivial
  · exact updateAccount_calm _ _

variable [HashScheme H] [Digest H (TrieNode H (Cell H))]

/-- **When validation and block execution are total.** Validation panics exactly
on the total cost. A block whose transactions have room, each in the state
before it, executes, sums its fees and pays its rewards without a panic, and its
gas counter is the sum of the gas used, if gas and fees fit at the most that the
transactions can use. -/
theorem block_total (x : Executor H) (hevm : Executor.Metered x.runtime.evm) :
    (∀ (s : StateDB H) (tx : Transaction), s.WellStored →
      (((x.validateTransaction tx).run exec s).1 = .panic ↔
        tx.chainId = x.chainId ∧ tx.intrinsicGas ≤ tx.gasLimit ∧ (∃ a, x.senderOf tx = .ok a) ∧
          u256Size ≤ tx.value.val + tx.gasPrice.val * tx.gasLimit.toNat)) ∧
      ∀ (s : StateDB H) (number : ℕ) (producer : Address) (txs : List Transaction),
        x.AllHaveRoom producer s txs → (txs.map Executor.gasBound).sum < 2 ^ 64 →
          feeBound txs * 47 < u256Size →
        ∃ receipts gas s' fees,
          (x.executeTransactions producer 0 0 txs : Act (StateDB H) (ChainError H) _) s
            = (.ok (receipts, gas), s') ∧
          gas.toNat = (receipts.map (fun r => r.gasUsed.toNat)).sum ∧
          totalFees txs receipts = some fees ∧
          ((applyBlockRewards number producer fees).run exec s').1 ≠ .panic := by
  refine ⟨fun s tx h => x.validateTransaction_panics_iff h, ?_⟩
  intro s number producer txs hroom hgas hfees
  obtain ⟨receipts, gas, s', hrun, hcounter, hall⟩ :=
    x.executeTransactions_total hevm producer hroom 0 (show (0 : UInt64).toNat + _ < _ by simpa)
  obtain ⟨fees, htotal, hle⟩ := totalFees_of_fits hall (by omega)
  refine ⟨receipts, gas, s', fees, hrun, by simpa using hcounter, htotal, ?_⟩
  exact ((applyBlockRewards_calm number producer (by omega)).run s').ne_panic

/-- A rich account. -/
def richAccount : Account CodeName :=
  { Account.newEoa with balance := sampleAmount (10 ^ 24) }

/-- A state with this account alone. -/
def richDb : StateDB CodeName :=
  ((new (.empty CodeName)).setAccount (sampleAddress 1) richAccount).2

theorem richDb_guarded : Guarded (Executor.Within fun _ => 0) richDb.cols richDb := by
  have hnew : Guarded (Executor.Within fun _ => 0) (.empty CodeName) (new (.empty CodeName)) := by
    refine ⟨(withRoot_wellStored (StateColumns.empty_sound CodeName)
      (holdsAccounts_zero _ _)).over, fun a acc hacc => ?_, nofun⟩
    cases hacc
    exact le_rfl
  have hcols : richDb.cols = .empty CodeName := setAccount_cols _ _ _
  rw [hcols]
  exact (Guarded.exec (U := fun _ => True) (.setAccount (sampleAddress 1) richAccount) _ hnew
    ⟨(closed_newEoa _).congr rfl rfl, le_rfl⟩).2

/-- A block that stakes, unstakes, transfers, calls, creates a contract and asks for an
inference. -/
def smallBlock : List Transaction :=
  [sampleTx .stake 1 0 none MIN_VALIDATOR_STAKE 100000 (sampleAmount 3),
    sampleTx .unstake 1 1 none (sampleAmount 5) 100000 (sampleAmount 3),
    sampleTx .transfer 1 2 (some (sampleAddress 2)) (sampleAmount 5) 21000 (sampleAmount 3),
    sampleTx .contractCall 1 3 (some (sampleAddress 2)) (sampleAmount 5) 100000 (sampleAmount 3),
    sampleTx .contractCreate 1 4 none zero 100000 (sampleAmount 3),
    sampleTx .inferenceTask 1 5 none (sampleAmount 5) 100000 (sampleAmount 3)]

/-- It executes without a panic. -/
theorem smallBlock_total :
    ∃ receipts gas s' fees,
      (sampleExecutor.executeTransactions (sampleAddress 3) 0 0 smallBlock :
          Act (StateDB CodeName) (ChainError CodeName) _) richDb = (.ok (receipts, gas), s') ∧
      gas.toNat = (receipts.map (fun r => r.gasUsed.toNat)).sum ∧
      totalFees smallBlock receipts = some fees ∧
      ((applyBlockRewards 1 (sampleAddress 3) fees).run exec s').1 ≠ .panic := by
  have hstake : Executor.HasRoom richDb
      (sampleTx .stake 1 0 none MIN_VALIDATOR_STAKE 100000 (sampleAmount 3)) := by
    refine ⟨by decide +kernel, fun _ => ⟨fun _ => 0, richDb_guarded, ?_⟩⟩
    simp only [Finset.sum_const_zero]
    decide +kernel
  exact (block_total sampleExecutor (fun _ _ => trivial)).2 _ 1 _ smallBlock
    ⟨hstake, ⟨by decide +kernel, nofun⟩, ⟨by decide +kernel, nofun⟩, ⟨by decide +kernel, nofun⟩,
      ⟨by decide +kernel, nofun⟩, ⟨by decide +kernel, nofun⟩, trivial⟩
    (by decide +kernel) (by decide +kernel)

/-- A transfer of nothing, at a gas price of `2 ^ 255`. -/
def dearTransfer : Transaction :=
  sampleTx .transfer 1 0 (some (sampleAddress 2)) zero 21000 (sampleAmount (2 ^ 255))

/-- **Anyone can make a node panic**: the transfer needs no funds, and both its
validation and the execution of a block with it panic. -/
theorem dearTransfer_panics :
    ((sampleExecutor.validateTransaction dearTransfer).run exec
        (new (.empty CodeName))).1 = .panic ∧
      ((sampleExecutor.executeTransactions (sampleAddress 3) 0 0 [dearTransfer] :
          Act (StateDB CodeName) (ChainError CodeName) _) (new (.empty CodeName))).1
        = .panic := by
  decide +kernel

end Qfc
