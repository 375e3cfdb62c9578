import QfcCore.Executor.Execute
import QfcCore.State.Ledger

/-!
# What transactions on stake do to the ledger

Staking, registering, delegating and undelegating take effect as a whole or not
at all. One lemma for each type says when it does, as a condition on the ledger
before it, and what the ledger is afterwards; when it does not, the ledger is as
before. The only panics are overflows of stake, which a bound on all stake
excludes.
-/

namespace Qfc

open U256 Ledger StateProg

theorem U256.eq_add_of_sub? {a b c : U256} (h : a.sub? b = some c) : a.val = c.val + b.val := by
  unfold sub? at h
  split at h
  · obtain rfl := (Option.some.inj h).symm
    exact (Nat.sub_add_cancel ‹_›).symm
  · cases h

variable {H : Type} {l : Ledger H} {α β : Type}

/-! ## Reads and writes -/

namespace Ledger

/-- The ledger with funds paid to an account. -/
def credit (l : Ledger H) (a : Address) (amount : U256) : Ledger H :=
  l.set a ((l.accounts a).addBalance amount)

/-- The ledger with an undelegation paid out. -/
def payOut (l : Ledger H) (u : Undelegation) : Ledger H :=
  { l.credit u.delegator u.amount with undelegations := l.undelegations.erase u.key }

/-- A program over the ledger that takes effect as a whole or not at all. -/
abbrev Decides {ε : Type} (p : StateProg H ε α) (l : Ledger H) (bound cond : Prop)
    (Q : α → Ledger H → Prop) : Prop :=
  Prog.Decides exec p l bound cond Q

theorem run_getAccount (a : Address) (l : Ledger H) :
    (getAccount a : StateProg H (StateError H) _).run exec l
      = (.ok (l.accounts a), l) := rfl

/-- A method that reads one account and returns something of it. -/
theorem run_readAccount (a : Address) (f : Account H → α) (l : Ledger H) :
    (getAccount a >>= fun acc => pure (f acc) : StateProg H (StateError H) α).run
      exec l = (.ok (f (l.accounts a)), l) := rfl

theorem run_updateAccount (a : Address) (f : Account H → Account H) (l : Ledger H) :
    (updateAccount a f : StateProg H (StateError H) Unit).run exec l
      = (.ok (), l.set a (f (l.accounts a))) := rfl

variable {a : α} {l' : Ledger H}

/-- A method of the state under the executor's errors. -/
theorem run_stateCall {p : StateProg H (StateError H) α} (h : p.run exec l = (.ok a, l')) :
    (stateCall p).run exec l = (.ok a, l') := by
  rw [stateCall, Prog.run_mapErr, Act.mapErr, h]

/-- The funds of an account are taken, if they are there. -/
theorem subBalance_decides {bound : Prop} (a : Address) (amount : U256) (l : Ledger H) :
    Decides (subBalance a amount : StateProg H (StateError H) Unit) l bound
      (amount.val ≤ (l.accounts a).balance.val)
      (fun _ l' => ∃ rest : U256, (l.accounts a).balance.val = rest.val + amount.val ∧
        l' = l.set a { l.accounts a with balance := rest }) := by
  refine .read (run_getAccount a l) ?_
  by_cases hle : amount.val ≤ (l.accounts a).balance.val
  · unfold Account.subBalance sub?
    rw [if_pos hle]
    refine .congr (iff_of_true trivial hle) (Prog.Ensures.decides ⟨(), _, rfl, _, ?_, rfl⟩)
    exact (Nat.sub_add_cancel hle).symm
  · unfold Account.subBalance sub?
    rw [if_neg hle]
    exact .congr (iff_of_false not_false hle) (.fail _)

/-! ## Checks -/

section Checks

variable {Q : β → Ledger H → Prop} {bound cond : Prop} {tx : Transaction}

theorem require_decides (c : Bool) (e : ExecutorError H) :
    Decides (require c e) l bound (c = true) (fun _ l' => l' = l ∧ c = true) := by
  cases c with
  | true => exact .congr (iff_of_true trivial rfl) (Prog.Ensures.decides ⟨(), l, rfl, rfl, rfl⟩)
  | false => exact .congr (iff_of_false not_false nofun) (.fail e)

theorem decides_require {c : Bool} {e : ExecutorError H} {f : Unit → ExecProg H β}
    (h : c = true → Decides (f ()) l bound cond Q) :
    Decides (require c e >>= f) l bound (c = true ∧ cond) Q :=
  .check (require_decides c e) fun _ hc => h hc

theorem decides_recipientOf {f : Address → ExecProg H β} {cond : Address → Prop}
    (h : ∀ a, tx.recipient = some a → Decides (f a) l bound (cond a) Q) :
    Decides (recipientOf tx >>= f) l bound (∃ a, tx.recipient = some a ∧ cond a) Q := by
  unfold recipientOf
  cases hto : tx.recipient with
  | none => exact .congr (by simp) (.fail _)
  | some a => exact .congr (by simp) (h a hto)

variable {f : α → ExecProg H β}

/-- A partial value, whose absence is beyond the bound. -/
theorem decides_orPanic {o : Option α} {cond : α → Prop} (hbound : bound → o ≠ none)
    (h : ∀ a, o = some a → Decides (f a) l bound (cond a) Q) :
    Decides (Prog.orPanic o >>= f) l bound (∃ a, o = some a ∧ cond a) Q := by
  cases o with
  | none => exact .congr (by simp) (.panic fun hb => hbound hb rfl)
  | some a => exact .congr (by simp) (h a rfl)

variable {p : StateProg H (StateError H) α}

/-- A method of the state that reads, before what takes effect as a whole. -/
theorem decides_read (hp : p.run exec l = (.ok a, l)) (h : Decides (f a) l bound cond Q) :
    Decides (stateCall p >>= f) l bound cond Q :=
  .read (run_stateCall hp) h

/-- A method of the state that takes effect as a whole, before what is sure to
return. -/
theorem decides_write {P : α → Ledger H → Prop} (hp : Decides p l bound cond P)
    (h : ∀ a l', P a l' → (f a).Ensures exec l' Q) :
    Decides (stateCall p >>= f) l bound cond Q :=
  .bind (hp.mapErr.mono h)

/-- A method of the state that is sure to return, before another one. -/
theorem ensures_write (hp : p.run exec l = (.ok a, l')) (h : (f a).Ensures exec l' Q) :
    (stateCall p >>= f).Ensures exec l Q :=
  .bind ⟨a, l', run_stateCall hp, h⟩

/-- The amount in the data, or else what a method of the state reads. -/
theorem decides_amountOr {p : StateProg H (StateError H) U256} {a : U256} {f : U256 → ExecProg H β}
    (hp : p.run exec l = (.ok a, l))
    (h : Decides (f ((Executor.dataAmount tx).getD a)) l bound cond Q) :
    Decides (Executor.amountOr tx (stateCall p) >>= f) l bound cond Q := by
  unfold Executor.amountOr
  cases hdata : Executor.dataAmount tx with
  | some amount =>
    rw [hdata] at h
    exact h
  | none =>
    rw [hdata] at h
    exact decides_read hp h

/-- **The cap lets an amount through**: a validator stays within its share of
all stake. -/
def CapAllows (l : Ledger H) (validator : Address) (added : U256) : Prop :=
  added.val = 0 ∨ (saturated l.totalStake).val = 0 ∨
    ∃ maxAllowed, maxValidatorStake ((saturated l.totalStake).satAdd added) = some maxAllowed ∧
      ((((l.accounts validator).getStake.satAdd
        (saturated (l.totalDelegatedTo validator))).satAdd added).val ≤ maxAllowed.val)

/-- Within the bound the largest stake can be computed. -/
theorem maxValidatorStake_ne_none {total : ℕ} {added : U256}
    (h : 20 * (total + added.val) < u256Size) :
    maxValidatorStake ((saturated total).satAdd added) ≠ none := by
  have hfits : ((saturated total).satAdd added).val * 20 < u256Size := by
    have hle : ((saturated total).satAdd added).val ≤ total + added.val := by
      rw [saturated_satAdd]
      exact min_le_left _ _
    omega
  have hmul : ((saturated total).satAdd added).mul? (fromU64 MAX_VALIDATOR_STAKE_PERCENT)
      = some ⟨_, hfits⟩ := ofNat?_eq_some.mpr rfl
  unfold maxValidatorStake
  rw [hmul]
  nofun

theorem decides_ensureValidatorStakeCap {validator : Address} {added : U256}
    {f : Unit → ExecProg H β} (hbound : bound → 20 * (l.totalStake + added.val) < u256Size)
    (h : Decides (f ()) l bound cond Q) :
    Decides (Executor.ensureValidatorStakeCap validator added >>= f) l bound
      (CapAllows l validator added ∧ cond) Q := by
  refine .check (P := fun _ => True) ?_ fun _ _ => h
  unfold Executor.ensureValidatorStakeCap CapAllows
  split
  · rename_i hzero
    rw [isZero_iff] at hzero
    exact .congr (iff_of_true trivial (.inl hzero)) (Prog.Ensures.decides ⟨(), l, rfl, rfl, trivial⟩)
  · rename_i hadded
    rw [isZero_iff] at hadded
    refine decides_read rfl ?_
    split
    · rename_i hzero
      rw [isZero_iff] at hzero
      exact .congr (iff_of_true trivial (.inr (.inl hzero)))
        (Prog.Ensures.decides ⟨(), l, rfl, rfl, trivial⟩)
    · rename_i htotal
      rw [isZero_iff] at htotal
      refine .congr ((or_iff_right hadded).trans (or_iff_right htotal)).symm ?_
      refine decides_read (run_readAccount _ _ _) (decides_read rfl (decides_orPanic
        (fun hb => maxValidatorStake_ne_none (hbound hb)) fun m _ => ?_))
      exact .congr decide_eq_true_iff ((require_decides _ _).mono fun _ _ hl => ⟨hl.1, trivial⟩)

end Checks

end Ledger

/-! ## The native types -/

namespace Executor

open Ledger

variable (x : Executor H) (tx : Transaction) (sender : Address) (l : Ledger H) {bound : Prop}

section Bound

variable (hbound : bound → 20 * (l.totalStake + tx.value.val) < u256Size)
include hbound

theorem executeStake_decides
    (hstake : (l.accounts sender).getStake.val ≤ l.totalStake) :
    Decides (executeStake tx sender) l bound
      (∃ newStake, (l.accounts sender).getStake.add? tx.value = some newStake ∧
        (!((l.accounts sender).getStake.isZero && newStake.val < MIN_VALIDATOR_STAKE.val)) = true ∧
        CapAllows l sender tx.value ∧ tx.value.val ≤ (l.accounts sender).balance.val)
      (fun r l' => r = .ofSuccess (MINIMUM_GAS * 2) ∧
        ∃ rest newStake : U256, (l.accounts sender).balance.val = rest.val + tx.value.val ∧
          newStake.val = (l.accounts sender).getStake.val + tx.value.val ∧
          l' = l.set sender ({ l.accounts sender with balance := rest }.setStake newStake)) := by
  refine decides_read (run_readAccount _ _ _) (decides_orPanic (fun hb hnone => ?_)
    fun newStake hnew => ?_)
  · have hfits : (l.accounts sender).getStake.val + tx.value.val < u256Size := by
      have := hbound hb
      omega
    have hsome : (l.accounts sender).getStake.add? tx.value = some ⟨_, hfits⟩ :=
      ofNat?_eq_some.mpr rfl
    rw [hsome] at hnone
    cases hnone
  refine decides_require fun _ => decides_ensureValidatorStakeCap hbound ?_
  refine decides_write (subBalance_decides sender tx.value l) ?_
  rintro - l' ⟨rest, hrest, rfl⟩
  refine ensures_write (run_updateAccount _ _ _) (.pure ⟨rfl, rest, newStake, hrest, ?_, ?_⟩)
  · exact (ofNat?_eq_some.mp hnew).symm
  · rw [set_set, set_accounts_self]

theorem executeValidatorRegister_decides :
    Decides (executeValidatorRegister tx sender) l bound
      ((l.accounts sender).getStake.isZero = true ∧
        decide (MIN_VALIDATOR_STAKE.val ≤ tx.value.val) = true ∧
        CapAllows l sender tx.value ∧ tx.value.val ≤ (l.accounts sender).balance.val)
      (fun r l' => r = .ofSuccess (MINIMUM_GAS * 3) ∧ (l.accounts sender).getStake.val = 0 ∧
        ∃ rest : U256, (l.accounts sender).balance.val = rest.val + tx.value.val ∧
          l' = l.set sender
            (({ l.accounts sender with balance := rest }.setStake tx.value).setContributionScore
              0)) := by
  refine decides_read (run_readAccount _ _ _) (decides_require fun hzero => ?_)
  refine decides_require fun _ => decides_ensureValidatorStakeCap hbound ?_
  refine decides_write (subBalance_decides sender tx.value l) ?_
  rintro - l' ⟨rest, hrest, rfl⟩
  refine ensures_write (run_updateAccount _ _ _) (ensures_write (run_updateAccount _ _ _) ?_)
  refine .pure ⟨rfl, (isZero_iff _).mp hzero, rest, hrest, ?_⟩
  rw [set_set, set_set, set_accounts_self, set_accounts_self]

/-- The account of a delegator after a delegation. -/
def delegated (acc : Account H) (rest : U256) (validator : Address) (amount : U256) : Account H :=
  if acc.delegatedTo.isSome then { acc with balance := rest }.addDelegatedAmount amount
  else { acc with balance := rest }.setDelegation validator amount

theorem executeDelegate_decides :
    Decides (executeDelegate tx sender) l bound
      (∃ validator, tx.recipient = some validator ∧
        decide (MIN_DELEGATION.val ≤ tx.value.val) = true ∧
        (l.accounts sender).delegatedTo.all (fun v => v = validator) = true ∧
        (!(l.accounts validator).getStake.isZero) = true ∧
        CapAllows l validator tx.value ∧ tx.value.val ≤ (l.accounts sender).balance.val)
      (fun r l' => r = .ofSuccess (MINIMUM_GAS * 3) ∧
        ∃ validator rest, tx.recipient = some validator ∧
          (l.accounts sender).balance.val = val rest + tx.value.val ∧
          l' = l.set sender (delegated (l.accounts sender) rest validator tx.value)) := by
  refine decides_recipientOf fun validator hvalidator => decides_require fun _ => ?_
  refine decides_read (run_readAccount _ _ _) (decides_require fun _ => ?_)
  refine decides_read (run_readAccount _ _ _) (decides_require fun _ => ?_)
  refine decides_ensureValidatorStakeCap hbound
    (decides_write (subBalance_decides sender tx.value l) ?_)
  rintro - l' ⟨rest, hrest, rfl⟩
  have hrecord : (recordDelegation sender validator (l.accounts sender).delegatedTo tx.value).run
      exec (l.set sender { l.accounts sender with balance := rest })
      = (.ok (), l.set sender (delegated (l.accounts sender) rest validator tx.value)) := by
    unfold recordDelegation delegated
    split
    · rw [addDelegationAmount, run_updateAccount, set_set, set_accounts_self]
    · rw [setDelegation, run_updateAccount, set_set, set_accounts_self]
  exact ensures_write hrecord (.pure ⟨rfl, validator, rest, hvalidator, hrest, rfl⟩)

/-- What an account undelegates: the amount in the data, or all. -/
def undelegateAmount (acc : Account H) (validator : Address) : U256 :=
  (dataAmount tx).getD
    (if acc.delegatedTo = some validator then acc.getDelegatedAmount else zero)

/-- The record of an undelegation. -/
def undelegation (acc : Account H) (validator : Address) : Undelegation :=
  ⟨sender, validator, undelegateAmount tx acc validator,
    x.blockTimestamp / 1000 + UNSTAKE_DELAY_SECS⟩

end Bound

theorem executeUndelegate_decides :
    Decides (x.executeUndelegate tx sender) l bound
      (∃ validator, tx.recipient = some validator ∧
        decide ((l.accounts sender).delegatedTo = some validator) = true ∧
        decide ((undelegateAmount tx (l.accounts sender) validator).val
          ≤ (l.accounts sender).getDelegatedAmount.val) = true)
      (fun r l' => r = .ofSuccess (MINIMUM_GAS * 3) ∧
        ∃ validator acc, tx.recipient = some validator ∧
          (l.accounts sender).delegatedTo = some validator ∧
          (l.accounts sender).subDelegatedAmount
            (undelegateAmount tx (l.accounts sender) validator) = some acc ∧
          l' = { l.set sender acc with
            undelegations :=
              l.undelegations.put (x.undelegation tx sender (l.accounts sender) validator) }) := by
  refine decides_recipientOf fun validator hvalidator => ?_
  refine decides_amountOr (run_readAccount _ _ _) ?_
  refine decides_read (run_readAccount _ _ _) (decides_require fun hto => ?_)
  refine .congr (iff_of_eq (and_true _)) (decides_require fun hle => Prog.Ensures.decides ?_)
  replace hto := of_decide_eq_true hto
  replace hle : (undelegateAmount tx (l.accounts sender) validator).val
      ≤ (l.accounts sender).getDelegatedAmount.val := of_decide_eq_true hle
  -- the amount is there, so the delegation goes down by it
  obtain ⟨acc, hacc⟩ : ∃ acc, (l.accounts sender).subDelegatedAmount
      (undelegateAmount tx (l.accounts sender) validator) = some acc := by
    unfold Account.subDelegatedAmount sub?
    rw [if_pos hle]
    exact ⟨_, rfl⟩
  have hsub : (subDelegationAmount sender
      (undelegateAmount tx (l.accounts sender) validator)).run exec l
      = (.ok true, l.set sender acc) := by
    unfold subDelegationAmount
    rw [Prog.run_bind, Act.bind_ok _ (run_getAccount sender l), hacc]
    rfl
  refine ensures_write hsub ?_
  exact ensures_write rfl (.pure ⟨rfl, validator, acc, hvalidator, hto, hacc, rfl⟩)

/-! ## Mature undelegations -/

/-- Every record is paid out: on the ledger no payment fails. -/
theorem run_processMature (us : List Undelegation) (l : Ledger H) :
    (processMature us).run exec l = (.ok (), us.foldl payOut l) := by
  induction us generalizing l with
  | nil => rfl
  | cons u us ih => exact ih _

end Executor

end Qfc
