import QfcCore.Types.Primitives

/-!
# Accounts and undelegations

The account type of `qfc-types/src/account.rs` and the pending undelegations of
`validator.rs`. The four storage-rent fields of an account are left out: no
function modelled here reads or writes them.
-/

namespace Qfc

/-- The kind of an account. -/
inductive AccountType
  | eoa
  | contract
  | validator
deriving DecidableEq

/-- An account. -/
structure Account (H : Type) where
  accountType : AccountType
  balance : U256
  nonce : UInt64
  codeHash : Option H
  storageRoot : Option H
  stake : Option U256
  contributionScore : Option UInt64
  delegatedTo : Option Address
  delegatedAmount : Option U256
deriving DecidableEq

namespace Account

variable {H : Type}

/-- `new_eoa`: what an absent address reads as. -/
def newEoa : Account H where
  accountType := .eoa
  balance := U256.zero
  nonce := 0
  codeHash := none
  storageRoot := none
  stake := none
  contributionScore := none
  delegatedTo := none
  delegatedAmount := none

variable (acc : Account H) (amount : U256)

/-- The stake, or zero. -/
def getStake : U256 := acc.stake.getD U256.zero

/-- `add_balance`: saturates. -/
def addBalance : Account H :=
  { acc with balance := acc.balance.satAdd amount }

/-- `sub_balance`: nothing when the balance is too low. -/
def subBalance : Option (Account H) :=
  (acc.balance.sub? amount).map (fun b => { acc with balance := b })

/-- `increment_nonce`: saturates. -/
def incrementNonce : Account H :=
  { acc with nonce := if acc.nonce = UInt64.ofNat (2 ^ 64 - 1) then acc.nonce else acc.nonce + 1 }

/-- `set_stake`: an ordinary account becomes a validator. -/
def setStake (stake : U256) : Account H :=
  { acc with
    stake := some stake
    accountType := if acc.accountType = .eoa then .validator else acc.accountType }

/-- Replaces the score. -/
def setContributionScore (score : UInt64) : Account H :=
  { acc with contributionScore := some score }

/-- The amount delegated, or zero. -/
def getDelegatedAmount : U256 := acc.delegatedAmount.getD U256.zero

/-- Replaces the delegation. -/
def setDelegation (validator : Address) (amount : U256) : Account H :=
  { acc with delegatedTo := some validator, delegatedAmount := some amount }

/-- Ends the delegation. -/
def clearDelegation : Account H :=
  { acc with delegatedTo := none, delegatedAmount := none }

/-- `add_delegated_amount`: saturates. -/
def addDelegatedAmount : Account H :=
  { acc with delegatedAmount := some (acc.getDelegatedAmount.satAdd amount) }

/-- `sub_delegated_amount`: a delegation of nothing is cleared; nothing when
the delegation is too low. -/
def subDelegatedAmount : Option (Account H) :=
  (acc.getDelegatedAmount.sub? amount).map (fun rest =>
    if rest.isZero then acc.clearDelegation else { acc with delegatedAmount := some rest })

end Account

/-- A pending undelegation. -/
structure Undelegation where
  delegator : Address
  validator : Address
  amount : U256
  /-- In seconds. -/
  unlockAt : ℕ
deriving DecidableEq

namespace Undelegation

/-- Whether it is due. -/
def isUnlocked (u : Undelegation) (currentTime : ℕ) : Bool := u.unlockAt ≤ currentTime

/-- `storage_key`: the bytes of both addresses and the unlock time. The eight
bytes of the time are kept as the number they spell, which compares alike. -/
def storageKey (delegator validator : Address) (unlockAt : ℕ) : List ℕ :=
  delegator.bytes.toList.map UInt8.toNat ++ validator.bytes.toList.map UInt8.toNat ++ [unlockAt]

/-- The key a record is stored under. -/
def key (u : Undelegation) : List ℕ := storageKey u.delegator u.validator u.unlockAt

end Undelegation

end Qfc
