import QfcCore.Executor.Contract
import QfcCore.Executor.Delegation
import QfcCore.State.Guarded

/-!
# The stake cap

Staking, registering and delegating add an amount to one validator. The cap
reads both totals off the working trie before the writes, and is to leave the
validator with at most a fifth of all stake afterwards; a transaction that is
rejected is to leave all stakes and delegations as they were.

The first half holds on a state whose cache agrees with its trie. The second
rests on the revert, which restarts the trie at the last commit: it holds
exactly when the stakes and delegations of the working trie are those of the
last commit.
-/

namespace Qfc

open StateProg Finset U256

variable {H : Type} {acc : Account H}

/-- What an account stakes and delegates. -/
def Account.stakes (acc : Account H) : U256 × Option Address × U256 :=
  (acc.getStake, acc.delegatedTo, acc.getDelegatedAmount)

/-- The types that add stake to a validator. -/
def Transaction.addsStake (tx : Transaction) : Bool :=
  tx.txType = .stake || tx.txType = .validatorRegister || tx.txType = .delegate

theorem Transaction.isEvm_of_addsStake {tx : Transaction} (h : tx.addsStake = true) :
    tx.isEvm = false := by
  unfold Transaction.addsStake at h
  unfold Transaction.isEvm
  cases htype : tx.txType <;> simp [htype] at h ⊢

/-- The validator they add it to: the sender, or the recipient of a delegation. -/
def SignedTransaction.stakedTo (tx : SignedTransaction H) : Option Address :=
  if tx.tx.txType = .delegate then tx.tx.recipient else some tx.sender

/-! ## The totals -/

variable {l l' : Ledger H}

namespace Ledger

variable {v : Address}

/-- **A validator within the cap**: its stake and all that is delegated to it
are at most a fifth of everything. -/
def Capped (l : Ledger H) (v : Address) : Prop :=
  (l.accounts v).getStake.val + l.totalDelegatedTo v ≤ l.totalStake * 20 / 100

/-- An account without a delegation has nothing delegated. -/
def Idle (l : Ledger H) : Prop :=
  ∀ a, (l.accounts a).delegatedTo = none → (l.accounts a).getDelegatedAmount.val = 0

/-- What an account adds to the total of a validator. -/
def shareOf (v a : Address) (acc : Account H) : ℕ :=
  (if a = v then acc.getStake.val else 0) + delegatedTo acc v

theorem share_eq (l : Ledger H) (v : Address) :
    (l.accounts v).getStake.val + l.totalDelegatedTo v = ∑ a, shareOf v a (l.accounts a) := by
  unfold shareOf
  rw [sum_add_distrib, sum_ite_eq' univ v, if_pos (mem_univ v)]
  rfl

/-- A sum over all accounts, after one of them is replaced. -/
theorem sum_set (l : Ledger H) (w : Address → Account H → ℕ) (a : Address) (acc : Account H) :
    ∑ b, w b ((l.set a acc).accounts b) + w a (l.accounts a)
      = ∑ b, w b (l.accounts b) + w a acc := by
  have hrest : ∑ b ∈ univ.erase a, w b ((l.set a acc).accounts b)
      = ∑ b ∈ univ.erase a, w b (l.accounts b) :=
    sum_congr rfl fun b hb => by rw [set_accounts_of_ne l (ne_of_mem_erase hb)]
  have hnew := add_sum_erase _ (fun b => w b ((l.set a acc).accounts b)) (mem_univ a)
  have hold := add_sum_erase _ (fun b => w b (l.accounts b)) (mem_univ a)
  rw [set_accounts_self] at hnew
  omega

/-- The totals depend on stakes and delegations only. -/
theorem totals_congr (h : ∀ a, (l'.accounts a).stakes = (l.accounts a).stakes) (v : Address) :
    l'.totalStake = l.totalStake ∧ (l'.accounts v).getStake.val + l'.totalDelegatedTo v
      = (l.accounts v).getStake.val + l.totalDelegatedTo v := by
  simp only [Account.stakes, Prod.mk.injEq] at h
  unfold totalStake totalDelegatedTo delegatedTo
  simp [h]

/-- What lets an amount through bounds the totals. -/
theorem CapAllows.bounds {added : U256} (h : CapAllows l v added) (hadded : added.val ≠ 0)
    (htotal : l.totalStake ≠ 0) :
    (l.totalStake + added.val) * 20 < u256Size ∧
      (l.accounts v).getStake.val + l.totalDelegatedTo v + added.val
        ≤ (l.totalStake + added.val) * 20 / 100 := by
  have hsize : 1 < u256Size := by norm_num [u256Size]
  obtain h | h | ⟨m, hm, hle⟩ := h
  · exact absurd h hadded
  · change min l.totalStake (u256Size - 1) = 0 at h
    omega
  · obtain ⟨p, hp, hm⟩ := Option.bind_eq_some_iff.mp hm
    obtain rfl := Option.some.inj hm
    have hp := ofNat?_eq_some.mp hp
    have hlt := p.isLt
    rw [saturated_satAdd] at hp
    change min (l.totalStake + added.val) (u256Size - 1) * 20 = p.val at hp
    change min (min ((l.accounts v).getStake.val + min (l.totalDelegatedTo v) (u256Size - 1))
      (u256Size - 1) + added.val) (u256Size - 1) ≤ p.val / 100 at hle
    omega

/-- An amount let through leaves the validator within the cap, if the
sender's account changes by it and by nothing else. -/
theorem CapAllows.capped_set {added : U256} (h : CapAllows l v added) (hadded : added.val ≠ 0)
    (htotal : l.totalStake ≠ 0) {sender : Address}
    (hweight : acc.getStake.val + acc.getDelegatedAmount.val
      = (l.accounts sender).getStake.val + (l.accounts sender).getDelegatedAmount.val + added.val)
    (hshare : shareOf v sender acc = shareOf v sender (l.accounts sender) + added.val) :
    (l.set sender acc).Capped v := by
  obtain ⟨-, hle⟩ := h.bounds hadded htotal
  have hstake := l.sum_set (fun _ acc => acc.getStake.val + acc.getDelegatedAmount.val) sender acc
  have hown := l.sum_set (shareOf v) sender acc
  rw [share_eq] at hle
  unfold Capped
  rw [share_eq]
  unfold totalStake at hle ⊢
  omega

end Ledger

/-! ## The three types -/

variable {tx : SignedTransaction H} {r : ExecutionResult H}

namespace Executor

open Ledger

variable (x : Executor H)

/-- A delegation to the validator the account delegates to, if to any. -/
theorem delegated_shareOf {amount : U256} {v : Address} (rest : U256) (a : Address)
    (hall : acc.delegatedTo.all (fun w => w = v) = true)
    (hidle : acc.delegatedTo = none → acc.getDelegatedAmount.val = 0)
    (hroom : acc.getDelegatedAmount.val + amount.val < u256Size) :
    (delegated acc rest v amount).getStake = acc.getStake ∧
      shareOf v a (delegated acc rest v amount) = shareOf v a acc + amount.val := by
  have hstake : (delegated acc rest v amount).getStake = acc.getStake := by
    unfold delegated
    split <;> rfl
  have hto : (delegated acc rest v amount).delegatedTo = some v := by
    unfold delegated
    cases hd : acc.delegatedTo with
    | none => rfl
    | some w =>
      rw [hd] at hall
      exact congrArg some (of_decide_eq_true hall)
  have hold : delegatedTo acc v = acc.getDelegatedAmount.val := by
    unfold delegatedTo
    cases hd : acc.delegatedTo with
    | none => exact (hidle hd).symm
    | some w =>
      rw [hd] at hall
      rw [of_decide_eq_true hall, if_pos rfl]
  refine ⟨hstake, ?_⟩
  unfold shareOf
  rw [hstake, hold]
  unfold delegatedTo
  rw [if_pos hto, delegated_getDelegatedAmount rest amount v hidle hroom, Nat.add_assoc]

/-- A transaction that added stake on the ledger left the validator within
the cap. -/
theorem executeNative_capped (hadds : tx.tx.addsStake = true) (hidle : l.Idle)
    (hrun : (x.executeNative tx.tx tx.sender).run exec l = (.ok r, l')) :
    r.success = true ∧ (l.totalStake ≠ 0 → tx.tx.value.val ≠ 0 →
      ∃ v, tx.stakedTo = some v ∧ l'.Capped v) := by
  unfold executeNative at hrun
  unfold SignedTransaction.stakedTo
  simp only [Transaction.addsStake, Bool.or_eq_true, decide_eq_true_eq] at hadds
  have hpart : ∀ a, (l.accounts a).getStake.val + (l.accounts a).getDelegatedAmount.val
      ≤ l.totalStake := fun a =>
    single_le_sum (f := fun a => (l.accounts a).getStake.val
      + (l.accounts a).getDelegatedAmount.val) (fun _ _ => Nat.zero_le _) (mem_univ a)
  obtain (htype | htype) | htype := hadds <;> rw [htype] at hrun ⊢
  · obtain ⟨⟨n, -, -, hcap, -⟩, rfl, rest, newStake, -, hnew, rfl⟩ :=
      (executeStake_decides tx.tx tx.sender l False.elim
        (Nat.le_of_add_right_le (hpart _))).of_ok hrun
    refine ⟨rfl, fun htotal hvalue => ⟨tx.sender, rfl, hcap.capped_set hvalue htotal ?_ ?_⟩⟩
    · show newStake.val + (l.accounts tx.sender).getDelegatedAmount.val = _
      omega
    · show (if tx.sender = tx.sender then newStake.val else 0) + delegatedTo (l.accounts tx.sender) _ = _
      unfold shareOf
      rw [if_pos rfl, if_pos rfl]
      omega
  · obtain ⟨⟨-, -, hcap, -⟩, rfl, hzero, rest, -, rfl⟩ :=
      (executeValidatorRegister_decides tx.tx tx.sender l False.elim).of_ok hrun
    refine ⟨rfl, fun htotal hvalue => ⟨tx.sender, rfl, hcap.capped_set hvalue htotal ?_ ?_⟩⟩
    · show tx.tx.value.val + (l.accounts tx.sender).getDelegatedAmount.val = _
      omega
    · show (if tx.sender = tx.sender then tx.tx.value.val else 0)
        + delegatedTo (l.accounts tx.sender) _ = _
      unfold shareOf
      rw [if_pos rfl, if_pos rfl]
      omega
  · obtain ⟨⟨v, hv, -, hall, -, hcap, -⟩, rfl, v', rest, hv', -, rfl⟩ :=
      (executeDelegate_decides tx.tx tx.sender l False.elim).of_ok hrun
    obtain rfl : v = v' := Option.some.inj (hv.symm.trans hv')
    refine ⟨rfl, fun htotal hvalue => ⟨v, hv, ?_⟩⟩
    obtain ⟨hroom, -⟩ := hcap.bounds hvalue htotal
    have hroom : (l.accounts tx.sender).getDelegatedAmount.val + tx.tx.value.val < u256Size := by
      have := hpart tx.sender
      omega
    obtain ⟨hstake, hshare⟩ := delegated_shareOf rest tx.sender hall (hidle tx.sender) hroom
    refine hcap.capped_set hvalue htotal ?_ hshare
    rw [hstake, delegated_getDelegatedAmount rest tx.tx.value v (hidle tx.sender) hroom,
      Nat.add_assoc]

/-- On the ledger the settlement returns, and moves funds only. -/
theorem settle_ensures (hevm : tx.tx.isEvm = false) (producer : Address) (l : Ledger H) :
    (settle tx producer r).Ensures exec l (fun r' l' => r' = r ∧
      ∀ a, (l'.accounts a).stakes = (l.accounts a).stakes) := by
  have hset : ∀ (l : Ledger H) b amount a,
      ((l.set b ((l.accounts b).addBalance amount)).accounts a).stakes = (l.accounts a).stakes := by
    intro l b amount a
    by_cases hab : a = b
    · rw [hab, set_accounts_self]
      rfl
    · rw [set_accounts_of_ne l hab]
  unfold settle finalizeNonce
  rw [hevm]
  refine ensures_write (run_updateAccount tx.sender _ l) (ensures_write (run_updateAccount _ _ _) ?_)
  exact .pure ⟨rfl, fun a => (hset _ _ _ a).trans (hset _ _ _ a)⟩

theorem subBalance_zero (a : Address) :
    (subBalance a zero : StateProg H (StateError H) Unit)
      = updateAccount a id := by
  have hsub : ∀ acc : Account H, acc.subBalance zero = some acc := by
    intro acc
    unfold Account.subBalance sub?
    rw [if_pos (show zero.val ≤ acc.balance.val from Nat.zero_le _)]
    rfl
  unfold subBalance
  simp only [hsub]
  rfl

end Executor

/-! ## The rule -/

variable [HashScheme H] [Digest H (TrieNode H (Cell H))]

/-- Stakes and delegations in the working trie. -/
def StateDB.stakesAt (s : StateDB H) (a : Address) :
    Except (StateError H) (U256 × Option Address × U256) :=
  (s.workingAccount a).map Account.stakes

/-- Stakes and delegations of the last commit. -/
def StateDB.committedStakesAt (s : StateDB H) (a : Address) :
    Except (StateError H) (U256 × Option Address × U256) :=
  (s.committedAccount a).map Account.stakes

namespace Executor

open Ledger StateDB

variable (x : Executor H) {s : StateDB H}

/-- **The rule for a transaction that adds stake** to a database that
implements the ledger `l`. A success with a non-zero amount, where anything is
staked, leaves the validator within the cap; after anything else, a panic apart,
all stakes and delegations are as before. -/
def StakeRule (s : StateDB H) (l : Ledger H) (tx : SignedTransaction H) (producer : Address) :
    Prop :=
  match x.execute tx producer s with
  | (.ok r, s') =>
    if r.success then
      l.totalStake ≠ 0 → tx.tx.value.val ≠ 0 →
        ∃ l' v, Refines s' l' ∧ tx.stakedTo = some v ∧ l'.Capped v
    else ∀ a, s'.stakesAt a = s.stakesAt a
  | (.err _, s') => ∀ a, s'.stakesAt a = s.stakesAt a
  | (.panic, _) => True

section Rejected

variable {S : Address → U256 × Option Address × U256} {cols : StateColumns H} {a : Address}
  {s₂ : StateDB H}

/-- Closed accounts with given stakes and delegations. -/
abbrev Staked (S : Address → U256 × Option Address × U256) (cols : StateColumns H) (a : Address)
    (acc : Account H) : Prop :=
  Closed cols acc ∧ acc.stakes = S a

section

omit [Digest H (TrieNode H (Cell H))]

theorem charges_staked : Charges (Staked S cols) a :=
  fun _ _ h => ⟨h.1.congr rfl rfl, h.2⟩

theorem counts_staked : Counts (Staked S cols) a :=
  fun _ h => ⟨h.1.congr rfl rfl, h.2⟩

theorem credits_staked : Credits (Staked S cols) :=
  fun _ _ _ h => ⟨h.1.congr rfl rfl, h.2⟩

end

theorem stakesAt_eq (h : Guarded (fun a acc => acc.stakes = S a) cols s) (a : Address) :
    s.stakesAt a = .ok (S a) := by
  obtain ⟨acc, hacc⟩ := h.stored.stored.workingAccount_eq a
  unfold stakesAt
  rw [hacc]
  exact congrArg Except.ok (h.working a acc hacc)

/-- A database that implements a ledger has its accounts in every version. -/
theorem guarded_of_refines (h : s.WellStored) (hl : Refines s l) :
    Guarded (fun a acc => acc.stakes = (l.accounts a).stakes) s.cols s := by
  refine ⟨h.over, fun a acc hacc => ?_, fun a acc hacc => ?_⟩
  · rw [Except.ok.inj ((hl.trieAccount_eq a).symm.trans hacc)]
  · rw [hl.cached a acc hacc]

theorem executeBody_eq (hevm : tx.tx.isEvm = false) (producer : Address) :
    x.executeBody tx producer = (x.executeNative tx.tx tx.sender).run StateDB.exec := by
  unfold Transaction.isEvm at hevm
  unfold executeBody
  cases htype : tx.tx.txType <;> simp [htype] at hevm ⊢

/-- A body that returned is settled, and the validator is within the cap. -/
theorem settled_capped (hadds : tx.tx.addsStake = true) (producer : Address) (hl : Refines s l)
    (hidle : l.Idle) (hbody : (x.executeNative tx.tx tx.sender).run StateDB.exec s = (.ok r, s₂)) :
    ∃ s₃ l₃, (settle tx producer r).run StateDB.exec s₂ = (.ok r, s₃) ∧ r.success = true ∧
      Refines s₃ l₃ ∧ (l.totalStake ≠ 0 → tx.tx.value.val ≠ 0 →
        ∃ v, tx.stakedTo = some v ∧ l₃.Capped v) := by
  -- database and ledger run the body alike
  obtain ⟨hres, hl₂⟩ := Refines.run (x.executeNative tx.tx tx.sender) s l hl
  rcases hrun : (x.executeNative tx.tx tx.sender).run exec l with ⟨o, l₂⟩
  rw [hbody, hrun] at hres hl₂
  obtain rfl : .ok r = o := hres
  obtain ⟨hsuccess, hcap⟩ := x.executeNative_capped hadds hidle hrun
  -- and the settlement
  obtain ⟨r', l₃, hsettle, rfl, hsame⟩ :=
    settle_ensures (r := r) (Transaction.isEvm_of_addsStake hadds) producer l₂
  obtain ⟨hres, hl₃⟩ := Refines.run (settle tx producer r') s₂ l₂ hl₂
  rw [hsettle] at hres hl₃
  refine ⟨_, l₃, Prod.ext hres rfl, hsuccess, hl₃, fun htotal hvalue => ?_⟩
  obtain ⟨v, hv, hcapped⟩ := hcap htotal hvalue
  obtain ⟨htotal₃, hown₃⟩ := totals_congr hsame v
  refine ⟨v, hv, ?_⟩
  unfold Capped
  rw [htotal₃, hown₃]
  exact hcapped

/-- A body that failed is undone; the penalty is paid, and moves funds only. -/
theorem penalized_stakes (tx : SignedTransaction H)
    (hG : Guarded (fun a acc => acc.stakes = S a) s.cols s)
    (hcommit : ∀ a, s.committedStakesAt a = s.stakesAt a) (h₂ : StoredOver s.cols s₂)
    (producer : Address) :
    Guarded (fun a acc => acc.stakes = S a) s.cols
      ((penalize tx producer).run StateDB.exec (s₂.revert (s.snapshot x.runtime.iter))).2 := by
  refine Guarded.run (penalize_within (U := fun _ => True) charges_staked counts_staked
    credits_staked rfl producer) _ (hG.revert (fun a acc hacc => ?_) h₂ x.runtime.iter)
  have ha := (hcommit a).trans (stakesAt_eq hG a)
  unfold committedStakesAt at ha
  rw [hacc] at ha
  exact Except.ok.inj ha

/-- With the stakes of the last commit the rule holds. -/
theorem stakeRule_of_committed (h : s.WellStored) (hl : Refines s l) (hidle : l.Idle)
    (hcommit : ∀ a, s.committedStakesAt a = s.stakesAt a) (hadds : tx.tx.addsStake = true)
    (producer : Address) : x.StakeRule s l tx producer := by
  have hG := guarded_of_refines h hl
  have hkept : ∀ {t}, Guarded (fun a acc => acc.stakes = (l.accounts a).stakes) s.cols t →
      ∀ a, t.stakesAt a = s.stakesAt a :=
    fun ht a => (stakesAt_eq ht a).trans (stakesAt_eq hG a).symm
  -- the prepayment leaves all stakes alone
  have hpaid : Guarded (fun a acc => acc.stakes = (l.accounts a).stakes) s.cols
      ((prepay tx).run StateDB.exec s).2 :=
    Guarded.run (prepay_within (U := fun _ => True) charges_staked (fun _ => counts_staked) rfl) s hG
  have hl₁ := (Refines.run (prepay tx) s l hl).2
  unfold StakeRule
  obtain ⟨e, s₁, hpre, hx⟩ | ⟨s₁, hpre, hx⟩ | ⟨s₁, hpre, hrest⟩ := x.execute_cases tx producer s
  all_goals rw [hpre] at hpaid hl₁
  · rw [hx]
    exact hkept hpaid
  · rw [hx]
    trivial
  rw [x.executeBody_eq (Transaction.isEvm_of_addsStake hadds) producer] at hrest
  obtain ⟨s₂, hbody, hx⟩ | ⟨r, s₂, hbody, hx⟩ | ⟨e, s₂, hbody, hx⟩ := hrest <;> rw [hx]
  · trivial
  · generalize ((prepay tx).run Ledger.exec l).2 = l₁ at hl₁
    have hsame : ∀ a, (l₁.accounts a).stakes = (l.accounts a).stakes :=
      fun a => hpaid.working a _ (hl₁.trieAccount_eq a)
    have hidle₁ : l₁.Idle := by
      intro a
      have ha := hsame a
      simp only [Account.stakes, Prod.mk.injEq] at ha
      rw [ha.2.1, ha.2.2]
      exact hidle a
    obtain ⟨s₃, l₃, hsettle, hsuccess, hl₃, hcap⟩ :=
      x.settled_capped hadds producer hl₁ hidle₁ hbody
    rw [hsettle]
    show if r.success = true then _ else _
    rw [if_pos hsuccess, ← (totals_congr hsame tx.sender).1]
    intro htotal hvalue
    obtain ⟨v, hv⟩ := hcap htotal hvalue
    exact ⟨l₃, v, hl₃, hv⟩
  · have h₂ := StoredOver.run (x.executeNative_within (U := fun _ => True)
      (owner_closed s.cols tx.sender).spends (credits_closed s.cols) tx.tx (fun _ _ _ => trivial))
      s₁ hpaid.stored
    rw [hbody] at h₂
    have hpenal := x.penalized_stakes tx hG hcommit h₂ producer
    rcases hdone : (penalize tx producer).run StateDB.exec
      (s₂.revert (s.snapshot x.runtime.iter)) with ⟨_ | e | _, s₃⟩
    all_goals rw [hdone] at hpenal
    · rw [Act.bind_ok _ hdone]
      exact hkept hpenal
    · rw [Act.bind_err _ hdone]
      exact hkept hpenal
    · rw [Act.bind_panic _ hdone]
      trivial

/-! ## A transaction that is always refused -/

/-- A delegation to nobody, at no cost. -/
def refusedTx (a : Address) : SignedTransaction H where
  tx :=
    { txType := .delegate, chainId := 0, nonce := 0, recipient := none, value := zero
      data := [], gasLimit := 0, gasPrice := zero, publicKey := PublicKey.zero
      signature := Signature.zero }
  hash := 0
  sender := a

/-- An update succeeds in a stored state, and changes one account. -/
theorem updateAccount_aside (h : s.WellStored) {f : Account H → Account H}
    (hf : ∀ acc, Closed s.cols acc → Closed s.cols (f acc)) (b : Address) :
    ∃ s', (stateCall (updateAccount b f)).run StateDB.exec s = (.ok (), s') ∧
      s'.WellStored ∧ s'.cols = s.cols ∧ ∀ a ≠ b, s'.workingAccount a = s.workingAccount a := by
  obtain ⟨acc, cache, hget, hclosed, h₁⟩ := h.getAccount_eq b
  obtain ⟨trie, hset, h₂⟩ := h₁.setAccount_eq (a := b) (hf acc hclosed)
  refine ⟨_, ?_, h₂, rfl, fun a hab => ?_⟩
  · show ((updateAccount b f).mapErr ExecutorError.state).run StateDB.exec s = _
    rw [Prog.run_mapErr, Act.mapErr_eq_ok]
    show Prog.run StateDB.exec (Prog.bind (Prog.ofExcept (s.getAccount b).1)
      fun acc => setAccount b (f acc)) (s.getAccount b).2 = _
    rw [hget]
    show Prog.run StateDB.exec (Prog.ofExcept (setAccount { s with accountCache := cache } b
      (f acc)).1) (setAccount { s with accountCache := cache } b (f acc)).2 = _
    rw [hset]
    rfl
  · have ha := h₁.workingAccount_setAccount b a (f acc)
    rw [hset, if_neg hab] at ha
    exact ha

variable (h : s.WellStored) (b : Address)
include h b

theorem prepay_refusedTx :
    ∃ s', (prepay (refusedTx b)).run StateDB.exec s = (.ok (), s') ∧ s'.WellStored ∧
      s'.cols = s.cols := by
  obtain ⟨s₁, hsub, h₁, hcols₁, -⟩ := updateAccount_aside h (f := id) (fun _ hacc => hacc) b
  obtain ⟨s₂, hinc, h₂, hcols₂, -⟩ := updateAccount_aside h₁ (f := Account.incrementNonce)
    (fun _ hacc => hacc.congr rfl rfl) b
  refine ⟨s₂, ?_, h₂, hcols₂.trans hcols₁⟩
  show (stateCall (subBalance b zero) >>= fun _ =>
    stateCall (incrementNonce b)).run StateDB.exec s = _
  rw [subBalance_zero, Prog.run_bind, Act.bind_ok _ hsub]
  exact hinc

theorem penalize_refusedTx :
    ∃ s', (penalize (refusedTx b) b).run StateDB.exec s = (.ok (), s') ∧
      ∀ a ≠ b, s'.workingAccount a = s.workingAccount a := by
  obtain ⟨s₁, hsub, h₁, -, ha₁⟩ := updateAccount_aside h (f := id) (fun _ hacc => hacc) b
  obtain ⟨s₂, hadd, h₂, -, ha₂⟩ := updateAccount_aside h₁ (f := fun acc => acc.addBalance zero)
    (fun _ hacc => hacc.congr rfl rfl) b
  obtain ⟨s₃, hinc, -, -, ha₃⟩ := updateAccount_aside h₂ (f := Account.incrementNonce)
    (fun _ hacc => hacc.congr rfl rfl) b
  refine ⟨s₃, ?_, fun a hab => (ha₃ a hab).trans ((ha₂ a hab).trans (ha₁ a hab))⟩
  show (stateCall (subBalance b zero) >>= fun _ =>
    stateCall (addBalance b zero) >>= fun _ =>
      stateCall (incrementNonce b)).run StateDB.exec s = _
  rw [subBalance_zero, Prog.run_bind, Act.bind_ok _ hsub, Prog.run_bind]
  exact (Act.bind_ok _ hadd).trans hinc

/-- After the refused transaction the other accounts are those of the last
commit. -/
theorem execute_refusedTx :
    ∃ s', x.execute (refusedTx b) b s
        = (.ok (.ofFailure 0 (x.errorText .missingRecipient)), s') ∧
      ∀ a ≠ b, s'.workingAccount a = s.committedAccount a := by
  obtain ⟨s₁, hpre, h₁, hcols⟩ := prepay_refusedTx h b
  have hle : s.cols.Le s₁.cols := hcols ▸ .refl _
  obtain ⟨s₂, hpen, ha⟩ := penalize_refusedTx (h.revert h₁ hle x.runtime.iter) b
  refine ⟨s₂, ?_, fun a hab => (ha a hab).trans (h.committed_eq hle a)⟩
  rw [execute_eq, executeFrom, Act.bind_ok _ hpre]
  exact (Act.bind_ok _ hpen).trans rfl

end Rejected

/-- **The stake cap is respected and a rejected transaction changes no stake,
for every transaction that adds stake, exactly when the working trie has the
stakes and delegations of the last commit.** -/
theorem stakeRule_iff {s : StateDB H} {l : Ledger H} (h : s.WellStored) (hl : Refines s l)
    (hidle : l.Idle) :
    (∀ tx : SignedTransaction H, tx.tx.addsStake = true → ∀ producer, x.StakeRule s l tx producer) ↔
      ∀ a, s.committedStakesAt a = s.stakesAt a := by
  refine ⟨fun hrule a => ?_, fun hcommit tx hadds producer =>
    x.stakeRule_of_committed h hl hidle hcommit hadds producer⟩
  -- somebody else sends the refused transaction
  obtain ⟨b, hb⟩ : ∃ b : Address, a ≠ b := by
    by_cases ha : a = Address.zero
    · exact ⟨TREASURY_ADDRESS, by rw [ha]; decide⟩
    · exact ⟨Address.zero, ha⟩
  obtain ⟨s', hx, hcommit⟩ := x.execute_refusedTx h b
  have hkept := hrule (refusedTx b) rfl b
  unfold StakeRule at hkept
  rw [hx] at hkept
  have ha : s'.stakesAt a = s.stakesAt a := hkept a
  rw [← ha]
  unfold stakesAt committedStakesAt
  rw [hcommit a hb]

/-- A stake of the least amount. -/
def overStake : SignedTransaction CodeName :=
  let tx := sampleTx .stake 2 0 none MIN_VALIDATOR_STAKE 42000 zero
  ⟨tx, tx.hash, sampleAddress 2⟩

/-- A rich account and two validators. -/
def stakeAccounts : List (UInt8 × U256 × U256) :=
  [(1, sampleAmount (10 ^ 21), zero), (2, zero, sampleAmount (10 ^ 22)),
    (3, zero, sampleAmount (10 ^ 23))]

/-- Sets them, and an account that delegates to one of the validators. -/
def setStakes : StateProg CodeName (StateError CodeName) Unit := do
  setAccounts stakeAccounts
  setDelegation (sampleAddress 4) (sampleAddress 3) (sampleAmount (10 ^ 21))

/-- The state before the commit. -/
def uncommittedStakes : StateDB CodeName := (setStakes.run StateDB.exec (new (.empty CodeName))).2

/-- A delegation to one of the validators. -/
def delegationTo (validator : UInt8) : SignedTransaction CodeName :=
  let tx := sampleTx .delegate 1 0 (some (sampleAddress validator)) (sampleAmount (10 ^ 20)) 100000
    zero
  ⟨tx, tx.hash, sampleAddress 1⟩

theorem uncommittedStakes_stored :
    uncommittedStakes.WellStored ∧ ∃ l, Refines uncommittedStakes l ∧ l.Idle := by
  have hwithin : StateProg.Within (fun _ acc => Closed (.empty CodeName) acc) (fun _ => True)
      (fun _ => True) setStakes := (setAccounts_within _).bind fun _ _ =>
    setDelegation_within (owner_closed (.empty CodeName) (sampleAddress 4)).spends _ _
  refine ⟨run_new_stored hwithin, _, (Refines.run setStakes _ _
    (Refines.new (StateColumns.empty_sound CodeName))).2, fun a hnone => ?_⟩
  have hamounts := (setAccounts_undelegated stakeAccounts
    (l := ⟨fun _ => .newEoa, .empty⟩) ⟨fun _ => rfl, rfl⟩).amounts a
  by_cases ha : a = sampleAddress 4
  · rw [ha] at hnone
    change ((Ledger.set _ (sampleAddress 4) _).accounts (sampleAddress 4)).delegatedTo = _ at hnone
    rw [set_accounts_self] at hnone
    cases hnone
  · change ((Ledger.set _ (sampleAddress 4) _).accounts a).getDelegatedAmount.val = 0
    rw [set_accounts_of_ne _ ha]
    exact hamounts

/-- Whether the delegation succeeds after the commit. -/
def delegates (validator : UInt8) : Bool :=
  match (sampleExecutor.execute (delegationTo validator) (sampleAddress 9)
    uncommittedStakes.commit.2).1 with
  | .ok r => r.success
  | _ => false

/-- After the commit the rule holds; one of the delegations succeeds, and the cap
refuses the other one. -/
theorem stakeRule_committed :
    (∃ l, Refines uncommittedStakes.commit.2 l ∧ l.totalStake ≠ 0 ∧
      ∀ tx : SignedTransaction CodeName, tx.tx.addsStake = true → ∀ producer,
        sampleExecutor.StakeRule uncommittedStakes.commit.2 l tx producer) ∧
      (∀ v, (delegationTo v).tx.addsStake = true) ∧ delegates 2 = true ∧ delegates 3 = false := by
  obtain ⟨hstored, l, hl, hidle⟩ := uncommittedStakes_stored
  refine ⟨⟨l, hl.commit, fun htotal => ?_, ?_⟩, fun _ => rfl, by decide +kernel, by decide +kernel⟩
  · have hread := hl.getTotalStake_eq
    rw [htotal] at hread
    exact absurd hread (by decide +kernel)
  · exact (sampleExecutor.stakeRule_iff hstored.commit.1 hl.commit hidle).mpr
      fun a => congrArg (Except.map _) (noPending_commit uncommittedStakes a)

/-- A validator with as much, and the sender, both pending. -/
def pendingStakes : StateDB CodeName :=
  sampleDb [(1, zero, MIN_VALIDATOR_STAKE), (2, sampleAmount (10 ^ 23), zero)]

deriving instance DecidableEq for SignedTransaction

/-- **A rejected `Stake` wipes out the stake of a bystander**: the transaction
is valid, its execution fails at the cap, and the validator whose stake was
pending has none left in the trie. -/
theorem overStake_wipes_stake :
    (∃ l, Refines pendingStakes l ∧ l.Undelegated) ∧
      ((sampleExecutor.validateTransaction overStake.tx).run StateDB.exec pendingStakes).1
        = .ok overStake ∧
      (match (sampleExecutor.execute overStake (sampleAddress 3) pendingStakes).1 with
        | .ok r => r.error
        | _ => none) = some (sampleExecutor.errorText (.validatorStakeTooHigh 20
          (sampleAmount (4 * 10 ^ 21)) MIN_VALIDATOR_STAKE)) ∧
      pendingStakes.stakesAt (sampleAddress 1) = .ok (MIN_VALIDATOR_STAKE, none, zero) ∧
      (sampleExecutor.execute overStake (sampleAddress 3) pendingStakes).2.stakesAt
        (sampleAddress 1) = .ok (zero, none, zero) := by
  refine ⟨sampleDb_refines _, ?_, ?_, ?_, ?_⟩
  all_goals decide +kernel

end Executor

end Qfc
