import QfcCore.State.Stored

/-!
# What the account methods may write

A condition `G a acc` on the accounts an address may hold, and a condition `U`
on undelegations, give a contract for programs: given that every account read
meets the first, every account written does, and every undelegation stored
meets the second. The methods of the state database are checked against it
once, each under what it needs of `G`: receiving funds keeps it (`Credits`), and
for the address whose owner acts, so do paying (`Charges`), counting up the nonce
(`Counts`), every change that leaves storage, code and nonce alone (`Spends`),
or every one that leaves storage and code alone (`Owner`).

With "the account is closed" for `G`, the contract says that programs keep a
stored state stored.
-/

namespace Qfc.StateProg

variable {H ε α β : Type} (G : Address → Account H → Prop) (U : Undelegation → Prop)

/-- Only accounts and undelegations that meet the conditions are written. -/
def pre : AccountCmd H → Prop
  | .setAccount a acc => G a acc
  | .storeUndelegation u => U u
  | _ => True

/-- Accounts read meet the condition. -/
def post : (c : AccountCmd H) → c.Resp → Prop
  | .getAccount a, r => ∀ acc, r = .ok acc → G a acc
  | _, _ => True

/-- **A program that writes only what the conditions allow.** -/
abbrev Within (Q : α → Prop) (p : StateProg H ε α) : Prop := p.Respects (pre G U) (post G) Q

/-- A program that does so, whatever it returns. -/
abbrev Allowed (p : StateProg H ε α) : Prop := Within G U (fun _ => True) p

/-- Receiving funds keeps the condition. -/
def Credits : Prop := ∀ a acc amount, G a acc → G a (acc.addBalance amount)

/-- The condition on `a` depends on storage and code only. -/
def Owner (a : Address) : Prop :=
  ∀ acc acc', G a acc → acc'.storageRoot = acc.storageRoot → acc'.codeHash = acc.codeHash → G a acc'

/-- The condition on `a` depends on storage, code and nonce only. -/
def Spends (a : Address) : Prop :=
  ∀ acc acc', G a acc → acc'.storageRoot = acc.storageRoot → acc'.codeHash = acc.codeHash →
    acc'.nonce = acc.nonce → G a acc'

/-- The condition on `a` does not depend on the balance. -/
def Charges (a : Address) : Prop := ∀ acc balance, G a acc → G a { acc with balance := balance }

/-- Counting up the nonce keeps the condition on `a`. -/
def Counts (a : Address) : Prop := ∀ acc, G a acc → G a acc.incrementNonce

variable {G U} {a b : Address}

theorem Owner.spends (h : Owner G a) : Spends G a :=
  fun acc acc' hacc hroot hcode _ => h acc acc' hacc hroot hcode

theorem Owner.counts (h : Owner G a) : Counts G a := fun acc hacc => h acc _ hacc rfl rfl

theorem Spends.charges (h : Spends G a) : Charges G a :=
  fun acc _ hacc => h acc _ hacc rfl rfl rfl

theorem Owner.charges (h : Owner G a) : Charges G a := h.spends.charges

theorem getAccount_within (a : Address) : Within G U (G a) (getAccount a) := by
  refine ⟨trivial, fun r hr => ?_⟩
  cases r with
  | ok acc => exact hr acc rfl
  | error e => trivial

theorem setAccount_within {acc : Account H} (h : G a acc) :
    Allowed G U (setAccount a acc) := by
  refine ⟨h, fun r _ => ?_⟩
  cases r <;> trivial

/-- A method that reads one account and returns something of it. -/
theorem map_getAccount_within (a : Address) (f : Account H → α) :
    Allowed G U (getAccount a >>= fun acc => pure (f acc)) :=
  (getAccount_within a).bind (fun _ _ => trivial)

theorem updateAccount_within {f : Account H → Account H} (h : ∀ acc, G a acc → G a (f acc)) :
    Allowed G U (updateAccount a f) :=
  (getAccount_within a).bind (fun acc hacc => setAccount_within (h acc hacc))

theorem addBalance_within (hc : Credits G) (a : Address) (amount : U256) :
    Allowed G U (addBalance a amount) :=
  updateAccount_within (fun acc hacc => hc a acc amount hacc)

variable (a)

theorem getBalance_within : Allowed G U (getBalance a) :=
  map_getAccount_within a _

theorem getNonce_within : Allowed G U (getNonce a) :=
  map_getAccount_within a _

theorem getStake_within : Allowed G U (getStake a) :=
  map_getAccount_within a _

theorem getDelegation_within : Allowed G U (getDelegation a) :=
  map_getAccount_within a _

theorem getDelegationAmount_within (a b : Address) :
    Allowed G U (getDelegationAmount a b) :=
  map_getAccount_within a _

theorem getTotalDelegatedTo_within :
    Allowed G U (getTotalDelegatedTo a) := by
  refine ⟨trivial, fun r _ => ?_⟩
  cases r <;> trivial

theorem getTotalStake_within : Allowed G U getTotalStake := by
  refine ⟨trivial, fun r _ => ?_⟩
  cases r <;> trivial

theorem storeUndelegation_within {u : Undelegation} (hu : U u) :
    Allowed G U (storeUndelegation u) :=
  ⟨hu, fun _ _ => trivial⟩

theorem deleteUndelegation_within (a b : Address) (t : ℕ) :
    Allowed G U (deleteUndelegation a b t) :=
  ⟨trivial, fun _ _ => trivial⟩

/-! ## Methods of the owner -/

variable {a}

section Charges

variable (hb : Charges G a)

include hb

theorem subBalance_within (amount : U256) : Allowed G U (subBalance a amount) := by
  refine (getAccount_within a).bind (fun acc hacc => ?_)
  cases hsub : acc.subBalance amount with
  | none => trivial
  | some acc' =>
    unfold Account.subBalance at hsub
    obtain ⟨rest, -, rfl⟩ := Option.map_eq_some_iff.mp hsub
    exact setAccount_within (hb acc rest hacc)

theorem transfer_within (hc : Credits G) (b : Address) (amount : U256) :
    Allowed G U (transfer a b amount) := by
  unfold transfer
  split
  · trivial
  · refine (getAccount_within a).bind (fun acc _ => ?_)
    split
    · trivial
    · exact (subBalance_within hb amount).bind (fun _ _ => addBalance_within hc b amount)

theorem setBalance_within (balance : U256) : Allowed G U (setBalance a balance) :=
  updateAccount_within (fun acc hacc => hb acc balance hacc)

end Charges

theorem setNonce_within (ho : Owner G a) (nonce : UInt64) :
    Allowed G U (setNonce a nonce) :=
  updateAccount_within (fun acc hacc => ho acc _ hacc rfl rfl)

section Spends

variable (hs : Spends G a)

include hs

theorem setStake_within (stake : U256) : Allowed G U (setStake a stake) :=
  updateAccount_within (fun acc hacc => hs acc _ hacc rfl rfl rfl)

theorem setContributionScore_within (score : UInt64) :
    Allowed G U (setContributionScore a score) :=
  updateAccount_within (fun acc hacc => hs acc _ hacc rfl rfl rfl)

theorem setDelegation_within (b : Address) (amount : U256) :
    Allowed G U (setDelegation a b amount) :=
  updateAccount_within (fun acc hacc => hs acc _ hacc rfl rfl rfl)

theorem addDelegationAmount_within (amount : U256) :
    Allowed G U (addDelegationAmount a amount) :=
  updateAccount_within (fun acc hacc => hs acc _ hacc rfl rfl rfl)

theorem subDelegationAmount_within (amount : U256) :
    Allowed G U (subDelegationAmount a amount) := by
  refine (getAccount_within a).bind (fun acc hacc => ?_)
  cases hsub : acc.subDelegatedAmount amount with
  | none => trivial
  | some acc' =>
    refine (setAccount_within (hs acc acc' hacc ?_ ?_ ?_)).bind (fun _ _ => trivial)
    all_goals
      unfold Account.subDelegatedAmount at hsub
      obtain ⟨rest, -, rfl⟩ := Option.map_eq_some_iff.mp hsub
      split <;> rfl

end Spends

end Qfc.StateProg

namespace Qfc.StateDB

variable {H ε α : Type} [HashScheme H] {U : Undelegation → Prop}

/-- Closed accounts are a condition that only storage and code matter for. -/
theorem owner_closed (cols : StateColumns H) (a : Address) :
    StateProg.Owner (fun _ acc => Closed cols acc) a :=
  fun _ _ hacc hroot hcode => hacc.congr hroot hcode

theorem credits_closed (cols : StateColumns H) :
    StateProg.Credits (fun _ (acc : Account H) => Closed cols acc) :=
  fun a acc _ hacc => owner_closed cols a acc _ hacc rfl rfl

variable [Digest H (TrieNode H (Cell H))]

/-- A stored state over given columns, undelegations apart. -/
structure StoredOver (cols : StateColumns H) (s : StateDB H) : Prop where
  stored : s.WellStored
  le : cols.Le s.cols
  ge : s.cols.Le cols

theorem WellStored.over {s : StateDB H} (h : s.WellStored) : StoredOver s.cols s :=
  ⟨h, .refl _, .refl _⟩

/-- A command that writes a closed account keeps a stored state stored. -/
theorem StoredOver.exec {cols : StateColumns H} (c : AccountCmd H) (s : StateDB H)
    (h : StoredOver cols s) (hpre : StateProg.pre (fun _ acc => Closed cols acc) U c) :
    StateProg.post (fun _ acc => Closed cols acc) c (StateDB.exec c s).1 ∧
      StoredOver cols (StateDB.exec c s).2 := by
  cases c with
  | getAccount a =>
    obtain ⟨acc, cache, hget, hclosed, hstored⟩ := h.stored.getAccount_eq a
    show (∀ acc', (s.getAccount a).1 = .ok acc' → Closed cols acc') ∧
      StoredOver cols (s.getAccount a).2
    rw [hget]
    refine ⟨fun acc' hacc' => ?_, hstored, h.le, h.ge⟩
    cases hacc'
    exact hclosed.mono h.ge
  | setAccount a acc =>
    obtain ⟨trie, hset, hstored⟩ := h.stored.setAccount_eq (a := a) (Closed.mono hpre h.le)
    show True ∧ StoredOver cols (s.setAccount a acc).2
    rw [hset]
    exact ⟨trivial, hstored, h.le, h.ge⟩
  | getTotalDelegatedTo v | getTotalStake => exact ⟨trivial, h⟩
  | storeUndelegation u | deleteUndelegation d v t =>
    exact ⟨trivial, h.stored.grow _ ⟨h.stored.cols.state, h.stored.cols.code⟩
      ⟨fun hn => hn, fun hc => hc⟩, ⟨h.le.state, h.le.code⟩, ⟨h.ge.state, h.ge.code⟩⟩

/-- A program that writes closed accounts only keeps a stored state stored. -/
theorem StoredOver.run {cols : StateColumns H} {Q : α → Prop} {p : StateProg H ε α}
    (hp : StateProg.Within (fun _ acc => Closed cols acc) U Q p) :
    Act.Keeps (StoredOver cols) (p.run StateDB.exec) :=
  hp.run StoredOver.exec

end Qfc.StateDB
