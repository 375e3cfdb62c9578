import QfcCore.Executor.Contract

/-!
# Coupled runs of the executor

Two runs of a block side by side, on two state databases that a relation `R`
couples. A `Coupling` collects what the relation has to do with the database's
own operations; then everything the executor does keeps it, and ends alike on
both sides. Contract code is covered, because the EVM only sees the answers to
its reads.

The same statement covers the invariants of a single run: those are the
couplings of a database with itself.

Along with `R` goes the growth of the columns, which is what a revert needs: the
state of a snapshot is still there when the snapshot is reverted to.
-/

namespace Qfc

open StateProg Executor

variable {H ε α β : Type}
  (R : StateDB H → StateDB H → Prop) (G : StateColumns H → Address → Account H → Prop)

/-- Coupled databases, the first of which has all that `cols` has. -/
def Over (cols : StateColumns H) (s t : StateDB H) : Prop :=
  R s t ∧ cols.Le s.cols

/-- **A coupled action**: from coupled databases it ends alike, in coupled
databases, with all columns kept. -/
def Coupled (act : Act (StateDB H) ε α) : Prop :=
  ∀ cols, Act.Simulates (Over R cols) act act

/-- An address whose account may be changed in every way. -/
def Free (a : Address) : Prop :=
  ∀ cols, Owner (G cols) a

/-- The EVM changes free addresses only. -/
def Confined (evm : Evm H) : Prop :=
  ∀ env tx, (evm.transact env tx).Returns (fun r => ∀ c ∈ r.2, c.touched → Free G c.address)

/-- The records a transaction may store meet the condition. -/
def Stores (x : Executor H) (U : Undelegation → Prop) (tx : Transaction) : Prop :=
  tx.txType = .undelegate →
    ∀ u : Undelegation, u.unlockAt = x.blockTimestamp / 1000 + UNSTAKE_DELAY_SECS → U u

/-- **What a relation has to keep** for the executor to keep it. Programs are
held to the contract `G`, `U`; contract storage and code are only written at
free addresses. -/
structure Coupling [HashScheme H] [Digest H (TrieNode H (Cell H))] (iter : IterOrder)
    (G : StateColumns H → Address → Account H → Prop) (U : Undelegation → Prop)
    (R : StateDB H → StateDB H → Prop) : Prop where
  credits : ∀ cols, Credits (G cols)
  run : ∀ {ε α : Type} {Q : α → Prop} {p : StateProg H ε α},
    (∀ cols, Within (G cols) U Q p) → Coupled R (p.run StateDB.exec)
  getStorage : ∀ a slot, Coupled R (Act.ofExcept (fun s => s.getStorage a slot))
  getCode : ∀ a, Coupled R (Act.ofExcept (fun s => s.getCode a))
  setStorage : ∀ a slot value, Free G a →
    Coupled R (Act.ofExcept (fun s => s.setStorage a slot value))
  setCode : ∀ a code, Free G a → Coupled R (Act.ofExcept (fun s => s.setCode a code))
  commit : ∀ {ε : Type}, Coupled R (fun s => ((.ok s.commit.1 : Outcome ε H), s.commit.2))
  snapshot : ∀ {s t}, R s t → s.snapshot iter = t.snapshot iter
  revert : ∀ {s₀ t₀ s t}, R s₀ t₀ → R s t → s₀.cols.Le s.cols →
    R (s.revert (s₀.snapshot iter)) (t.revert (s₀.snapshot iter))

/-- A database beside itself, with a property. -/
def Diagonal (P : StateDB H → Prop) (s t : StateDB H) : Prop := s = t ∧ P s

variable {R : StateDB H → StateDB H → Prop}

namespace Coupled

variable {act : Act (StateDB H) ε α} {f : α → Act (StateDB H) ε β}

theorem pure (a : α) : Coupled R (pure a : Act (StateDB H) ε α) := fun _ => .pure a

theorem orPanic (o : Option α) : Coupled R (Act.orPanic o : Act (StateDB H) ε α) :=
  fun _ => .orPanic o

theorem ofExcept {f : StateDB H → Except ε α × StateDB H}
    (h : ∀ s t, R s t → (f s).1 = (f t).1 ∧ R (f s).2 (f t).2 ∧ s.cols.Le (f s).2.cols) :
    Coupled R (Act.ofExcept f) := by
  refine fun cols => .ofExcept (fun s t hst => ?_)
  obtain ⟨h1, h2, hle⟩ := h s t hst.1
  exact ⟨h1, h2, hst.2.trans hle⟩

theorem bind_of {Q : α → Prop} (h : Coupled R act) (hQ : ∀ s a s', act s = (.ok a, s') → Q a)
    (hf : ∀ a, Q a → Coupled R (f a)) : Coupled R (act >>= f) :=
  fun cols => (h cols).bind_of hQ (fun a ha => hf a ha cols)

theorem bind (h : Coupled R act) (hf : ∀ a, Coupled R (f a)) : Coupled R (act >>= f) :=
  fun cols => (h cols).bind (fun a => hf a cols)

theorem attempt {ε' : Type} (h : Coupled R act) :
    Coupled R (Act.attempt act : Act (StateDB H) ε' _) :=
  fun cols => (h cols).attempt

theorem mapErr {ε' : Type} (f : ε → ε') (h : Coupled R act) : Coupled R (act.mapErr f) :=
  fun cols => (h cols).mapErr f

end Coupled

variable {G : StateColumns H → Address → Account H → Prop} {U : Undelegation → Prop}

namespace Coupling

variable [HashScheme H] [Digest H (TrieNode H (Cell H))] {iter : IterOrder}
  (h : Coupling iter G U R)

include h

/-! ## The EVM wrapper -/

theorem answer (x : Executor H) (c : RevmCmd) : Coupled R (x.answer c) := by
  cases c with
  | basic a =>
    refine ((h.run (fun _ => getBalance_within a)).mapErr _).bind (fun balance => ?_)
    refine ((h.run (fun _ => getNonce_within a)).mapErr _).bind (fun nonce => ?_)
    refine ((h.getCode a).mapErr _).bind (fun code => ?_)
    split
    · exact .pure _
    · exact .pure _
  | storage a slot => exact (h.getStorage a slot).mapErr _
  | blockHash number => exact .pure _

theorem applySlots {a : Address} (ha : Free G a) (slots : List (U256 × U256)) :
    Coupled R (applySlots a slots) := by
  induction slots with
  | nil => exact .pure ()
  | cons slot slots ih =>
    exact ((h.setStorage a slot.1 slot.2 ha).mapErr _).bind (fun _ => ih)

theorem applyCode {a : Address} (ha : Free G a) (code : Option Bytes) :
    Coupled R (applyCode a code) := by
  match code with
  | none | some [] => exact .pure ()
  | some (b :: code) => exact ((h.setCode a (b :: code) ha).mapErr _).bind (fun _ => .pure ())

theorem applyChange {c : ChangedAccount} (hc : c.touched → Free G c.address) :
    Coupled R (applyChange c) := by
  unfold Executor.applyChange
  cases ht : c.touched with
  | false => exact .pure ()
  | true =>
    have ha := hc ht
    refine (h.run (fun cols => stateCall_within (setBalance_within (ha cols).charges _))).bind (fun _ => ?_)
    refine (h.run (fun cols => stateCall_within (setNonce_within (ha cols) _))).bind (fun _ => ?_)
    exact (h.applyCode ha c.code).bind (fun _ => h.applySlots ha c.storage)

theorem applyStateChanges {cs : List ChangedAccount}
    (hcs : ∀ c ∈ cs, c.touched → Free G c.address) :
    Coupled R (applyStateChanges cs) := by
  induction cs with
  | nil => exact .pure ()
  | cons c cs ih =>
    obtain ⟨hc, hcs⟩ := List.forall_mem_cons.mp hcs
    exact (h.applyChange hc).bind (fun _ => ih hcs)

variable (x : Executor H) (hevm : Confined G x.runtime.evm)
include x hevm

theorem transact (coinbase : Address) (tx : RevmTx) : Coupled R (x.transact coinbase tx) := by
  have hinterp : Coupled R ((x.runtime.evm.transact (x.revmEnv coinbase) tx).interp x.answer) :=
    fun cols => Prog.interp_simulates (fun c => h.answer x c cols) _
  refine (hinterp.mapErr _).bind_of (Q := fun r => ∀ c ∈ r.2, c.touched → Free G c.address)
    (fun s r s' hr => ?_) (fun r hr => ?_)
  · exact (hevm _ _).interp (Act.mapErr_eq_ok.mp hr)
  · obtain ⟨result, changes⟩ := r
    cases result with
    | success gasUsed logs created => exact (h.applyStateChanges hr).bind (fun _ => .pure _)
    | revert gasUsed | halt reason gasUsed => exact .pure _

theorem executeContractCreate (tx : Transaction) (sender producer : Address) :
    Coupled R (x.executeContractCreate tx sender producer) := by
  refine (h.transact x hevm _ _).bind (fun r => ?_)
  cases r with
  | success gasUsed logs created => cases created <;> exact .pure _
  | revert gasUsed | halt reason gasUsed => exact .pure _

theorem executeContractCall (tx : Transaction) {sender : Address} (hs : Free G sender)
    (producer : Address) : Coupled R (x.executeContractCall tx sender producer) := by
  refine (h.run (fun _ => recipientOf_within tx)).bind (fun target => ?_)
  refine ((h.getCode target).mapErr _).bind (fun code => ?_)
  split
  · exact (h.run (fun cols => transferValue_within (hs cols).charges (h.credits cols) tx
      target)).bind (fun _ => .pure _)
  · refine (h.transact x hevm _ _).bind (fun r => ?_)
    cases r <;> exact .pure _

end Coupling

/-! ## One transaction -/

namespace Coupling

variable [HashScheme H] [Digest H (TrieNode H (Cell H))] {x : Executor H}
  (h : Coupling x.runtime.iter G U R) (hevm : Confined G x.runtime.evm) {tx : SignedTransaction H}

include h hevm

theorem executeBody (hs : Free G tx.sender) (hu : Stores x U tx.tx) (producer : Address) :
    Coupled R (x.executeBody tx producer) := by
  have hnative : Coupled R ((x.executeNative tx.tx tx.sender).run StateDB.exec) :=
    h.run (fun cols => x.executeNative_within (hs cols).spends (h.credits cols) tx.tx hu)
  unfold Executor.executeBody
  split
  · exact h.executeContractCreate x hevm _ _ _
  · exact h.executeContractCall x hevm _ hs _
  · exact hnative

/-- Execution is coupled, its revert included. -/
theorem execute (hs : Free G tx.sender) (hu : Stores x U tx.tx) (producer : Address) :
    Coupled R (x.execute tx producer) := by
  intro cols s₀ t₀ hst
  -- both sides take the same snapshot
  suffices hrest : Act.Simulates (Over R s₀.cols)
      (x.executeFrom tx producer (s₀.snapshot x.runtime.iter))
      (x.executeFrom tx producer (s₀.snapshot x.runtime.iter)) by
    have hrest' := hrest s₀ t₀ ⟨hst.1, .refl _⟩
    rw [execute_eq, execute_eq, ← h.snapshot hst.1]
    exact ⟨hrest'.1, hrest'.2.1, hst.2.trans hrest'.2.2⟩
  have hrevert : Act.Simulates (ε := ExecutorError H) (Over R s₀.cols)
      (Act.modify (fun s => s.revert (s₀.snapshot x.runtime.iter)))
      (Act.modify (fun s => s.revert (s₀.snapshot x.runtime.iter))) :=
    fun s t hst' => ⟨rfl, h.revert hst.1 hst'.1 hst'.2, hst'.2⟩
  refine (h.run (fun cols => prepay_within (hs cols).charges (fun _ => (hs cols).counts)
    rfl) _).bind (fun _ => ?_)
  refine (h.executeBody hevm hs hu producer s₀.cols).attempt.bind (fun r => ?_)
  cases r with
  | ok r =>
    exact h.run (fun cols => settle_within (h.credits cols)
      (fun _ acc hacc => hs cols acc _ hacc rfl rfl) rfl _ r) _
  | error e =>
    refine hrevert.bind (fun _ => ?_)
    exact (h.run (fun cols => penalize_within (hs cols).charges (hs cols).counts
      (h.credits cols) rfl _) _).bind (fun _ => .pure _)

/-! ## A block -/

/-- The transactions of a block: senders are free, and records may be stored. -/
theorem runTransaction {tx : Transaction} (hs : ∀ a, x.senderOf tx = .ok a → Free G a)
    (hu : Stores x U tx) (producer : Address) : Coupled R (x.runTransaction producer tx) := by
  refine (h.run (fun _ => x.validateTransaction_within tx)).bind_of
    (Q := fun signed => signed.tx = tx ∧ x.senderOf tx = .ok signed.sender)
    (fun s signed s' hrun => ?_) (fun signed hsigned => ?_)
  · -- without any condition on accounts, every response is as the contract says
    refine (x.validateTransaction_within (G := fun _ _ => True) (U := fun _ => True) tx).result
      (fun c s => ?_) hrun
    cases c <;> first | trivial | exact fun _ _ => trivial
  · obtain ⟨rfl, hsender⟩ := hsigned
    exact h.execute hevm (hs _ hsender) hu producer

theorem executeTransaction {tx : Transaction} (hs : ∀ a, x.senderOf tx = .ok a → Free G a)
    (hu : Stores x U tx) (producer : Address) (index : ℕ) (gas : UInt64) :
    Coupled (ε := ε) R (x.executeTransaction producer index gas tx) := by
  refine (h.runTransaction hevm hs hu producer).attempt.bind (fun r => ?_)
  cases r with
  | ok r | error e => exact .pure _

/-- The transactions of a block are coupled. -/
theorem executeTransactions {txs : List Transaction}
    (hs : ∀ tx ∈ txs, ∀ a, x.senderOf tx = .ok a → Free G a) (hu : ∀ tx ∈ txs, Stores x U tx)
    (producer : Address) (index : ℕ) (gas : UInt64) :
    Coupled (ε := ε) R (x.executeTransactions producer index gas txs) := by
  induction txs generalizing index gas with
  | nil => exact .pure _
  | cons tx txs ih =>
    obtain ⟨hs, hs'⟩ := List.forall_mem_cons.mp hs
    obtain ⟨hu, hu'⟩ := List.forall_mem_cons.mp hu
    refine (h.executeTransaction hevm hs hu producer index gas).bind (fun receipt => ?_)
    exact (ih hs' hu' _ _).bind (fun _ => .pure _)

end Coupling

section Transition

variable [HashScheme H] [Digest H (TrieNode H (Cell H))] (cfg : StateConfig H)
  (look : H → Option (Block H)) (input : BlockInput H)

/-- A block is coupled, from databases with the same mature records. -/
theorem Coupling.transition (h : Coupling cfg.runtime.iter G U R)
    (hevm : Confined G cfg.runtime.evm) (hs : ∀ tx ∈ input.transactions, ∀ a,
      (cfg.executor look input).senderOf tx = .ok a → Free G a)
    (hu : ∀ tx ∈ input.transactions, Stores (cfg.executor look input) U tx) {s t : StateDB H}
    (hst : R s t) (hmature : s.getMatureUndelegations (input.timestamp / 1000)
      = t.getMatureUndelegations (input.timestamp / 1000)) :
    (cfg.transition look input s).1 = (cfg.transition look input t).1 ∧
      Over R s.cols (cfg.transition look input s).2 (cfg.transition look input t).2 := by
  have hrest : Coupled R (cfg.transitionFrom look input
      (s.getMatureUndelegations (input.timestamp / 1000))) := by
    refine ((h.run (fun cols =>
      processMature_within (h.credits cols) _)).mapErr _).bind (fun _ => ?_)
    refine (Coupling.executeTransactions (x := cfg.executor look input) h hevm hs hu _ _ _).bind
      (fun r => ?_)
    refine (Coupled.orPanic _).bind (fun fees => ?_)
    refine ((h.run (fun cols =>
      applyBlockRewards_within (h.credits cols) _ _ fees)).mapErr _).bind (fun _ => ?_)
    exact h.commit.bind (fun _ => .pure _)
  have := hrest s.cols s t ⟨hst, .refl _⟩
  rw [cfg.transition_eq, cfg.transition_eq, ← hmature]
  exact this

end Transition

end Qfc
