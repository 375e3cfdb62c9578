import QfcCore.Executor.LedgerEffect
import QfcCore.Executor.CodeRuntime
import QfcCore.Lib.Run

/-!
# Delegated funds

A delegator's funds go from the balance to the delegation, from there to a
pending record, and from the record back to the balance once it is mature. A
run of `Delegate`, `Undelegate` and `process_mature_undelegations` steps is
kept together with its history: what each account has delegated, and which
record was paid at which time. The history is only observed, no step reads it.

Records are stored under the delegator, the validator and the unlock second,
so two undelegations of one second share a key and the second one replaces the
first (`run_loses_shared_second`). As long as no undelegation meets a pending
record under its key, no funds are lost and every record is paid once, when it
is due (`run_conserves_delegations`).
-/

namespace Qfc

open Function List

variable {H : Type}

/-! ## Runs -/

/-- What a step does. -/
inductive DelegationAction
  | delegate (tx : Transaction) (sender : Address)
  | undelegate (tx : Transaction) (sender : Address)
  | processMature

/-- A step, in a block with a timestamp in milliseconds. -/
structure DelegationStep where
  timestamp : ℕ
  action : DelegationAction

namespace DelegationStep

/-- The second of the block. -/
def seconds (e : DelegationStep) : ℕ := e.timestamp / 1000

/-- Whether the step processes mature records. -/
def processes (e : DelegationStep) : Bool :=
  match e.action with
  | .processMature => true
  | _ => false

end DelegationStep

/-- A record, and the second in which it was paid. -/
structure Payout where
  record : Undelegation
  time : ℕ
deriving DecidableEq

/-- The part of an undelegation that an account gets. -/
def Undelegation.owedTo (u : Undelegation) (a : Address) : ℕ :=
  if u.delegator = a then u.amount.val else 0

/-- What an account has been paid. -/
def returned (payouts : List Payout) (a : Address) : ℕ :=
  (payouts.map (fun p => p.record.owedTo a)).sum

/-- When a record was paid. -/
def timesPaid (payouts : List Payout) (u : Undelegation) : List ℕ :=
  (payouts.filter (fun p => p.record = u)).map Payout.time

/-- **A database with the history of its delegations.** -/
structure DelegationRun (H : Type) where
  state : StateDB H
  /-- What each account has delegated. -/
  delegated : Address → ℕ
  /-- The records that were paid. -/
  payouts : List Payout

namespace DelegationRun

/-- Nothing delegated and nothing paid yet. -/
def start (s : StateDB H) : DelegationRun H := ⟨s, fun _ => 0, []⟩

/-- The pending records. -/
def pending (t : DelegationRun H) : List Undelegation := t.state.cols.undelegations.rows

section Step

variable [HashScheme H] [Digest H (TrieNode H (Cell H))] (x : Executor H)

/-- One step. -/
def step (t : DelegationRun H) (e : DelegationStep) : DelegationRun H :=
  match e.action with
  | .delegate tx sender =>
    match (Executor.executeDelegate tx sender).run StateDB.exec t.state with
    | (.ok _, s) =>
      { t with
        state := s
        delegated := update t.delegated sender (t.delegated sender + tx.value.val) }
    | (_, s) => { t with state := s }
  | .undelegate tx sender =>
    let x' : Executor H := { x with blockTimestamp := e.timestamp }
    { t with state := ((x'.executeUndelegate tx sender).run StateDB.exec t.state).2 }
  | .processMature =>
    let mature := t.state.getMatureUndelegations e.seconds
    { t with
      state := ((Executor.processMature mature).run StateDB.exec t.state).2
      payouts := t.payouts ++ mature.map (fun u => ⟨u, e.seconds⟩) }

/-- A run. -/
abbrev run : DelegationRun H → List DelegationStep → DelegationRun H := Run.run (step x)

end Step

/-- An undelegation meets no pending record under its key. -/
def freshKey (t : DelegationRun H) (e : DelegationStep) : Bool :=
  match e.action with
  | .undelegate tx sender =>
    tx.recipient.all (fun validator => t.pending.all (fun u =>
      u.key ≠ Undelegation.storageKey sender validator (e.seconds + UNSTAKE_DELAY_SECS)))
  | _ => true

end DelegationRun

/-- The first second, from now on, in which mature records are processed and
the record is due. -/
def firstDue (u : Undelegation) (steps : List DelegationStep) : Option ℕ :=
  (steps.find? (fun e => e.processes && u.isUnlocked e.seconds)).map DelegationStep.seconds

/-! ## Accounts -/

variable {acc : Account H}

namespace Executor

variable {rest amount : U256} {validator : Address}

@[simp] theorem delegated_balance :
    (delegated acc rest validator amount).balance = rest := by
  unfold delegated
  split <;> rfl

theorem delegated_delegatedTo : (delegated acc rest validator amount).delegatedTo ≠ none := by
  unfold delegated
  split
  · exact Option.isSome_iff_ne_none.mp ‹_›
  · exact Option.some_ne_none _

/-- A delegation grows by the amount, if an account without a delegation has
nothing delegated. -/
theorem delegated_getDelegatedAmount (rest amount : U256) (validator : Address)
    (hidle : acc.delegatedTo = none → acc.getDelegatedAmount.val = 0)
    (hroom : acc.getDelegatedAmount.val + amount.val < u256Size) :
    (delegated acc rest validator amount).getDelegatedAmount.val
      = acc.getDelegatedAmount.val + amount.val := by
  unfold delegated
  split
  · exact U256.satAdd_val_of_lt hroom
  · rename_i hnone
    rw [hidle (by simpa using hnone), Nat.zero_add]
    rfl

end Executor

variable {us : List Undelegation} {now : ℕ}

/-- What an account keeps when its delegation goes down. -/
theorem Account.subDelegatedAmount_eq {acc' : Account H} {amount : U256}
    (h : acc.subDelegatedAmount amount = some acc') :
    acc'.balance = acc.balance ∧ acc'.getStake = acc.getStake ∧
      acc.getDelegatedAmount.val = acc'.getDelegatedAmount.val + amount.val ∧
      (acc.delegatedTo.isSome → acc'.delegatedTo = none → acc'.getDelegatedAmount.val = 0) := by
  obtain ⟨rest, hrest, rfl⟩ := Option.map_eq_some_iff.mp h
  have hamount := U256.eq_add_of_sub? hrest
  split
  · rename_i hzero
    rw [U256.isZero_iff] at hzero
    refine ⟨rfl, rfl, ?_, fun _ _ => rfl⟩
    rw [hamount, hzero]
    rfl
  · refine ⟨rfl, rfl, hamount, fun hsome hnone => ?_⟩
    rw [show acc.delegatedTo = none from hnone] at hsome
    cases hsome

/-! ## The ledger of a run -/

variable {b : Address → U256} {l : Ledger H} {u : Undelegation}

namespace Ledger

/-- What is pending for an account. -/
def pendingOf (l : Ledger H) (a : Address) : ℕ :=
  (l.undelegations.rows.map (fun u => u.owedTo a)).sum

/-- The balance of an account, its delegation and what is pending for it. -/
def funds (l : Ledger H) (a : Address) : ℕ :=
  (l.accounts a).balance.val + (l.accounts a).getDelegatedAmount.val + l.pendingOf a

/-- **Every account holds what it began with**, and has nothing delegated
without a delegation. -/
structure Held (b : Address → U256) (l : Ledger H) : Prop where
  funds : ∀ a, l.funds a = (b a).val
  idle : ∀ a, (l.accounts a).delegatedTo = none → (l.accounts a).getDelegatedAmount.val = 0

/-- One account and the records change, and everyone's funds stay. -/
theorem Held.replace (h : Held b l) {a : Address} {rows : SortedRows Undelegation.key}
    (hself : acc.balance.val + acc.getDelegatedAmount.val
      + (rows.rows.map (fun u => u.owedTo a)).sum = l.funds a)
    (hothers : ∀ c ≠ a, (rows.rows.map (fun u => u.owedTo c)).sum = l.pendingOf c)
    (hidle : acc.delegatedTo = none → acc.getDelegatedAmount.val = 0) :
    Held b { l.set a acc with undelegations := rows } := by
  refine ⟨fun c => ?_, fun c => ?_⟩
  · rw [← h.funds c]
    show ((l.set a acc).accounts c).balance.val + ((l.set a acc).accounts c).getDelegatedAmount.val
      + (rows.rows.map (fun u => u.owedTo c)).sum = _
    by_cases hc : c = a
    · subst hc
      rw [set_accounts_self, hself]
    · rw [set_accounts_of_ne l hc, hothers c hc]
      rfl
  · show ((l.set a acc).accounts c).delegatedTo = none →
      ((l.set a acc).accounts c).getDelegatedAmount.val = 0
    by_cases hc : c = a
    · subst hc
      rw [set_accounts_self]
      exact hidle
    · rw [set_accounts_of_ne l hc]
      exact h.idle c

theorem payOut_accounts (l : Ledger H) (u : Undelegation) (a : Address) :
    (l.payOut u).accounts a =
      if a = u.delegator then (l.accounts a).addBalance u.amount else l.accounts a := by
  show (l.credit u.delegator u.amount).accounts a = _
  split
  · rename_i ha
    rw [ha, credit, set_accounts_self]
  · exact set_accounts_of_ne l ‹_› _

theorem pendingOf_payOut (hu : u ∈ l.undelegations.rows) (a : Address) :
    (l.payOut u).pendingOf a + u.owedTo a = l.pendingOf a :=
  SortedRows.sum_erase (fun v => v.owedTo a) hu

/-- A payment of a pending record fits into the balance. -/
theorem Held.balance_payOut (h : Held b l) (hu : u ∈ l.undelegations.rows) (a : Address) :
    ((l.payOut u).accounts a).balance.val = (l.accounts a).balance.val + u.owedTo a := by
  have hpending := pendingOf_payOut hu a
  have hfunds := h.funds a
  have hroom := (b a).isLt
  unfold Ledger.funds at hfunds
  rw [payOut_accounts]
  unfold Undelegation.owedTo at hpending ⊢
  split
  · rename_i ha
    rw [if_pos ha.symm] at hpending ⊢
    exact U256.satAdd_val_of_lt (by omega)
  · rename_i ha
    rw [if_neg (fun h => ha h.symm), Nat.add_zero]

theorem Held.after_payOut (h : Held b l) (hu : u ∈ l.undelegations.rows) : Held b (l.payOut u) := by
  have hsame : ∀ a, ((l.payOut u).accounts a).getDelegatedAmount = (l.accounts a).getDelegatedAmount
      ∧ ((l.payOut u).accounts a).delegatedTo = (l.accounts a).delegatedTo := by
    intro a
    rw [payOut_accounts]
    split <;> exact ⟨rfl, rfl⟩
  refine ⟨fun a => ?_, fun a => ?_⟩
  · have hbalance := h.balance_payOut hu a
    have hpending := pendingOf_payOut hu a
    have hfunds := h.funds a
    unfold Ledger.funds at hfunds ⊢
    rw [hbalance, (hsame a).1]
    omega
  · rw [(hsame a).1, (hsame a).2]
    exact h.idle a

theorem mem_payOut (hu : u ∈ l.undelegations.rows) {v : Undelegation} :
    v ∈ (l.payOut u).undelegations.rows ↔ v ∈ l.undelegations.rows ∧ v ≠ u := by
  refine SortedRows.mem_erase.trans (and_congr_right fun hv => not_congr ⟨fun hkey => ?_, ?_⟩)
  · exact SortedRows.eq_of_key_eq hv hu hkey
  · rintro rfl
    rfl

/-- Paying out pending records: every record is paid to its delegator, and
the others stay. -/
theorem Held.after_payOuts (h : Held b l) (hnodup : us.Nodup)
    (hus : ∀ u ∈ us, u ∈ l.undelegations.rows) :
    Held b (us.foldl payOut l) ∧
      (∀ a, ((us.foldl payOut l).accounts a).balance.val
        = (l.accounts a).balance.val + (us.map (fun u => u.owedTo a)).sum) ∧
      ∀ v, v ∈ (us.foldl payOut l).undelegations.rows ↔ v ∈ l.undelegations.rows ∧ v ∉ us := by
  induction us generalizing l with
  | nil => exact ⟨h, fun a => rfl, fun v => by simp⟩
  | cons u us ih =>
    obtain ⟨hnotin, hnodup⟩ := nodup_cons.mp hnodup
    have hu := hus u (mem_cons_self ..)
    obtain ⟨hheld, hbalance, hrows⟩ := ih (h.after_payOut hu) hnodup fun v hv =>
      (mem_payOut hu).mpr ⟨hus v (mem_cons_of_mem _ hv), fun heq => hnotin (heq ▸ hv)⟩
    refine ⟨hheld, fun a => ?_, fun v => ?_⟩
    · rw [foldl_cons, hbalance a, h.balance_payOut hu a, map_cons, sum_cons, Nat.add_assoc]
    · rw [foldl_cons, hrows v, mem_payOut hu, mem_cons, not_or, and_assoc]

end Ledger

/-! ## Steps on the ledger -/

open Ledger

/-- The records that are due. -/
def Ledger.mature (l : Ledger H) (now : ℕ) : List Undelegation :=
  l.undelegations.rows.filter (fun u => u.isUnlocked now)

/-- **What a step does** to the ledger and to the history. -/
inductive DelegationEffect (e : DelegationStep) (l : Ledger H) (delegated : Address → ℕ)
    (payouts : List Payout) : Ledger H → (Address → ℕ) → List Payout → Prop
  | refused (h : e.processes = false) : DelegationEffect e l delegated payouts l delegated payouts
  | delegate (h : e.processes = false) (sender validator : Address) (amount rest : U256)
      (hpaid : (l.accounts sender).balance.val = rest.val + amount.val) :
      DelegationEffect e l delegated payouts
        (l.set sender (Executor.delegated (l.accounts sender) rest validator amount))
        (update delegated sender (delegated sender + amount.val)) payouts
  | undelegate (h : e.processes = false) (u : Undelegation) (acc : Account H)
      (hto : (l.accounts u.delegator).delegatedTo = some u.validator)
      (hacc : (l.accounts u.delegator).subDelegatedAmount u.amount = some acc)
      (htime : u.unlockAt = e.seconds + UNSTAKE_DELAY_SECS)
      (hfresh : ∀ v ∈ l.undelegations.rows, v.key ≠ u.key) :
      DelegationEffect e l delegated payouts
        { l.set u.delegator acc with undelegations := l.undelegations.put u } delegated payouts
  | mature (h : e.processes = true) :
      DelegationEffect e l delegated payouts ((l.mature e.seconds).foldl payOut l) delegated
        (payouts ++ (l.mature e.seconds).map (fun u => ⟨u, e.seconds⟩))

variable {e : DelegationStep} {t : DelegationRun H} {x : Executor H}

section StepEffect

variable [HashScheme H] [Digest H (TrieNode H (Cell H))]

/-- Every step has such an effect, if an undelegation finds its key free. -/
theorem DelegationRun.step_effect (h : Refines t.state l) (hfresh : t.freshKey e = true) :
    ∃ l', Refines (t.step x e).state l' ∧
      DelegationEffect e l t.delegated t.payouts l' (t.step x e).delegated
        (t.step x e).payouts := by
  obtain ⟨timestamp, action⟩ := e
  cases action with
  | delegate tx sender =>
    obtain ⟨o, s', l', hs, hl, href⟩ := (Refines.run (Executor.executeDelegate tx sender)).ends h
    unfold DelegationRun.step
    dsimp only
    rw [hs]
    have hdecides : Decides (Executor.executeDelegate tx sender) l False _ _ :=
      Executor.executeDelegate_decides tx sender l False.elim
    obtain ⟨r, l₁, hrun, -, validator, rest, -, hpaid, rfl⟩ | ⟨hsame, hne⟩ := hdecides.cases
    · obtain ⟨rfl, rfl⟩ := Prod.mk.inj (hl.symm.trans hrun)
      exact ⟨_, href, .delegate rfl sender validator tx.value rest hpaid⟩
    · rw [hl] at hsame hne
      obtain rfl : l' = l := hsame
      cases o with
      | ok r => exact absurd rfl (hne r)
      | err e | panic => exact ⟨_, href, .refused rfl⟩
  | undelegate tx sender =>
    let x' : Executor H := { x with blockTimestamp := timestamp }
    obtain ⟨o, s', l', hs, hl, href⟩ := (Refines.run (x'.executeUndelegate tx sender)).ends h
    unfold DelegationRun.step
    dsimp only
    rw [hs]
    refine ⟨l', href, ?_⟩
    have hdecides : Decides (x'.executeUndelegate tx sender) l False _ _ :=
      x'.executeUndelegate_decides tx sender l
    obtain ⟨r, l₁, hrun, -, validator, acc, hvalidator, hto, hacc, rfl⟩ | ⟨hsame, -⟩ :=
      hdecides.cases
    · obtain ⟨-, rfl⟩ := Prod.mk.inj (hl.symm.trans hrun)
      refine .undelegate rfl (x'.undelegation tx sender (l.accounts sender) validator) acc hto hacc rfl
        fun v hv => ?_
      unfold DelegationRun.freshKey DelegationRun.pending at hfresh
      rw [h.undelegations] at hfresh
      dsimp only at hfresh
      rw [hvalidator] at hfresh
      exact of_decide_eq_true (all_eq_true.mp hfresh v hv)
    · rw [hl] at hsame
      obtain rfl : l' = l := hsame
      exact .refused rfl
  | processMature =>
    have hmature : t.state.getMatureUndelegations (timestamp / 1000) = l.mature (timestamp / 1000) := by
      unfold StateDB.getMatureUndelegations Ledger.mature
      rw [h.undelegations]
    obtain ⟨o, s', l', hs, hl, href⟩ :=
      (Refines.run (Executor.processMature (l.mature (timestamp / 1000)))).ends h
    unfold DelegationRun.step DelegationStep.seconds
    dsimp only
    rw [hmature, hs]
    rw [Executor.run_processMature] at hl
    obtain ⟨-, rfl⟩ := Prod.mk.inj hl
    exact ⟨_, href, .mature rfl⟩

end StepEffect

/-! ## What a step keeps -/

namespace DelegationEffect

variable {l' : Ledger H} {delegated delegated' : Address → ℕ} {payouts payouts' : List Payout}

theorem mature_nodup (l : Ledger H) (now : ℕ) : (l.mature now).Nodup :=
  l.undelegations.nodup.filter _

theorem mature_pending {l : Ledger H} : ∀ u ∈ l.mature now, u ∈ l.undelegations.rows :=
  fun _ hu => (mem_filter.mp hu).1

section

variable (h : DelegationEffect e l delegated payouts l' delegated' payouts') (hl : Held b l)
include h hl

theorem held : Held b l' := by
  cases h with
  | refused => exact hl
  | delegate _ sender validator amount rest hpaid =>
    have hfunds := hl.funds sender
    have hroom := (b sender).isLt
    unfold Ledger.funds at hfunds
    have hamount := Executor.delegated_getDelegatedAmount rest amount validator
      (hl.idle sender) (by omega)
    show Held b { l.set sender _ with undelegations := l.undelegations }
    refine hl.replace ?_ (fun _ _ => rfl)
      (fun hnone => absurd hnone Executor.delegated_delegatedTo)
    rw [Executor.delegated_balance, hamount]
    unfold Ledger.funds Ledger.pendingOf
    omega
  | undelegate _ u acc hto hacc _ hfresh =>
    obtain ⟨hbalance, -, hamount, hidle⟩ := Account.subDelegatedAmount_eq hacc
    have hput : ∀ a, ((l.undelegations.put u).rows.map (fun v => v.owedTo a)).sum
        = l.pendingOf a + u.owedTo a := fun a => SortedRows.sum_put (fun v => v.owedTo a) hfresh
    refine hl.replace ?_ (fun a ha => ?_) (hidle (by rw [hto]; rfl))
    · rw [hput, Undelegation.owedTo, if_pos rfl, hbalance]
      unfold Ledger.funds
      omega
    · rw [hput, Undelegation.owedTo, if_neg (Ne.symm ha), Nat.add_zero]
  | mature =>
    exact (hl.after_payOuts (mature_nodup l _) mature_pending).1

/-- Balances change by what is delegated and what is paid. -/
theorem moved {a : Address} {n : ℕ}
    (hmoved : (l.accounts a).balance.val + delegated a = n + returned payouts a) :
    (l'.accounts a).balance.val + delegated' a = n + returned payouts' a := by
  cases h with
  | refused => exact hmoved
  | delegate _ sender validator amount rest hpaid =>
    by_cases ha : a = sender
    · subst ha
      rw [set_accounts_self, Executor.delegated_balance, update_self]
      omega
    · rw [set_accounts_of_ne l ha, update_of_ne ha]
      exact hmoved
  | undelegate _ u acc _ hacc =>
    show ((l.set u.delegator acc).accounts a).balance.val + _ = _
    by_cases ha : a = u.delegator
    · subst ha
      rw [set_accounts_self, (Account.subDelegatedAmount_eq hacc).1]
      exact hmoved
    · rw [set_accounts_of_ne l ha]
      exact hmoved
  | mature =>
    have hpaid : returned (payouts ++ (l.mature e.seconds).map (fun u => ⟨u, e.seconds⟩)) a
        = returned payouts a + ((l.mature e.seconds).map (fun u => u.owedTo a)).sum := by
      unfold returned
      rw [map_append, sum_append, map_map]
      rfl
    rw [(hl.after_payOuts (mature_nodup l _) mature_pending).2.1 a, hpaid]
    omega

end

/-- The records that were paid are gone, and none of them can come back:
their time is over. -/
def Settled (now : ℕ) (l : Ledger H) (payouts : List Payout) : Prop :=
  ∀ p ∈ payouts, p.record.unlockAt ≤ now ∧ p.record ∉ l.undelegations.rows

/-- A record that is among those paid in a second is paid in it once. -/
theorem timesPaid_append (hnodup : us.Nodup) (now : ℕ) (u : Undelegation) :
    timesPaid (payouts ++ us.map (fun v => ⟨v, now⟩)) u
      = timesPaid payouts u ++ if u ∈ us then [now] else [] := by
  have hpaid : timesPaid (us.map (fun v => ⟨v, now⟩)) u = if u ∈ us then [now] else [] := by
    induction us with
    | nil => rfl
    | cons v us ih =>
      obtain ⟨hnotin, hnodup⟩ := nodup_cons.mp hnodup
      have ih := ih hnodup
      unfold timesPaid at ih ⊢
      rw [map_cons, filter_cons]
      by_cases hv : v = u
      · subst hv
        rw [if_neg hnotin] at ih
        simp [ih]
      · simp [hv, ih, Ne.symm hv]
  rw [← hpaid]
  unfold timesPaid
  rw [filter_append, map_append]

variable (h : DelegationEffect e l delegated payouts l' delegated' payouts') (hl : Held b l)
include h hl

/-- A record whose time is over and that is not pending is left alone. -/
theorem gone (hu : u ∉ l.undelegations.rows) (htime : u.unlockAt ≤ e.seconds) :
    u ∉ l'.undelegations.rows ∧ timesPaid payouts' u = timesPaid payouts u := by
  cases h with
  | refused | delegate => exact ⟨hu, rfl⟩
  | undelegate _ v acc _ _ hunlock =>
    refine ⟨fun hmem => ?_, rfl⟩
    obtain rfl | ⟨hmem, -⟩ := SortedRows.mem_put.mp hmem
    · -- a new record has the delay before it
      have hdelay : 0 < UNSTAKE_DELAY_SECS := by decide
      omega
    · exact hu hmem
  | mature =>
    refine ⟨fun hmem => ?_, ?_⟩
    · exact hu (((hl.after_payOuts (mature_nodup l _) mature_pending).2.2 u).mp hmem).1
    · rw [timesPaid_append (mature_nodup l _), if_neg (fun hmem => hu (mature_pending u hmem)),
        append_nil]

/-- A pending record that is due is paid by a step that processes records. -/
theorem due (hu : u ∈ l.undelegations.rows)
    (hdue : (e.processes && u.isUnlocked e.seconds) = true) :
    u ∉ l'.undelegations.rows ∧ timesPaid payouts' u = timesPaid payouts u ++ [e.seconds] := by
  obtain ⟨hprocesses, hunlocked⟩ := Bool.and_eq_true_iff.mp hdue
  cases h with
  | refused h | delegate h | undelegate h => cases h.symm.trans hprocesses
  | mature =>
    have hmature : u ∈ l.mature e.seconds := mem_filter.mpr ⟨hu, hunlocked⟩
    refine ⟨fun hmem => ?_, ?_⟩
    · exact (((hl.after_payOuts (mature_nodup l _) mature_pending).2.2 u).mp hmem).2 hmature
    · rw [timesPaid_append (mature_nodup l _), if_pos hmature]

theorem pending (hu : u ∈ l.undelegations.rows)
    (hdue : ¬ (e.processes && u.isUnlocked e.seconds) = true) :
    u ∈ l'.undelegations.rows ∧ timesPaid payouts' u = timesPaid payouts u := by
  cases h with
  | refused | delegate => exact ⟨hu, rfl⟩
  | undelegate _ v acc _ _ _ hfresh => exact ⟨SortedRows.mem_put.mpr (.inr ⟨hu, hfresh u hu⟩), rfl⟩
  | mature hprocesses =>
    have hmature : u ∉ l.mature e.seconds := fun hmem =>
      hdue (Bool.and_eq_true_iff.mpr ⟨hprocesses, (mem_filter.mp hmem).2⟩)
    refine ⟨((hl.after_payOuts (mature_nodup l _) mature_pending).2.2 u).mpr ⟨hu, hmature⟩, ?_⟩
    rw [timesPaid_append (mature_nodup l _), if_neg hmature, append_nil]

theorem settled (hnow : now ≤ e.seconds) (hs : Settled now l payouts) :
    Settled e.seconds l' payouts' := by
  intro p hp
  by_cases hold : p ∈ payouts
  · have htime := (hs p hold).1.trans hnow
    exact ⟨htime, (h.gone hl (hs p hold).2 htime).1⟩
  · cases h with
    | refused | delegate | undelegate => exact absurd hp hold
    | mature hprocesses =>
      obtain ⟨u, hu, rfl⟩ := mem_map.mp ((mem_append.mp hp).resolve_left hold)
      have hunlocked := (mem_filter.mp hu).2
      refine ⟨of_decide_eq_true hunlocked, ?_⟩
      exact (due (.mature hprocesses : DelegationEffect e l delegated payouts _ _ _) hl
        (mature_pending u hu) (Bool.and_eq_true_iff.mpr ⟨hprocesses, hunlocked⟩)).1

end DelegationEffect

/-! ## What a run keeps -/

namespace DelegationRun

/-- The steps come in the order of their time, and none before `now`. -/
def InTime (now : ℕ) (steps : List DelegationStep) : Prop :=
  (now :: steps.map DelegationStep.seconds).Pairwise (· ≤ ·)

theorem InTime.step {e : DelegationStep} {steps : List DelegationStep} (h : InTime now (e :: steps)) :
    now ≤ e.seconds ∧ InTime e.seconds steps :=
  ⟨rel_of_pairwise_cons h (mem_cons_self ..), (pairwise_cons.mp h).2⟩

variable [HashScheme H] [Digest H (TrieNode H (Cell H))]

/-- **A run whose books are balanced**, at a time. -/
structure Balanced (b : Address → U256) (now : ℕ) (t : DelegationRun H) (l : Ledger H) : Prop where
  refines : Refines t.state l
  held : Held b l
  moved : ∀ a, (l.accounts a).balance.val + t.delegated a = (b a).val + returned t.payouts a
  settled : DelegationEffect.Settled now l t.payouts

namespace Balanced

variable {steps : List DelegationStep} (h : Balanced b now t l)
include h

theorem pending_eq : t.pending = l.undelegations.rows := by
  unfold DelegationRun.pending
  rw [h.refines.undelegations]

theorem step (hnow : now ≤ e.seconds) (hfresh : t.freshKey e = true) :
    ∃ l', Balanced b e.seconds (t.step x e) l' ∧
      DelegationEffect e l t.delegated t.payouts l' (t.step x e).delegated
        (t.step x e).payouts := by
  obtain ⟨l', href, heff⟩ := step_effect h.refines hfresh
  exact ⟨l', ⟨href, heff.held h.held, fun a => heff.moved h.held (h.moved a),
    heff.settled h.held hnow h.settled⟩, heff⟩

theorem run {later : List DelegationStep} (htime : InTime now (steps ++ later))
    (hfresh : Run.Along (DelegationRun.step x) (fun t e => t.freshKey e = true) t steps) :
    ∃ now' l', Balanced b now' (t.run x steps) l' ∧ InTime now' later := by
  induction steps generalizing t l now with
  | nil => exact ⟨now, l, h, htime⟩
  | cons e steps ih =>
    obtain ⟨hnow, htime⟩ := InTime.step htime
    obtain ⟨l', h', -⟩ := h.step hnow hfresh.1
    exact ih h' htime hfresh.2

variable (htime : InTime now steps)
  (hfresh : Run.Along (DelegationRun.step x) (fun t e => t.freshKey e = true) t steps)
include htime hfresh

/-- A record whose time is over and that is not pending is left alone. -/
theorem gone_run (hu : u ∉ t.pending) (hover : u.unlockAt ≤ now) :
    timesPaid (t.run x steps).payouts u = timesPaid t.payouts u ∧ u ∉ (t.run x steps).pending := by
  induction steps generalizing t l now with
  | nil => exact ⟨rfl, hu⟩
  | cons e steps ih =>
    obtain ⟨hnow, htime⟩ := InTime.step htime
    obtain ⟨l', h', heff⟩ := h.step hnow hfresh.1
    rw [h.pending_eq] at hu
    obtain ⟨hgone, hpaid⟩ := heff.gone h.held hu (hover.trans hnow)
    rw [← h'.pending_eq] at hgone
    rw [← hpaid]
    exact ih h' htime hfresh.2 hgone (hover.trans hnow)

/-- A pending record is paid when it is first due, and not again. -/
theorem pending_run (hu : u ∈ t.pending) :
    timesPaid (t.run x steps).payouts u = (firstDue u steps).toList ∧
      (u ∈ (t.run x steps).pending ↔ firstDue u steps = none) := by
  rw [h.pending_eq] at hu
  -- a pending record has not been paid
  have hunpaid : timesPaid t.payouts u = [] := by
    unfold timesPaid
    rw [map_eq_nil_iff, filter_eq_nil_iff]
    intro p hp hrecord
    exact (h.settled p hp).2 (of_decide_eq_true hrecord ▸ hu)
  induction steps generalizing t l now with
  | nil => exact ⟨hunpaid, iff_of_true (h.pending_eq ▸ hu) rfl⟩
  | cons e steps ih =>
    obtain ⟨hnow, htime⟩ := InTime.step htime
    obtain ⟨l', h', heff⟩ := h.step hnow hfresh.1
    unfold firstDue
    rw [find?_cons]
    by_cases hdue : (e.processes && u.isUnlocked e.seconds) = true
    · obtain ⟨hgone, hpaid⟩ := heff.due h.held hu hdue
      rw [← h'.pending_eq] at hgone
      obtain ⟨hrest, hnotin⟩ := h'.gone_run htime hfresh.2 hgone
        (of_decide_eq_true (Bool.and_eq_true_iff.mp hdue).2)
      rw [hdue]
      rw [hpaid, hunpaid] at hrest
      exact ⟨hrest, iff_of_false hnotin (Option.some_ne_none _)⟩
    · obtain ⟨hstays, hpaid⟩ := heff.pending h.held hu hdue
      rw [Bool.eq_false_iff.mpr hdue]
      exact ih h' htime hfresh.2 hstays (hpaid.trans hunpaid)

end Balanced

/-- **No funds are lost**: what an account has delegated is delegated still,
pending, or returned, and its balance has changed by nothing else. -/
def Conserves (balance : Address → ℕ) (t : DelegationRun H) : Prop :=
  ∀ a, ∃ acc, (t.state.getAccount a).1 = .ok acc ∧
    acc.getDelegatedAmount.val + (t.pending.map (fun u => u.owedTo a)).sum + returned t.payouts a
      = t.delegated a ∧
    acc.balance.val + t.delegated a = balance a + returned t.payouts a

/-- **Every record is paid once**: wherever a run is cut, a record that is
pending there is paid in the first second in which records are processed and
it is due, and in no other one; until then it is pending. -/
def PaysOnce (x : Executor H) (s : StateDB H) (steps : List DelegationStep) : Prop :=
  ∀ earlier later, steps = earlier ++ later → ∀ u ∈ ((start s).run x earlier).pending,
    timesPaid ((start s).run x steps).payouts u = (firstDue u later).toList ∧
      (u ∈ ((start s).run x steps).pending ↔ firstDue u later = none)

/-- **Delegated funds are never lost** in a run from a state without delegations,
as long as every undelegation finds its key free. -/
theorem run_conserves_delegations (x : Executor H) {s : StateDB H} {l : Ledger H}
    (h : Refines s l) (hnone : l.Undelegated) {steps : List DelegationStep}
    (htime : steps.Pairwise (fun e e' => e.timestamp ≤ e'.timestamp))
    (hfresh : Run.Along (step x) (fun t e => t.freshKey e = true) (start s) steps) :
    Conserves (fun a => (l.accounts a).balance.val) ((start s).run x steps) ∧
      PaysOnce x s steps := by
  have hstart : Balanced (fun a => (l.accounts a).balance) 0 (start s) l := by
    refine ⟨h, ⟨fun a => ?_, fun a _ => hnone.amounts a⟩, fun a => rfl, nofun⟩
    unfold Ledger.funds Ledger.pendingOf
    rw [hnone.amounts a, hnone.rows]
    rfl
  have htime : InTime 0 steps := by
    refine pairwise_cons.mpr ⟨fun _ _ => Nat.zero_le _, pairwise_map.mpr ?_⟩
    exact htime.imp Nat.div_le_div_right
  constructor
  · intro a
    have hall : InTime 0 (steps ++ []) := by rwa [append_nil]
    obtain ⟨now, l', hrun, -⟩ := hstart.run hall hfresh
    refine ⟨l'.accounts a, hrun.refines.getAccount_fst a, ?_, hrun.moved a⟩
    have hfunds := hrun.held.funds a
    have hmoved := hrun.moved a
    rw [hrun.pending_eq]
    unfold Ledger.funds Ledger.pendingOf at hfunds
    omega
  · rintro earlier later rfl u hu
    obtain ⟨hbefore, hafter⟩ := Run.along_append.mp hfresh
    obtain ⟨now, l', hrun, htime⟩ := hstart.run htime hbefore
    unfold DelegationRun.run at hu ⊢
    rw [Run.run_append]
    exact hrun.pending_run htime hafter hu

/-! ### A delegator and two validators -/

/-- Account 1 can delegate to account 2, which has a small part of all stake. -/
def delegationDb : StateDB CodeName :=
  sampleDb [(1, sampleAmount (1000 * ONE_QFC), sampleAmount 0),
    (2, sampleAmount 0, sampleAmount (20000 * ONE_QFC)),
    (3, sampleAmount 0, sampleAmount (1000000 * ONE_QFC))]

theorem delegationDb_refines : ∃ l, Refines delegationDb l ∧ l.Undelegated := by
  unfold delegationDb
  exact sampleDb_refines _

/-- Account 1 delegates 200 QFC to account 2. -/
def delegateStep (timestamp : ℕ) : DelegationStep :=
  ⟨timestamp, .delegate (sampleTx .delegate 1 0 (some (sampleAddress 2))
    (sampleAmount (200 * ONE_QFC)) 100000 (sampleAmount 1)) (sampleAddress 1)⟩

/-- Account 1 undelegates a small amount. -/
def undelegateStep (timestamp : ℕ) (amount : UInt8) : DelegationStep :=
  ⟨timestamp, .undelegate { sampleTx .undelegate 1 0 (some (sampleAddress 2)) U256.zero 100000
    (sampleAmount 1) with data := replicate 31 0 ++ [amount] } (sampleAddress 1)⟩

/-- Two undelegations in different seconds, of which one is processed. -/
def separateSeconds : List DelegationStep :=
  [delegateStep 1000, undelegateStep 5000 7, undelegateStep 6000 9, ⟨604805000, .processMature⟩,
    ⟨604805000, .processMature⟩]

theorem run_conserves_separateSeconds :
    PaysOnce sampleExecutor delegationDb separateSeconds ∧
      timesPaid ((start delegationDb).run sampleExecutor separateSeconds).payouts
        ⟨sampleAddress 1, sampleAddress 2, sampleAmount 7, 604805⟩ = [604805] := by
  obtain ⟨l, hrefines, hnone⟩ := delegationDb_refines
  have hfresh : Run.Along (step sampleExecutor) (fun t e => t.freshKey e = true)
      (start delegationDb) separateSeconds := by decide +kernel
  exact ⟨(run_conserves_delegations sampleExecutor hrefines hnone (by decide) hfresh).2,
    by decide +kernel⟩

/-- Two undelegations in one second. -/
def sharedSecond : List DelegationStep :=
  [delegateStep 1000, undelegateStep 5000 7, undelegateStep 5999 9]

/-- **The second undelegation of a second replaces the first**: its funds are
neither delegated nor pending nor returned. -/
theorem run_loses_shared_second :
    ∃ l, Refines delegationDb l ∧ l.Undelegated ∧
      sharedSecond.Pairwise (fun e e' => e.timestamp ≤ e'.timestamp) ∧
      ¬ Conserves (fun a => (l.accounts a).balance.val)
        ((start delegationDb).run sampleExecutor sharedSecond) ∧
      ¬ PaysOnce sampleExecutor delegationDb sharedSecond := by
  obtain ⟨l, hrefines, hnone⟩ := delegationDb_refines
  refine ⟨l, hrefines, hnone, by decide, fun h => ?_, fun h => ?_⟩
  · obtain ⟨acc, hacc, hsum, -⟩ := h (sampleAddress 1)
    have hleft : (((start delegationDb).run sampleExecutor sharedSecond).state.getAccount
        (sampleAddress 1)).1.toOption.map (fun acc => acc.getDelegatedAmount.val)
        = some (200 * ONE_QFC - 16) := by decide +kernel
    rw [hacc] at hleft
    have hamount : acc.getDelegatedAmount.val = 200 * ONE_QFC - 16 := Option.some.inj hleft
    rw [hamount] at hsum
    exact absurd hsum (by decide +kernel)
  · obtain ⟨-, hpending⟩ := h [delegateStep 1000, undelegateStep 5000 7] [undelegateStep 5999 9] rfl
      ⟨sampleAddress 1, sampleAddress 2, sampleAmount 7, 604805⟩ (by decide +kernel)
    exact absurd (hpending.mpr rfl) (by decide +kernel)

end DelegationRun

end Qfc
