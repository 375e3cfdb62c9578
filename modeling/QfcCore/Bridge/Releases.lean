import QfcCore.Bridge.Relayer
import QfcCore.Lib.History
import QfcCore.Lib.OkLe
import QfcCore.Lib.Run
import QfcCore.Lib.Table

/-!
# Releases of the bridge

Every call that returns `Ok` makes an event, which records the recipient and the
amount that the record had at that moment. A completion is backed if the id was
not completed before, enough different validators signed this recipient and this
amount, and, for a deposit, the confirmation succeeded (`Backed`).

The relayer does not see to it. A signature is taken for a deposit that is still
pending, and the one that reaches the threshold takes the deposit past its
confirmation; a withdrawal is completed in any status, any number of times and
whatever is locked; and a record of a completed withdrawal can be replaced by a
new one. In the runs without such calls (`Careful`) every completion is backed,
and what is locked is what was deposited without what was withdrawn
(`releases_sound`).
-/

namespace Qfc.Bridge

open History Function List BridgeRelayer Prod

variable {Id : Type}

/-- What a call that returned `Ok` did. -/
inductive Event (Id : Type)
  | observedDeposit (id : Id) (amount : ℕ)
  | confirmedDeposit (id : Id)
  | signedDeposit (id : Id) (validator recipient : Address) (amount : ℕ)
  | completedDeposit (id : Id) (recipient : Address) (amount : ℕ)
  | signedWithdrawal (id : Id) (validator recipient : Address) (amount : ℕ)
  | completedWithdrawal (id : Id) (recipient : Address) (amount : ℕ)
deriving DecidableEq

/-! ## Histories -/

variable (vs : BridgeValidatorSet) (history : List (Event Id))

/-- The deposits that were observed. -/
def observations : List (Id × ℕ) :=
  history.filterMap fun
    | .observedDeposit id amount => some (id, amount)
    | _ => none

/-- The deposits that were completed. -/
def completions : List (Id × ℕ) :=
  history.filterMap fun
    | .completedDeposit id _ amount => some (id, amount)
    | _ => none

/-- The amounts of the completed withdrawals. -/
def withdrawnAmounts : List ℕ :=
  history.filterMap fun
    | .completedWithdrawal _ _ amount => some amount
    | _ => none

/-- The sum of the completed deposits. -/
def deposited : ℕ := ((completions history).map snd).sum

/-- The sum of the completed withdrawals. -/
def withdrawn : ℕ := (withdrawnAmounts history).sum

/-- Enough different validators have signed. -/
def EnoughSigned (signed : Address → Event Id) (history : List (Event Id)) : Prop :=
  ∃ signers : Finset Address, signers ⊆ vs.validators ∧ vs.threshold ≤ signers.card ∧
    ∀ v ∈ signers, signed v ∈ history

/-- **A completion is backed** by what came before: it is the first one of its
id, and enough validators signed the record as it is; a deposit was confirmed. -/
def Backed (before : List (Event Id)) : Event Id → Prop
  | .completedDeposit id recipient amount =>
    (∀ recipient' amount', .completedDeposit id recipient' amount' ∉ before) ∧
      .confirmedDeposit id ∈ before ∧
      EnoughSigned vs (fun v => .signedDeposit id v recipient amount) before
  | .completedWithdrawal id recipient amount =>
    (∀ recipient' amount', .completedWithdrawal id recipient' amount' ∉ before) ∧
      EnoughSigned vs (fun v => .signedWithdrawal id v recipient amount) before
  | _ => True

/-- **The releases are sound**: every completion is backed, and what is locked is
the sum of the completed deposits without the sum of the completed withdrawals,
which is no more. -/
structure Sound (r : BridgeRelayer Id) (history : List (Event Id)) :
    Prop where
  backed : Justified (Backed vs) history
  covered : withdrawn history ≤ deposited history
  locked : r.totalValueLocked = deposited history - withdrawn history

/-! ## Runs -/

section Runs

variable [DecidableEq Id] (r : BridgeRelayer Id) (state : BridgeRelayer Id × List (Event Id))

/-- The event of a deposit that is in the map. -/
def depositEvent (id : Id) (event : BridgeDeposit Id → Event Id) : List (Event Id) :=
  ((r.deposits id).map event).toList

/-- The event of a withdrawal that is in the map. -/
def withdrawalEvent (id : Id) (event : BridgeWithdrawal Id → Event Id) : List (Event Id) :=
  ((r.withdrawals id).map event).toList

/-- A call, and the event that it makes. -/
def perform : Call Id → Except (BridgeError Id) (BridgeRelayer Id × List (Event Id))
  | .observeDeposit id ethTxHash ethBlockNumber ethSender qfcRecipient tokenAddress amount now => do
    let r' ← r.observeDeposit id ethTxHash ethBlockNumber ethSender qfcRecipient tokenAddress
      amount now
    return (r', [.observedDeposit id amount])
  | .confirmDeposit id => do
    let r' ← r.confirmDeposit id
    return (r', [.confirmedDeposit id])
  | .signDeposit id validator signature => do
    let (_, r') ← r.signDeposit id validator signature
    return (r', depositEvent r id fun d => .signedDeposit id validator d.qfcRecipient d.amount)
  | .completeDeposit id => do
    let (amount, r') ← r.completeDeposit id
    return (r', depositEvent r id fun d => .completedDeposit id d.qfcRecipient amount)
  | .observeWithdrawal id qfcTxHash qfcBlockNumber qfcSender ethRecipient tokenAddress amount
      now => do
    let r' ← r.observeWithdrawal id qfcTxHash qfcBlockNumber qfcSender ethRecipient tokenAddress
      amount now
    return (r', [])
  | .startSigningWithdrawal id => do
    let r' ← r.startSigningWithdrawal id
    return (r', [])
  | .signWithdrawal id validator signature => do
    let (_, r') ← r.signWithdrawal id validator signature
    return (r', withdrawalEvent r id fun w =>
      .signedWithdrawal id validator w.ethRecipient w.amount)
  | .completeWithdrawal id ethUnlockTx => do
    let (amount, r') ← r.completeWithdrawal id ethUnlockTx
    return (r', withdrawalEvent r id fun w => .completedWithdrawal id w.ethRecipient amount)
  | .pause => return (r.pause, [])
  | .unpause => return (r.unpause, [])

/-- The relayer and its history after a call. -/
def step (call : Call Id) : BridgeRelayer Id × List (Event Id) :=
  match perform state.1 call with
  | .ok (r, events) => (r, state.2 ++ events)
  | .error _ => state

/-- **A call that the relayer should have refused otherwise**, if it succeeds: a
signature does not take a pending deposit to the threshold; the record of a
completed withdrawal is not replaced; and a withdrawal is completed once, with
enough signatures, and out of what is locked. -/
def Careful (call : Call Id) : Prop :=
  (perform state.1 call).isOk = true →
    match call with
    | .signDeposit id _ _ => ∀ d ∈ state.1.deposits id, d.status = .pending →
        d.signatures.length + 1 < state.1.validatorSet.threshold
    | .observeWithdrawal id _ _ _ _ _ _ _ => ∀ w ∈ state.1.withdrawals id, w.ethUnlockTx = none
    | .completeWithdrawal id _ => ∀ w ∈ state.1.withdrawals id, w.ethUnlockTx = none ∧
        state.1.validatorSet.threshold ≤ w.signatures.length ∧ w.amount ≤ state.1.totalValueLocked
    | _ => True

instance : DecidablePred (Careful state) := fun call => by
  cases call <;> dsimp only [Careful] <;> infer_instance

/-- The amount of the deposit that a call reports. -/
def Call.deposit : Call Id → ℕ
  | .observeDeposit _ _ _ _ _ _ amount _ => amount
  | _ => 0

end Runs

/-! ## Histories with one more event -/

/-- The ids of the completed withdrawals. -/
def withdrawnIds (history : List (Event Id)) : List Id :=
  history.filterMap fun
    | .completedWithdrawal id _ _ => some id
    | _ => none

/-- The sum of the observed deposits. -/
def observed (history : List (Event Id)) : ℕ := ((observations history).map snd).sum

/-- Whether the event is a completion. -/
def Event.isRelease : Event Id → Bool
  | .completedDeposit .. | .completedWithdrawal .. => true
  | _ => false

variable {id : Id} {r' : BridgeRelayer Id}

variable {e : Event Id}

section Histories

variable {vs : BridgeValidatorSet} {h l : List (Event Id)} {recipient : Address}

@[simp] theorem observations_append : observations (h ++ l) = observations h ++ observations l :=
  filterMap_append

@[simp] theorem completions_append : completions (h ++ l) = completions h ++ completions l :=
  filterMap_append

@[simp] theorem withdrawnAmounts_append :
    withdrawnAmounts (h ++ l) = withdrawnAmounts h ++ withdrawnAmounts l :=
  filterMap_append

@[simp] theorem withdrawnIds_append : withdrawnIds (h ++ l) = withdrawnIds h ++ withdrawnIds l :=
  filterMap_append

section

variable (he : e.isRelease = false)
include he

theorem completions_quiet : completions [e] = [] := by
  cases e <;> first | rfl | cases he

theorem withdrawnAmounts_quiet : withdrawnAmounts [e] = [] := by
  cases e <;> first | rfl | cases he

theorem withdrawnIds_quiet : withdrawnIds [e] = [] := by
  cases e <;> first | rfl | cases he

theorem backed_quiet : Backed vs h e := by
  cases e <;> trivial

end

theorem mem_completions {amount : ℕ} (he : .completedDeposit id recipient amount ∈ h) :
    id ∈ (completions h).map fst :=
  mem_map.mpr ⟨(id, amount), mem_filterMap.mpr ⟨_, he, rfl⟩, rfl⟩

theorem mem_withdrawnIds {amount : ℕ} (he : .completedWithdrawal id recipient amount ∈ h) :
    id ∈ withdrawnIds h :=
  mem_filterMap.mpr ⟨_, he, rfl⟩

/-- Each deposit is completed at most once, so no more is deposited than was
observed. -/
theorem deposited_le_observed (honce : ((completions h).map fst).Nodup)
    (hknown : completions h ⊆ observations h) : deposited h ≤ observed h := by
  obtain ⟨l, hperm, hsub⟩ := honce.of_map.subperm hknown
  calc deposited h = (l.map snd).sum := (hperm.map snd).sum_eq.symm
    _ ≤ observed h := (hsub.map snd).sum_le_sum fun _ _ => Nat.zero_le _

/-- A quiet event leaves sound releases sound. -/
theorem Sound.quiet {r : BridgeRelayer Id} (hsound : Sound vs r h)
    (hlocked : r'.totalValueLocked = r.totalValueLocked) (he : e.isRelease = false) :
    Sound vs r' (h ++ [e]) := by
  have hin : deposited (h ++ [e]) = deposited h := by
    simp [deposited, completions_append, completions_quiet he]
  have hout : withdrawn (h ++ [e]) = withdrawn h := by
    simp [withdrawn, withdrawnAmounts_append, withdrawnAmounts_quiet he]
  refine ⟨justified_concat.mpr ⟨hsound.backed, backed_quiet he⟩, ?_, ?_⟩
  · rw [hin, hout]
    exact hsound.covered
  · rw [hin, hout, hlocked]
    exact hsound.locked

end Histories

/-! ## Signatures -/

/-- The signatures of a record are of different validators, each of which signed
it as it is. -/
structure Signed (vs : BridgeValidatorSet) (signed : Address → Event Id)
    (history : List (Event Id)) (signatures : List (Address × Bytes)) : Prop where
  nodup : (signatures.map fst).Nodup
  member : ∀ v ∈ signatures.map fst, v ∈ vs.validators ∧ signed v ∈ history

variable {signature : Bytes} {v : Address}

namespace Signed

variable {vs : BridgeValidatorSet} {signed : Address → Event Id} {h l : List (Event Id)}
  {signatures : List (Address × Bytes)}

theorem nil : Signed vs signed h [] := ⟨nodup_nil, nofun⟩

variable (hs : Signed vs signed h signatures)
include hs

theorem append : Signed vs signed (h ++ l) signatures :=
  ⟨hs.nodup, fun v hv =>
    ⟨(hs.member v hv).1, mem_append_left _ (hs.member v hv).2⟩⟩

/-- One signature more, by a validator that has not signed. -/
theorem sign (hv : v ∈ vs.validators) (hnew : hasSigned signatures v = false) :
    Signed vs signed (h ++ [signed v]) (signatures ++ [(v, signature)]) := by
  have hfresh : v ∉ signatures.map fst := by
    rintro hmem
    obtain ⟨s, hs, rfl⟩ := mem_map.mp hmem
    have hany : hasSigned signatures s.1 = true :=
      any_eq_true.mpr ⟨s, hs, decide_eq_true rfl⟩
    rw [hany] at hnew
    cases hnew
  constructor
  · rw [map_append, nodup_append']
    exact ⟨hs.nodup, nodup_singleton _, disjoint_singleton.mpr hfresh⟩
  · intro w hw
    rw [map_append, mem_append] at hw
    obtain hw | hw := hw
    · exact hs.append.member w hw
    · rw [map_singleton, mem_singleton] at hw
      rw [hw]
      exact ⟨hv, mem_append_right _ (mem_singleton_self _)⟩

/-- As many signatures as the threshold asks for are enough. -/
theorem enough (hlen : vs.threshold ≤ signatures.length) : EnoughSigned vs signed h := by
  refine ⟨(signatures.map fst).toFinset, fun v hv => ?_, ?_, fun v hv => ?_⟩
  · exact (hs.member v (mem_toFinset.mp hv)).1
  · rw [toFinset_card_of_nodup hs.nodup, length_map]
    exact hlen
  · exact (hs.member v (mem_toFinset.mp hv)).2

end Signed

/-! ## What a careful run keeps -/

variable (vs : BridgeValidatorSet) (history : List (Event Id))

/-- What the history knows about a deposit in the map. -/
structure DepositKept (id : Id) (d : BridgeDeposit Id) : Prop where
  signed : Signed vs (fun v => .signedDeposit id v d.qfcRecipient d.amount) history d.signatures
  observed : (id, d.amount) ∈ observations history
  confirmed : d.status ≠ .pending → .confirmedDeposit id ∈ history
  enough : d.status = .minting → vs.threshold ≤ d.signatures.length

theorem DepositKept.append {vs : BridgeValidatorSet} {h l : List (Event Id)} {d : BridgeDeposit Id}
    (hd : DepositKept vs h id d) : DepositKept vs (h ++ l) id d where
  signed := hd.signed.append
  observed := observations_append ▸ mem_append_left _ hd.observed
  confirmed := fun hs => mem_append_left _ (hd.confirmed hs)
  enough := hd.enough

/-- What the history knows about a withdrawal in the map. -/
def WithdrawalKept (id : Id) (w : BridgeWithdrawal Id) : Prop :=
  Signed vs (fun v => .signedWithdrawal id v w.ethRecipient w.amount) history w.signatures

/-- **The invariant of careful runs.** An id that is not completed in its map is
not completed in the history. -/
structure Kept (r : BridgeRelayer Id) (history : List (Event Id)) :
    Prop where
  set : r.validatorSet = vs
  deposit : ∀ id, ∀ d ∈ r.deposits id, DepositKept vs history id d
  openDeposit : ∀ id, (∀ d ∈ r.deposits id, d.status ≠ .completed) →
    id ∉ (completions history).map fst
  withdrawal : ∀ id, ∀ w ∈ r.withdrawals id, WithdrawalKept vs history id w
  openWithdrawal : ∀ id, (∀ w ∈ r.withdrawals id, w.ethUnlockTx = none) → id ∉ withdrawnIds history
  once : ((completions history).map fst).Nodup
  known : completions history ⊆ observations history
  sound : Sound vs r history

section Steps

variable {vs : BridgeValidatorSet} {r : BridgeRelayer Id} {h : List (Event Id)}
  {w : BridgeWithdrawal Id}

theorem Kept.new {config : RelayerConfig} (hnew : new config = some r) :
    Kept r.validatorSet r [] := by
  obtain ⟨vs, -, hr⟩ := Option.bind_eq_some_iff.mp hnew
  cases hr
  exact
    { set := rfl
      deposit := nofun
      openDeposit := nofun
      withdrawal := nofun
      openWithdrawal := nofun
      once := nodup_nil
      known := nil_subset _
      sound := ⟨justified_nil, le_rfl, rfl⟩ }

section

variable (hk : Kept vs r h)
include hk

/-- A quiet event, for the parts of the invariant that it does not touch. -/
theorem Kept.quiet (he : e.isRelease = false) : Kept vs r (h ++ [e]) where
  set := hk.set
  deposit := fun id d hd => (hk.deposit id d hd).append
  openDeposit := by
    simpa [completions_append, completions_quiet he] using hk.openDeposit
  withdrawal := fun id w hw => (hk.withdrawal id w hw).append
  openWithdrawal := by
    simpa [withdrawnIds_append, withdrawnIds_quiet he]
      using hk.openWithdrawal
  once := by
    simpa [completions_append, completions_quiet he] using hk.once
  known := by
    rw [completions_append, completions_quiet he, append_nil, observations_append]
    exact fun _ hx => mem_append_left _ (hk.known hx)
  sound := hk.sound.quiet rfl he

theorem Kept.setPaused (paused : Bool) : Kept vs { r with paused := paused } h :=
  { hk with sound := ⟨hk.sound.backed, hk.sound.covered, hk.sound.locked⟩ }

/-- The id of a deposit that is not completed was not completed before. -/
theorem Kept.open_of_deposits {d : BridgeDeposit Id} (hd : r.deposits id = some d)
    (hstatus : d.status ≠ .completed) : id ∉ (completions h).map fst := by
  refine hk.openDeposit id fun x hx => ?_
  rw [hd, Option.mem_some_iff] at hx
  exact hx ▸ hstatus

/-- The id of a withdrawal that is not unlocked was not completed before. -/
theorem Kept.open_of_withdrawals (hw : r.withdrawals id = some w) (hunlock : w.ethUnlockTx = none) :
    id ∉ withdrawnIds h := by
  refine hk.openWithdrawal id fun x hx => ?_
  rw [hw, Option.mem_some_iff] at hx
  exact hx ▸ hunlock

end

variable [DecidableEq Id]

namespace Kept

variable {d : BridgeDeposit Id} (hk : Kept vs r h)
include hk

/-- A deposit is entered or changed, but not completed. -/
theorem setDeposit (hd : DepositKept vs h id d)
    (hopen : d.status ≠ .completed → id ∉ (completions h).map fst) :
    Kept vs { r with deposits := update r.deposits id (some d) } h :=
  { hk with
    deposit := Table.forall_mem_insert (fun id' _ => hk.deposit id') hd
    openDeposit := Table.forall_of_forall_insert (fun id' _ => hk.openDeposit id') hopen
    sound := ⟨hk.sound.backed, hk.sound.covered, hk.sound.locked⟩ }

/-- A withdrawal is entered or changed, but not completed. -/
theorem setWithdrawal (hw : WithdrawalKept vs h id w)
    (hopen : w.ethUnlockTx = none → id ∉ withdrawnIds h) :
    Kept vs { r with withdrawals := update r.withdrawals id (some w) } h :=
  { hk with
    withdrawal := Table.forall_mem_insert (fun id' _ => hk.withdrawal id') hw
    openWithdrawal := Table.forall_of_forall_insert (fun id' _ => hk.openWithdrawal id') hopen
    sound := ⟨hk.sound.backed, hk.sound.covered, hk.sound.locked⟩ }

theorem observeDeposit (hnone : r.deposits id = none) (hpending : d.status = .pending)
    (hunsigned : d.signatures = []) :
    Kept vs { r with deposits := update r.deposits id (some d) }
      (h ++ [.observedDeposit id d.amount]) := by
  refine (hk.quiet rfl).setDeposit ⟨?_, ?_, ?_, ?_⟩ fun _ => ?_
  · rw [hunsigned]
    exact .nil
  · rw [observations_append]
    exact mem_append_right _ (mem_singleton_self _)
  · exact absurd hpending
  · rw [hpending]
    exact nofun
  · refine (hk.quiet rfl).openDeposit id fun x hx => ?_
    rw [hnone] at hx
    cases hx

theorem confirmDeposit (hd : r.deposits id = some d) (hpending : d.status = .pending) :
    Kept vs { r with
        deposits := update r.deposits id (some { d with status := .confirmed }) }
      (h ++ [.confirmedDeposit id]) := by
  have hkept := (hk.quiet (e := .confirmedDeposit id) rfl).deposit id d hd
  refine (hk.quiet rfl).setDeposit ⟨hkept.signed, hkept.observed, fun _ => ?_,
    nofun⟩ fun _ => ?_
  · exact mem_append_right _ (mem_singleton_self _)
  · exact (hk.quiet rfl).open_of_deposits hd (by rw [hpending]; decide)

theorem completeDeposit {count : ℕ} (hbound : observed h < 2 ^ 128) (hd : r.deposits id = some d)
    (hminting : d.status = .minting) :
    Kept vs { r with
        deposits := update r.deposits id (some { d with status := .completed })
        totalDeposits := count
        totalValueLocked := (r.totalValueLocked + d.amount) % 2 ^ 128 }
      (h ++ [.completedDeposit id d.qfcRecipient d.amount]) := by
  have hkept := hk.deposit id d hd
  have hopen : id ∉ (completions h).map fst :=
    hk.open_of_deposits hd (by rw [hminting]; decide)
  set h' := h ++ [Event.completedDeposit id d.qfcRecipient d.amount] with hh'
  have hcompletions : completions h' = completions h ++ [(id, d.amount)] := completions_append
  have hobservations : observations h' = observations h :=
    observations_append.trans (append_nil _)
  have honce : ((completions h').map fst).Nodup := by
    rw [hcompletions, map_append, nodup_append']
    exact ⟨hk.once, nodup_singleton _, disjoint_singleton.mpr hopen⟩
  have hknown : completions h' ⊆ observations h' := by
    rw [hcompletions, hobservations]
    exact append_subset.mpr ⟨hk.known, cons_subset.mpr ⟨hkept.observed, nil_subset _⟩⟩
  have hin : deposited h' = deposited h + d.amount := by
    simp [deposited, hcompletions]
  have hout : withdrawn h' = withdrawn h := by
    simp only [withdrawn, hh', withdrawnAmounts_append]
    exact congrArg sum (append_nil _)
  -- the sum does not wrap, since no more is deposited than was observed
  have hfits : deposited h + d.amount < 2 ^ 128 := by
    rw [← hin]
    refine (deposited_le_observed honce hknown).trans_lt ?_
    rw [observed, hobservations]
    exact hbound
  have hcovered := hk.sound.covered
  refine
    { set := hk.set
      deposit := Table.forall_mem_insert (fun id _ x hx => (hk.deposit id x hx).append) ?_
      openDeposit := Table.forall_of_forall_insert (fun id' hid hall => ?_) (absurd rfl)
      withdrawal := fun id w hw => (hk.withdrawal id w hw).append
      openWithdrawal := ?_
      once := honce
      known := hknown
      sound := ⟨justified_concat.mpr ⟨hk.sound.backed, ?_⟩, ?_, ?_⟩ }
  · have hconfirmed : .confirmedDeposit id ∈ h := hkept.confirmed (by rw [hminting]; decide)
    exact ⟨hkept.append.signed, hkept.append.observed,
      fun _ => mem_append_left _ hconfirmed, nofun⟩
  · rw [hcompletions, map_append, mem_append]
    rintro (hmem | hmem)
    · exact hk.openDeposit id' hall hmem
    · exact hid (mem_singleton.mp hmem)
  · have hids : withdrawnIds h' = withdrawnIds h :=
      withdrawnIds_append.trans (append_nil _)
    rw [hids]
    exact hk.openWithdrawal
  · exact ⟨fun _ _ hmem => hopen (mem_completions hmem),
      hkept.confirmed (by rw [hminting]; decide), hkept.signed.enough (hkept.enough hminting)⟩
  · omega
  · show (r.totalValueLocked + d.amount) % 2 ^ 128 = _
    rw [hk.sound.locked, hin, hout, Nat.mod_eq_of_lt (by omega)]
    omega

/-- A withdrawal is completed for the first time, with enough signatures and out
of what is locked. -/
theorem completeWithdrawal {tx : Id} {count : ℕ} (hw : r.withdrawals id = some w)
    (hfirst : w.ethUnlockTx = none) (henough : vs.threshold ≤ w.signatures.length)
    (hlocked : w.amount ≤ r.totalValueLocked) :
    Kept vs { r with
        withdrawals := update r.withdrawals id
          (some { w with status := .completed, ethUnlockTx := some tx })
        totalWithdrawals := count
        totalValueLocked := r.totalValueLocked - w.amount }
      (h ++ [.completedWithdrawal id w.ethRecipient w.amount]) := by
  have hkept := hk.withdrawal id w hw
  have hopen : id ∉ withdrawnIds h := hk.open_of_withdrawals hw hfirst
  set h' := h ++ [Event.completedWithdrawal id w.ethRecipient w.amount] with hh'
  have hcompletions : completions h' = completions h :=
    completions_append.trans (append_nil _)
  have hids : withdrawnIds h' = withdrawnIds h ++ [id] := withdrawnIds_append
  have hin : deposited h' = deposited h := congrArg (fun l => (l.map snd).sum) hcompletions
  have hout : withdrawn h' = withdrawn h + w.amount := by
    have hamounts : withdrawnAmounts h' = withdrawnAmounts h ++ [w.amount] :=
      withdrawnAmounts_append
    rw [withdrawn, hamounts, sum_append, sum_singleton]
    rfl
  have hsum := hk.sound.locked
  have hcovered := hk.sound.covered
  refine
    { set := hk.set
      deposit := fun id d hd => (hk.deposit id d hd).append
      openDeposit := ?_
      withdrawal := Table.forall_mem_insert (fun id _ x hx => (hk.withdrawal id x hx).append)
        hkept.append
      openWithdrawal := Table.forall_of_forall_insert (fun id' hid hall => ?_)
        nofun
      once := ?_
      known := ?_
      sound := ⟨justified_concat.mpr ⟨hk.sound.backed, ?_⟩, ?_, ?_⟩ }
  · rw [hcompletions]
    exact hk.openDeposit
  · rw [hids, mem_append]
    rintro (hmem | hmem)
    · exact hk.openWithdrawal id' hall hmem
    · exact hid (mem_singleton.mp hmem)
  · rw [hcompletions]
    exact hk.once
  · rw [hcompletions, hh', observations_append]
    exact fun _ hx => mem_append_left _ (hk.known hx)
  · exact ⟨fun _ _ hmem => hopen (mem_withdrawnIds hmem), hkept.enough henough⟩
  · omega
  · show r.totalValueLocked - w.amount = _
    omega

/-- A validator signs a deposit; if this takes the deposit to the threshold, then
the deposit is confirmed. -/
theorem signDeposit {d d' : BridgeDeposit Id} {met : Bool} (hd : r.deposits id = some d)
    (hcareful : d.status = .pending → d.signatures.length + 1 < vs.threshold)
    (hok : vs.signDeposit d v signature = .ok (met, d')) :
    Kept vs { r with deposits := update r.deposits id (some d') }
      (h ++ [.signedDeposit id v d.qfcRecipient d.amount]) := by
  have hkept := hk.deposit id d hd
  obtain ⟨hvalid, hcompleted, hnew, hsigned⟩ := BridgeValidatorSet.sign_ok hok
  simp only [decide_eq_true_eq] at hsigned
  obtain rfl := (Prod.mk.inj hsigned).2
  refine (hk.quiet rfl).setDeposit
    ⟨hkept.signed.sign hvalid hnew, hkept.append.observed, fun hstatus => ?_, fun hstatus => ?_⟩
    fun _ => (hk.quiet rfl).open_of_deposits hd (of_decide_eq_false hcompleted)
  · refine hkept.append.confirmed fun hpending => hstatus ?_
    rw [if_neg (not_le.mpr (hcareful hpending)), hpending]
  · show vs.threshold ≤ (d.signatures ++ [(v, signature)]).length
    rw [length_append, length_singleton]
    by_cases hmet : vs.threshold ≤ d.signatures.length + 1
    · exact hmet
    · rw [if_neg hmet] at hstatus
      exact (hkept.enough hstatus).trans (Nat.le_succ _)

theorem signWithdrawal {w' : BridgeWithdrawal Id} {met : Bool} (hw : r.withdrawals id = some w)
    (hok : vs.signWithdrawal w v signature = .ok (met, w')) :
    Kept vs { r with withdrawals := update r.withdrawals id (some w') }
      (h ++ [.signedWithdrawal id v w.ethRecipient w.amount]) := by
  obtain ⟨hvalid, -, hnew, hsigned⟩ := BridgeValidatorSet.sign_ok hok
  obtain rfl := (Prod.mk.inj hsigned).2
  exact (hk.quiet rfl).setWithdrawal ((hk.withdrawal id w hw).sign hvalid hnew)
    fun hopen => (hk.quiet rfl).open_of_withdrawals hw hopen

end Kept

/-! ## A call -/

variable {call : Call Id}

theorem Kept.perform {events : List (Event Id)} (hk : Kept vs r h) (hbound : observed h < 2 ^ 128)
    (hcareful : Careful (r, h) call) (hok : perform r call = .ok (r', events)) :
    Kept vs r' (h ++ events) := by
  obtain rfl := hk.set
  replace hcareful := hcareful (by rw [hok]; rfl)
  cases call with
  | observeDeposit id tx block sender recipient token amount now =>
    simp only [Bridge.perform, BridgeRelayer.observeDeposit] at hok
    split_ifs at hok with hpaused hzero hsome
    all_goals cases hok
    rw [Bool.not_eq_true, Option.isSome_eq_false_iff, Option.isNone_iff_eq_none] at hsome
    exact hk.observeDeposit hsome rfl rfl
  | confirmDeposit id =>
    simp only [Bridge.perform, BridgeRelayer.confirmDeposit] at hok
    split at hok
    · cases hok
    · split_ifs at hok with hpending
      all_goals cases hok
      exact hk.confirmDeposit ‹_› (not_not.mp hpending)
  | signDeposit id v signature =>
    simp only [Bridge.perform, BridgeRelayer.signDeposit] at hok
    split_ifs at hok with hpaused
    · cases hok
    · split at hok
      · cases hok
      · rename_i d hd
        split at hok
        · cases hok
        · simp only [depositEvent, hd] at hok
          cases hok
          exact hk.signDeposit hd (hcareful d hd) ‹_›
  | completeDeposit id =>
    simp only [Bridge.perform, BridgeRelayer.completeDeposit] at hok
    split at hok
    · cases hok
    · rename_i d hd
      split_ifs at hok with hminting
      · cases hok
      · simp only [depositEvent, hd] at hok
        cases hok
        exact hk.completeDeposit hbound hd (not_not.mp hminting)
  | observeWithdrawal id tx block sender recipient token amount now =>
    simp only [Bridge.perform, observeWithdrawal] at hok
    split_ifs at hok with hpaused hzero
    all_goals cases hok
    rw [append_nil]
    exact hk.setWithdrawal .nil fun _ => hk.openWithdrawal id hcareful
  | startSigningWithdrawal id =>
    simp only [Bridge.perform, startSigningWithdrawal] at hok
    split at hok
    · cases hok
    · rename_i w hw
      cases hok
      rw [append_nil]
      exact hk.setWithdrawal (hk.withdrawal id w hw) fun hopen => hk.open_of_withdrawals hw hopen
  | signWithdrawal id v signature =>
    simp only [Bridge.perform, BridgeRelayer.signWithdrawal] at hok
    split_ifs at hok with hpaused
    · cases hok
    · split at hok
      · cases hok
      · rename_i w hw
        split at hok
        · cases hok
        · simp only [withdrawalEvent, hw] at hok
          cases hok
          exact hk.signWithdrawal hw ‹_›
  | completeWithdrawal id tx =>
    simp only [Bridge.perform, BridgeRelayer.completeWithdrawal] at hok
    split at hok
    · cases hok
    · rename_i w hw
      simp only [hw, withdrawalEvent] at hok
      cases hok
      obtain ⟨hfirst, henough, hlocked⟩ := hcareful w hw
      exact hk.completeWithdrawal hw hfirst henough hlocked
  | pause =>
    cases hok
    rw [append_nil]
    exact hk.setPaused true
  | unpause =>
    cases hok
    rw [append_nil]
    exact hk.setPaused false

/-- Only an observation adds to what was observed. -/
theorem observed_perform (r : BridgeRelayer Id) (call : Call Id) :
    OkSat (fun result => observed result.2 ≤ call.deposit) (perform r call) := by
  -- the event of a record in the map is no observation
  have hrecord {β : Type} (x : Option β) (event : β → Event Id)
      (hevent : ∀ b, observed [event b] = 0) : observed (x.map event).toList ≤ 0 := by
    cases x with
    | none => exact le_rfl
    | some b => exact (hevent b).le
  refine OkInto.sat (y := perform r call) ?_
  cases call with
  | observeDeposit | confirmDeposit | observeWithdrawal | startSigningWithdrawal =>
    exact (OkInto.any _).bind fun _ _ => .ok le_rfl
  | signDeposit | completeDeposit | signWithdrawal | completeWithdrawal =>
    exact (OkInto.any _).bind fun _ _ => .ok (hrecord _ _ fun _ => rfl)
  | pause | unpause => exact .ok le_rfl

/-! ## Runs -/

variable {state : BridgeRelayer Id × List (Event Id)}

theorem Kept.step (hk : Kept vs state.1 state.2) (hbound : observed state.2 < 2 ^ 128)
    (hcareful : Careful state call) : Kept vs (step state call).1 (step state call).2 := by
  unfold Bridge.step
  split
  · exact hk.perform hbound hcareful ‹_›
  · exact hk

theorem observed_step (state : BridgeRelayer Id × List (Event Id)) (call : Call Id) :
    observed (step state call).2 ≤ observed state.2 + call.deposit := by
  unfold step
  split
  · simp only [observed, observations_append, map_append, sum_append]
    exact Nat.add_le_add_left (observed_perform state.1 call _ ‹_›) _
  · exact Nat.le_add_right _ _

/-- A careful run keeps the invariant, while the deposits sum up to less than
`2 ^ 128`. -/
theorem Kept.run {calls : List (Call Id)} (hk : Kept vs state.1 state.2)
    (hsum : observed state.2 + (calls.map Call.deposit).sum < 2 ^ 128)
    (hcareful : Run.Along Bridge.step Careful state calls) :
    Kept vs (Run.run Bridge.step state calls).1 (Run.run Bridge.step state calls).2 := by
  induction calls generalizing state with
  | nil => exact hk
  | cons call calls ih =>
    rw [map_cons, sum_cons] at hsum
    have hstep := observed_step state call
    exact ih (hk.step (by omega) hcareful.1) (by omega) hcareful.2

end Steps

section Main

variable [DecidableEq Id]

/-- **The releases of a careful run are authorised, unique and backed.** -/
theorem releases_sound {config : RelayerConfig} {r : BridgeRelayer Id} {calls : List (Call Id)}
    (hnew : new config = some r) (hsum : (calls.map Call.deposit).sum < 2 ^ 128)
    (hcareful : Run.Along step Careful (r, []) calls) :
    Sound r.validatorSet (Run.run step (r, []) calls).1 (Run.run step (r, []) calls).2 := by
  refine (Kept.run (Kept.new hnew) ?_ hcareful).sound
  rw [show observed ([] : List (Event Id)) = 0 from rfl, Nat.zero_add]
  exact hsum

end Main

/-- An address of one repeated byte. -/
def partyOf (byte : UInt8) : Address := ⟨Vector.replicate 20 byte⟩

/-- Two validators, and both have to sign. -/
def bothSign : RelayerConfig := ⟨12, [partyOf 1, partyOf 2], 2⟩

/-- A deposit of 9 and a withdrawal of 5, as the relayer's own test goes
through them. -/
def fullLifecycle : List (Call ℕ) :=
  [.observeDeposit 0 100 1 (partyOf 7) (partyOf 8) (partyOf 0) 9 50,
    .signDeposit 0 (partyOf 1) [1], .confirmDeposit 0, .signDeposit 0 (partyOf 2) [2],
    .completeDeposit 0,
    .observeWithdrawal 0 101 2 (partyOf 8) (partyOf 7) (partyOf 0) 5 60,
    .startSigningWithdrawal 0, .signWithdrawal 0 (partyOf 2) [3], .signWithdrawal 0 (partyOf 1) [4],
    .completeWithdrawal 0 102]

/-- The relayer of two validators. -/
def freshRelayer : BridgeRelayer ℕ :=
  ⟨fun _ => none, fun _ => none, ⟨bothSign.validators.toFinset, 2⟩, 12, false, 0, 0, 0⟩

theorem full_lifecycle_sound :
    (Run.run step (freshRelayer, []) fullLifecycle).1.totalValueLocked = 4 ∧
      Sound freshRelayer.validatorSet (Run.run step (freshRelayer, []) fullLifecycle).1
        (Run.run step (freshRelayer, []) fullLifecycle).2 :=
  ⟨by decide +kernel,
    releases_sound (show new bothSign = some freshRelayer from rfl) (by decide)
      (by decide +kernel)⟩

/-- A deposit that is signed and completed without a confirmation, and a
withdrawal without any signature that is completed twice. -/
def carelessCalls : List (Call ℕ) :=
  [.observeDeposit 0 100 1 (partyOf 7) (partyOf 8) (partyOf 0) 9 50,
    .signDeposit 0 (partyOf 1) [1], .signDeposit 0 (partyOf 2) [2], .completeDeposit 0,
    .observeWithdrawal 0 101 2 (partyOf 8) (partyOf 6) (partyOf 0) 7 60,
    .completeWithdrawal 0 102, .completeWithdrawal 0 103]

/-- **The relayer lets these calls through**: no completion of theirs is backed,
14 are withdrawn out of 9, and the total reads 0. -/
theorem careless_releases :
    new bothSign = some freshRelayer ∧
      (Run.run step (freshRelayer, []) carelessCalls).2 =
        [.observedDeposit 0 9, .signedDeposit 0 (partyOf 1) (partyOf 8) 9,
          .signedDeposit 0 (partyOf 2) (partyOf 8) 9, .completedDeposit 0 (partyOf 8) 9,
          .completedWithdrawal 0 (partyOf 6) 7, .completedWithdrawal 0 (partyOf 6) 7] ∧
      (Run.run step (freshRelayer, []) carelessCalls).1.totalValueLocked = 0 ∧
      ¬ Sound freshRelayer.validatorSet (Run.run step (freshRelayer, []) carelessCalls).1
        (Run.run step (freshRelayer, []) carelessCalls).2 := by
  refine ⟨rfl, by decide +kernel, by decide +kernel, fun hsound => ?_⟩
  exact absurd hsound.covered (by decide +kernel)

end Qfc.Bridge
