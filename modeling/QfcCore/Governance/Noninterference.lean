import QfcCore.Governance.Endpoints
import QfcCore.Lib.Unwinding

/-!
# Who steers governance

A party that holds no key of a staked account sends requests among those of the
others. Two runs are compared, one with its requests and one without: in both,
every proposal should have the same status and the same stakes.

The endpoints carry no signatures, so the party may vote and propose in the name
of anybody, and then the runs differ. Nor is it enough that it only acts in its
own name: a vote that counts nothing still starts a tally of all the proposals,
and this one expires the proposals whose time is over, and decides the others by
the total stake of the moment. What holds is `keyless_no_effect`: the party acts
in its own name, votes while no proposal is due to be decided, and the others
leave its accounts alone.
-/

namespace Qfc.Governance

open Function List

variable {Id Content : Type} {voter : Address}

/-- A request, with the party that sends it and what it reads of the chain. -/
structure Submission (Id : Type) where
  keyless : Bool
  chain : Chain
  request : Request Id

/-- The account in whose name a request is made. -/
def Request.account : Request Id → Address
  | .proposeSpend proposer _ _ _ => proposer
  | .voteSpend _ voter _ => voter
  | .proposeParameter proposer _ _ _ => proposer
  | .voteParameter _ voter _ => voter

/-- No active proposal is due to be decided. -/
def Board.Undecided (b : Board Id Content) (totalStake now : ℕ) : Prop :=
  ∀ id, ∀ p ∈ b.proposals id, p.status = .active →
    now ≤ p.votingDeadline ∧ p.passed totalStake = false ∧ p.hopeless totalStake = false

/-- A vote finds nothing to decide on its board. -/
def Idle (s : Server Id) (c : Chain) : Request Id → Prop
  | .voteSpend _ _ _ => ∀ totalStake ∈ c.totalStake, s.treasury.Undecided totalStake c.now
  | .voteParameter _ _ _ =>
    ∀ totalStake ∈ c.totalStake, s.paramGovernance.board.Undecided totalStake c.now
  | _ => True

/-- **A genuine request**: the party acts in the name of an account of its own,
and votes when nothing is due; the others act in the name of other accounts. -/
def Genuine (own : Address → Prop) (s : Server Id) (e : Submission Id) : Prop :=
  if e.keyless then own e.request.account ∧ Idle s e.chain e.request
  else ¬ own e.request.account

/-- The status of a proposal, and the stakes counted for it and against it. -/
def Board.standing (b : Board Id Content) (id : Id) : Option (Status × ℕ × ℕ) :=
  (b.proposals id).map fun p => (p.status, p.stakeFor, p.stakeAgainst)

/-- **The outcomes of governance are the same** in two servers. -/
def SameOutcomes (s t : Server Id) : Prop :=
  ∀ id, s.treasury.standing id = t.treasury.standing id ∧
    s.paramGovernance.board.standing id = t.paramGovernance.board.standing id

/-- The server after a request. -/
def step [DecidableEq Id] (blake3 : Bytes → Id) (s : Server Id) (e : Submission Id) : Server Id :=
  (s.handle blake3 e.chain e.request).1

/-! ## Votes that count nothing -/

/-- The first list has votes of the own accounts more, which count nothing. -/
inductive Padded (own : Address → Prop) : List Vote → List Vote → Prop
  | refl (l : List Vote) : Padded own l l
  | keep (v : Vote) {l m : List Vote} (h : Padded own l m) : Padded own (v :: l) (v :: m)
  | extra {v : Vote} {l m : List Vote} (hown : own v.voter) (hstake : v.stake = 0)
      (h : Padded own l m) : Padded own (v :: l) m

variable {own : Address → Prop}

namespace Padded

variable {l m n : List Vote}

theorem trans (h : Padded own l m) : Padded own m n → Padded own l n := by
  induction h generalizing n with
  | refl l => exact id
  | extra hown hstake _ ih => exact fun h' => .extra hown hstake (ih h')
  | keep v h ih =>
    intro h'
    cases h' with
    | refl => exact .keep v h
    | keep _ h' => exact .keep v (ih h')
    | extra hown hstake h' => exact .extra hown hstake (ih h')

theorem sum_filter (h : Padded own l m) (kind : Vote → Bool) :
    ((l.filter kind).map Vote.stake).sum = ((m.filter kind).map Vote.stake).sum := by
  induction h with
  | refl l => rfl
  | keep v _ ih =>
    rw [filter_cons, filter_cons]
    split
    · rw [map_cons, map_cons, sum_cons, sum_cons, ih]
    · exact ih
  | extra _ hstake _ ih =>
    rw [filter_cons]
    split
    · rw [map_cons, sum_cons, hstake, Nat.zero_add, ih]
    · exact ih

/-- Another account has voted in both or in neither. -/
theorem any_voter (h : Padded own l m) (hother : ¬ own voter) :
    l.any (fun v => v.voter = voter) = m.any (fun v => v.voter = voter) := by
  induction h with
  | refl l => rfl
  | keep v _ ih => rw [any_cons, any_cons, ih]
  | extra hown _ _ ih =>
    rw [any_cons, ih, decide_eq_false, Bool.false_or]
    rintro rfl
    exact hother hown

end Padded

/-- A tally that finds nothing to decide changes nothing. -/
theorem Board.Undecided.tally_eq {b : Board Id Content} {totalStake now : ℕ}
    (h : b.Undecided totalStake now) : b.tally totalStake now = b := by
  have hproposals : (fun id => (b.proposals id).map (·.tally b.timelockMs totalStake now)) =
      b.proposals := by
    funext id
    cases hp : b.proposals id with
    | none => rfl
    | some p =>
      by_cases hactive : p.status = .active
      · obtain ⟨hnow, hpassed, hhopeless⟩ := h id p hp hactive
        simp [Proposal.tally, hactive, not_lt.mpr hnow, hpassed, hhopeless]
      · simp [Proposal.tally, hactive]
  unfold Board.tally
  rw [hproposals]

/-! ## Two servers -/

/-- The same proposal up to votes that count nothing. -/
def SameProposal (own : Address → Prop) (p q : Proposal Id Content) : Prop :=
  ∃ votes, q = { p with votes := votes } ∧ Padded own p.votes votes

namespace SameProposal

variable {p q r : Proposal Id Content}

theorem refl (p : Proposal Id Content) : SameProposal own p p := ⟨p.votes, rfl, .refl _⟩

variable (h : SameProposal own p q)
include h

theorem trans (h' : SameProposal own q r) : SameProposal own p r := by
  obtain ⟨votes, rfl, hvotes⟩ := h
  obtain ⟨votes', rfl, hvotes'⟩ := h'
  exact ⟨votes', rfl, hvotes.trans hvotes'⟩

theorem status_eq : p.status = q.status := by
  obtain ⟨votes, rfl, -⟩ := h
  rfl

theorem stakeFor_eq : p.stakeFor = q.stakeFor := by
  obtain ⟨votes, rfl, hvotes⟩ := h
  exact congrArg (· % u128Size) (hvotes.sum_filter _)

theorem stakeAgainst_eq : p.stakeAgainst = q.stakeAgainst := by
  obtain ⟨votes, rfl, hvotes⟩ := h
  exact congrArg (· % u128Size) (hvotes.sum_filter _)

theorem tally (timelockMs totalStake now : ℕ) :
    SameProposal own (p.tally timelockMs totalStake now) (q.tally timelockMs totalStake now) := by
  have hpassed : p.passed totalStake = q.passed totalStake := by
    unfold Proposal.passed
    rw [h.stakeFor_eq]
  have hhopeless : p.hopeless totalStake = q.hopeless totalStake := by
    unfold Proposal.hopeless
    rw [h.stakeFor_eq, h.stakeAgainst_eq]
  unfold Proposal.tally
  rw [hpassed, hhopeless]
  obtain ⟨votes, rfl, hvotes⟩ := h
  dsimp only
  split_ifs
  all_goals exact ⟨votes, rfl, hvotes⟩

end SameProposal

/-- The same board up to votes that count nothing. -/
structure SameBoard (own : Address → Prop) (b c : Board Id Content) : Prop where
  votingPeriodMs : b.votingPeriodMs = c.votingPeriodMs
  timelockMs : b.timelockMs = c.timelockMs
  proposalCounter : b.proposalCounter = c.proposalCounter
  proposals : ∀ id, Option.Rel (SameProposal own) (b.proposals id) (c.proposals id)

variable {approve : Bool}

namespace SameBoard

variable {b c d : Board Id Content}

theorem refl (b : Board Id Content) : SameBoard own b b := by
  refine ⟨rfl, rfl, rfl, fun id => ?_⟩
  cases b.proposals id with
  | none => exact .none
  | some p => exact .some (.refl p)

variable (h : SameBoard own b c)
include h

theorem trans (h' : SameBoard own c d) : SameBoard own b d := by
  refine ⟨h.votingPeriodMs.trans h'.votingPeriodMs, h.timelockMs.trans h'.timelockMs,
    h.proposalCounter.trans h'.proposalCounter, fun id => ?_⟩
  have hid := h.proposals id
  have hid' := h'.proposals id
  generalize b.proposals id = x, c.proposals id = y, d.proposals id = z at hid hid'
  cases hid with
  | none => exact hid'
  | some hp =>
    cases hid' with
    | some hq => exact .some (hp.trans hq)

theorem standing_eq (id : Id) : b.standing id = c.standing id := by
  have hid := h.proposals id
  unfold Board.standing
  generalize b.proposals id = x, c.proposals id = y at hid
  cases hid with
  | none => rfl
  | some hp => rw [Option.map_some, Option.map_some, hp.status_eq, hp.stakeFor_eq,
      hp.stakeAgainst_eq]

theorem tally (totalStake now : ℕ) :
    SameBoard own (b.tally totalStake now) (c.tally totalStake now) := by
  refine ⟨h.votingPeriodMs, h.timelockMs, h.proposalCounter, fun id => ?_⟩
  have hid := h.proposals id
  unfold Board.tally
  rw [h.timelockMs]
  dsimp only
  generalize b.proposals id = x, c.proposals id = y at hid
  cases hid with
  | none => exact .none
  | some hp => exact .some (hp.tally _ _ _)

variable [DecidableEq Id]

/-- One proposal is entered or changed on both boards. -/
theorem update {p q : Proposal Id Content} (hpq : SameProposal own p q)
    (id id' : Id) :
    Option.Rel (SameProposal own) (update b.proposals id (some p) id')
      (update c.proposals id (some q) id') := by
  obtain rfl | hid := eq_or_ne id' id
  · rw [update_self, update_self]
    exact .some hpq
  · rw [update_of_ne hid, update_of_ne hid]
    exact h.proposals id'

/-- The same proposal gets the same id on both boards. -/
theorem enter (blake3 : Bytes → Id) (tag : Bytes) (proposer : Address)
    (content : Content) (description : String) (now : ℕ) :
    (b.enter blake3 tag proposer content description now).1 =
        (c.enter blake3 tag proposer content description now).1 ∧
      SameBoard own (b.enter blake3 tag proposer content description now).2
        (c.enter blake3 tag proposer content description now).2 := by
  unfold Board.enter
  rw [h.proposalCounter, h.votingPeriodMs]
  exact ⟨rfl, rfl, h.timelockMs, rfl, h.update (.refl _) _⟩

/-- A vote of another account is refused on both boards or counted on both. -/
theorem vote (hother : ¬ own voter) (id : Id) (approve : Bool) (stake now : ℕ) :
    (∃ e, b.vote id voter approve stake now = .error e ∧
        c.vote id voter approve stake now = .error e) ∨
      ∃ b' c', b.vote id voter approve stake now = .ok b' ∧
        c.vote id voter approve stake now = .ok c' ∧ SameBoard own b' c' := by
  have hid := h.proposals id
  unfold Board.vote
  generalize b.proposals id = x, c.proposals id = y at hid
  cases hid with
  | none => exact .inl ⟨_, rfl, rfl⟩
  | some hpq =>
    obtain ⟨votes, rfl, hvotes⟩ := hpq
    dsimp only
    rw [← hvotes.any_voter hother]
    split_ifs
    · exact .inl ⟨_, rfl, rfl⟩
    · exact .inl ⟨_, rfl, rfl⟩
    · exact .inl ⟨_, rfl, rfl⟩
    · refine .inr ⟨_, _, rfl, rfl, ?_⟩
      exact ⟨h.votingPeriodMs, h.timelockMs, h.proposalCounter,
        h.update ⟨_, rfl, hvotes.keep _⟩ id⟩

omit h in
/-- A vote that counts nothing, and is undone. -/
theorem of_vote {id : Id} {now : ℕ} (hown : own voter)
    (hvote : b.vote id voter approve 0 now = .ok c) : SameBoard own c b := by
  unfold Board.vote at hvote
  cases hb : b.proposals id with
  | none => rw [hb] at hvote; cases hvote
  | some p =>
    simp only [hb] at hvote
    split_ifs at hvote
    cases hvote
    refine ⟨rfl, rfl, rfl, fun id' => ?_⟩
    have hupdate := (refl b).update (p := { p with votes := ⟨voter, approve, 0⟩ :: p.votes })
      ⟨p.votes, rfl, .extra hown rfl (.refl _)⟩ id id'
    rw [← hb, update_eq_self] at hupdate
    exact hupdate

end SameBoard

/-- The same server up to votes that count nothing. -/
structure SameServer (own : Address → Prop) (s t : Server Id) : Prop where
  treasury : SameBoard own s.treasury t.treasury
  board : SameBoard own s.paramGovernance.board t.paramGovernance.board
  overrides : s.paramGovernance.overrides = t.paramGovernance.overrides
  paused : s.paramGovernance.paused = t.paramGovernance.paused

namespace SameServer

variable {s t : Server Id}

theorem refl (s : Server Id) : SameServer own s s := ⟨.refl _, .refl _, rfl, rfl⟩

variable (h : SameServer own s t)
include h

theorem outcomes : SameOutcomes s t :=
  fun id => ⟨h.treasury.standing_eq id, h.board.standing_eq id⟩

variable [DecidableEq Id] {c : Chain} (blake3 : Bytes → Id)

/-! ### Requests of the others -/

theorem proposeSpend (c : Chain)
    (proposer recipient : Address) (amount : ℕ) (description : String) :
    SameServer own (s.proposeSpend blake3 c proposer recipient amount description).1
      (t.proposeSpend blake3 c proposer recipient amount description).1 := by
  unfold Server.proposeSpend
  split
  · unfold Governance.proposeSpend
    split_ifs
    · exact h
    · exact h
    · exact h
    · exact { h with treasury := (h.treasury.enter blake3 _ _ _ _ _).2 }
  · exact h

theorem proposeParameter (c : Chain)
    (proposer : Address) (parameter : ParameterKey) (proposedValue : ℕ) (description : String) :
    SameServer own (s.proposeParameter blake3 c proposer parameter proposedValue description).1
      (t.proposeParameter blake3 c proposer parameter proposedValue description).1 := by
  have hvalue : s.currentParamValue parameter = t.currentParamValue parameter := by
    unfold Server.currentParamValue
    rw [h.overrides]
  unfold Server.proposeParameter
  rw [hvalue]
  dsimp only
  split
  · exact h
  · unfold ParameterGovernance.propose
    rw [h.paused]
    split_ifs
    · exact h
    · exact h
    · exact h
    · exact ⟨h.treasury, (h.board.enter blake3 _ _ _ _ _).2, h.overrides, rfl⟩

variable {proposer : Address}

theorem voteSpend (c : Chain) (id : Id) (hother : ¬ own voter)
    (approve : Bool) :
    SameServer own (s.voteSpend c id voter approve).1 (t.voteSpend c id voter approve).1 := by
  unfold Server.voteSpend
  split
  · exact h
  · rename_i stake _
    obtain ⟨e, hs, ht⟩ | ⟨b, b', hs, ht, hb⟩ := h.treasury.vote hother id approve stake c.now
    · rw [hs, ht]
      exact h
    · rw [hs, ht]
      dsimp only
      split
      · exact { h with treasury := hb }
      · exact { h with treasury := hb.tally _ _ }

theorem voteParameter (c : Chain) (id : Id) (hother : ¬ own voter)
    (approve : Bool) :
    SameServer own (s.voteParameter c id voter approve).1
      (t.voteParameter c id voter approve).1 := by
  unfold Server.voteParameter
  split
  · exact h
  · rename_i stake _
    unfold ParameterGovernance.vote
    rw [h.paused]
    split_ifs
    · exact h
    · obtain ⟨e, hs, ht⟩ | ⟨b, b', hs, ht, hb⟩ := h.board.vote hother id approve stake c.now
      · rw [hs, ht]
        exact h
      · rw [hs, ht]
        dsimp only [bind, Except.bind, pure, Except.pure]
        split
        · exact ⟨h.treasury, hb, h.overrides, rfl⟩
        · exact ⟨h.treasury, hb.tally _ _, h.overrides, rfl⟩

/-! ### Requests of the party -/

omit h in
theorem asU128_of_zero {a : U256} (h : a.val = 0) : asU128 a = some 0 := by
  unfold asU128
  rw [h, if_pos (by norm_num [u128Size])]

theorem proposeSpend_left (hstake : (c.stake proposer).val = 0) (recipient : Address) (amount : ℕ)
    (description : String) :
    SameServer own (s.proposeSpend blake3 c proposer recipient amount description).1 t := by
  unfold Server.proposeSpend
  rw [asU128_of_zero hstake]
  split
  · rename_i hsome _
    cases hsome
    exact h
  · exact h

theorem proposeParameter_left (hstake : (c.stake proposer).val = 0) (parameter : ParameterKey)
    (proposedValue : ℕ) (description : String) :
    SameServer own
      (s.proposeParameter blake3 c proposer parameter proposedValue description).1 t := by
  unfold Server.proposeParameter ParameterGovernance.propose
  rw [asU128_of_zero hstake]
  dsimp only
  split_ifs with hpaused hmin
  · exact h
  · exact h
  · exact h
  · exact absurd (by norm_num [minProposalStake]) hmin

omit h in
/-- The own vote counts nothing, and what is idle before it stays as it is. -/
theorem left_of_vote {b b' b'' : Board Id Content} {id : Id} (hown : own voter)
    (hvote : b.vote id voter approve 0 c.now = .ok b') (hb : SameBoard own b b'') :
    SameBoard own b' b'' ∧
      ∀ totalStake, b.Undecided totalStake c.now →
        SameBoard own (b'.tally totalStake c.now) b'' := by
  have hback := SameBoard.of_vote hown hvote
  refine ⟨hback.trans hb, fun totalStake hidle => ?_⟩
  have htally := hback.tally totalStake c.now
  rw [hidle.tally_eq] at htally
  exact htally.trans hb

theorem voteSpend_left (id : Id) (approve : Bool) (hown : own voter)
    (hstake : (c.stake voter).val = 0) (hidle : Idle s c (.voteSpend id voter approve)) :
    SameServer own (s.voteSpend c id voter approve).1 t := by
  unfold Server.voteSpend
  rw [asU128_of_zero hstake]
  dsimp only
  cases hvote : s.treasury.vote id voter approve 0 c.now with
  | error e => exact h
  | ok b =>
    obtain ⟨hb, htally⟩ := left_of_vote hown hvote h.treasury
    dsimp only
    split
    · exact { h with treasury := hb }
    · rename_i totalStake hsome
      exact { h with treasury := htally totalStake (hidle totalStake hsome) }

theorem voteParameter_left (id : Id) (approve : Bool) (hown : own voter)
    (hstake : (c.stake voter).val = 0) (hidle : Idle s c (.voteParameter id voter approve)) :
    SameServer own (s.voteParameter c id voter approve).1 t := by
  unfold Server.voteParameter ParameterGovernance.vote
  rw [asU128_of_zero hstake]
  dsimp only
  split_ifs
  · exact h
  · cases hvote : s.paramGovernance.board.vote id voter approve 0 c.now with
    | error e => exact h
    | ok b =>
      obtain ⟨hb, htally⟩ := left_of_vote hown hvote h.board
      dsimp only [bind, Except.bind, pure, Except.pure]
      split
      · exact { h with board := hb }
      · rename_i totalStake hsome
        exact { h with board := htally totalStake (hidle totalStake hsome) }

/-! ### One request -/

variable {e : Submission Id}

theorem step_both (hother : ¬ own e.request.account) :
    SameServer own (step blake3 s e) (step blake3 t e) := by
  obtain ⟨keyless, c, request⟩ := e
  cases request with
  | proposeSpend proposer recipient amount description =>
    exact h.proposeSpend blake3 c proposer recipient amount description
  | voteSpend id voter approve => exact h.voteSpend c id hother approve
  | proposeParameter proposer parameter proposedValue description =>
    exact h.proposeParameter blake3 c proposer parameter proposedValue description
  | voteParameter id voter approve => exact h.voteParameter c id hother approve

theorem step_left (hown : own e.request.account)
    (hstake : (e.chain.stake e.request.account).val = 0) (hidle : Idle s e.chain e.request) :
    SameServer own (step blake3 s e) t := by
  obtain ⟨keyless, c, request⟩ := e
  cases request with
  | proposeSpend proposer recipient amount description =>
    exact h.proposeSpend_left blake3 hstake recipient amount description
  | voteSpend id voter approve => exact h.voteSpend_left id approve hown hstake hidle
  | proposeParameter proposer parameter proposedValue description =>
    exact h.proposeParameter_left blake3 hstake parameter proposedValue description
  | voteParameter id voter approve => exact h.voteParameter_left id approve hown hstake hidle

end SameServer

/-! ## Runs -/

section Runs

variable [DecidableEq Id]

/-- **The genuine requests of a party without staked accounts have no effect**: in
the run without them every proposal has the same status and the same stakes. -/
theorem keyless_no_effect {blake3 : Bytes → Id} {own : Address → Prop} {s : Server Id}
    {submissions : List (Submission Id)}
    (hkeyless : ∀ e ∈ submissions, e.keyless = true → ∀ a, own a → (e.chain.stake a).val = 0)
    (hgenuine : Run.Along (step blake3) (Genuine own) s submissions) :
    SameOutcomes (Run.run (step blake3) s submissions)
      (Run.run (step blake3) s (submissions.filter (fun e => !e.keyless))) := by
  have hall : Run.Along (step blake3) (fun s e => Genuine own s e ∧
      (e.keyless = true → ∀ a, own a → (e.chain.stake a).val = 0)) s submissions :=
    hgenuine.imp fun e he s hs => ⟨hs, hkeyless e he⟩
  have hsame : SameServer own (Run.run (step blake3) s submissions)
      (Run.run (step blake3) s (submissions.filter (fun e => !e.keyless))) := by
    refine Run.unwinding (SameServer.refl s) ?_ ?_ hall
    · intro s t e hkeep hcond h
      rw [Bool.not_eq_true'] at hkeep
      have hother := hcond.1
      rw [Genuine, hkeep, if_neg Bool.false_ne_true] at hother
      exact h.step_both blake3 hother
    · intro s t e hkeep hcond h
      rw [Bool.not_eq_false'] at hkeep
      have hown := hcond.1
      rw [Genuine, if_pos hkeep] at hown
      exact h.step_left blake3 hown.1 (hcond.2 hkeep _ hown.1) hown.2
  exact hsame.outcomes

/-- The server before the first proposal. -/
def freshServer : Server Bytes :=
  ⟨⟨fun _ => none, 432000000, 259200000, 0⟩,
    ⟨⟨fun _ => none, 259200000, 172800000, 0⟩, fun _ => none, false⟩⟩

/-- An address of one repeated byte. -/
def accountOf (byte : UInt8) : Address := ⟨Vector.replicate 20 byte⟩

/-- Accounts 1 and 2 have staked 20000 and 30000 tokens and are the validators,
and the treasury holds 1000 tokens. -/
def twoStakers (now : ℕ) : Chain :=
  { stake := fun a =>
      if a = accountOf 1 then ⟨20000000000000000000000, by norm_num [u256Size]⟩
      else if a = accountOf 2 then ⟨30000000000000000000000, by norm_num [u256Size]⟩
      else .zero
    balance := fun a =>
      if a = TREASURY_ADDRESS then ⟨1000000000000000000000, by norm_num [u256Size]⟩ else .zero
    validators := [⟨20000000000000000000000, by norm_num [u256Size]⟩,
      ⟨30000000000000000000000, by norm_num [u256Size]⟩]
    now := now }

/-- The id of the first spend proposal of account 1, when the hash is the text. -/
def firstId : Bytes := (accountOf 1).bytes.toList ++ leBytes 1 ++ treasuryTag

/-- Account 1 proposes; the party votes in the name of its own account 7, and then
account 2 votes. -/
def bystander : List (Submission Bytes) :=
  [⟨false, twoStakers 1000, .proposeSpend (accountOf 1) (accountOf 9) 100 "grant"⟩,
    ⟨true, twoStakers 2000, .voteSpend firstId (accountOf 7) false⟩,
    ⟨false, twoStakers 3000, .voteSpend firstId (accountOf 2) true⟩]

/-- The proposal of account 1. -/
def firstProposal : Proposal Bytes Spend :=
  ⟨firstId, accountOf 1, ⟨accountOf 9, 100⟩, "grant", [], .active, 1000, 432001000⟩

theorem bystander_no_effect :
    (Run.run (step id) freshServer bystander).treasury.standing firstId =
        some (.active, 30000000000000000000000, 0) ∧
      SameOutcomes (Run.run (step id) freshServer bystander)
        (Run.run (step id) freshServer (bystander.filter (fun e => !e.keyless))) := by
  refine ⟨by decide +kernel, @keyless_no_effect Bytes _ id (· = accountOf 7) _ _ ?_ ?_⟩
  · rintro e he - a rfl
    simp only [bystander, mem_cons, not_mem_nil, or_false] at he
    obtain rfl | rfl | rfl := he <;> decide +kernel
  · refine ⟨(by decide : ¬ accountOf 1 = accountOf 7), ⟨rfl, fun _ htotal proposalId p hp _ => ?_⟩,
      (by decide : ¬ accountOf 2 = accountOf 7), trivial⟩
    cases htotal
    have hproposals : (step id freshServer ⟨false, twoStakers 1000,
        .proposeSpend (accountOf 1) (accountOf 9) 100 "grant"⟩).treasury.proposals =
        update (fun _ => none) firstId (some firstProposal) := rfl
    rw [hproposals, update_apply] at hp
    split_ifs at hp with hid
    · obtain rfl := Option.mem_some_iff.mp hp
      decide +kernel
    · cases hp

/-- Account 1 proposes, and the party votes in the name of account 2. -/
def impersonation : List (Submission Bytes) :=
  [⟨false, twoStakers 1000, .proposeSpend (accountOf 1) (accountOf 9) 100 "grant"⟩,
    ⟨true, twoStakers 2000, .voteSpend firstId (accountOf 2) false⟩]

/-- **The party rejects the proposal of account 1 alone**, with the stake of
account 2. -/
theorem impersonation_rejects :
    ((Run.run (step id) freshServer impersonation).treasury.standing firstId =
        some (.rejected, 0, 30000000000000000000000)) ∧
      ((Run.run (step id) freshServer
          (impersonation.filter (fun e => !e.keyless))).treasury.standing firstId =
        some (.active, 0, 0)) := by
  decide +kernel

end Runs

end Qfc.Governance
