import QfcCore.Node.Sync
import QfcCore.Chain.ForkChoice
import QfcCore.Executor.CodeRuntime

/-!
# Agreement of finality

A network of nodes that exchange blocks and votes. A node finalizes a block
when it holds accept votes of 67% of the registered validators for it. Votes
are signed, so every vote a node holds was cast by its voter, and two
finalized blocks have two quorums of cast votes behind them. Two quorums share
at least 34% of the validators.

A validator votes once per height, but nothing binds its votes at different
heights to one branch. So nodes can finalize blocks of different branches, and
when they do, 34% of the validators accepted both.
-/

namespace Qfc

open Function Chain List Node

variable {H X ι : Type} [HashScheme H]

/-- **The hash `x` is at or below the block of hash `y`**: following parent
hashes from `y` leads to `x`. -/
inductive Ancestor (x : H) : H → Prop
  | refl : Ancestor x x
  | child (b : Block H) : Ancestor x b.parentHash → Ancestor x b.hash

/-- A block is found among its parents or is the block itself. -/
theorem Ancestor.eq_or_parent {x : H} {b : Block H} (h : Ancestor x b.hash) :
    x = b.hash ∨ Ancestor x b.parentHash := by
  generalize hy : b.hash = y at h
  cases h with
  | refl => exact .inl rfl
  | child b' h' =>
    have hparent : b.parentHash = b'.parentHash :=
      congrArg BlockHeader.parentHash (Block.hash_inj.mp hy)
    rw [hparent]
    exact .inr h'

theorem Ancestor.eq_zero {x : H} (h : Ancestor x 0) : x = 0 := by
  generalize hy : (0 : H) = y at h
  cases h with
  | refl => rfl
  | child b h' => exact absurd hy.symm b.hash_ne_zero

/-- On one chain the lower block is an ancestor of the higher one. -/
theorem Linked.ancestor {canon : List (Block H)} (h : Linked canon) {m n : ℕ} (hmn : m ≤ n)
    {a b : Block H} (ha : canon[m]? = some a) (hb : canon[n]? = some b) :
    Ancestor a.hash b.hash := by
  induction n, hmn using Nat.le_induction generalizing b with
  | base =>
    rw [ha] at hb
    cases hb
    exact .refl
  | succ n hmn ih =>
    have hn : n < canon.length := Nat.lt_of_succ_lt (List.getElem?_eq_some_iff.mp hb).1
    refine .child b ?_
    rw [h.parent (getElem?_eq_getElem hn) hb]
    exact ih (getElem?_eq_getElem hn)

/-! ## Votes cast -/

variable (validators : List ValidatorNode) (sent : List (Vote H)) (hash : H)

/-- The registered addresses that cast an accept vote for a block. -/
def acceptors : Finset Address :=
  (validators.map ValidatorNode.address).toFinset.filter
    (fun a => ∃ v ∈ sent, v.voter = a ∧ v.blockHash = hash ∧ v.isAccept = true)

/-- A quorum of the registered validators accepted the block. -/
def Quorum : Prop :=
  67 * validators.length ≤ 100 * (acceptors validators sent hash).card

variable {validators : List ValidatorNode}

/-- Votes are never taken back. -/
theorem acceptors_mono {sent sent' : List (Vote H)} (h : ∀ v ∈ sent, v ∈ sent') (hash : H) :
    acceptors validators sent hash ⊆ acceptors validators sent' hash := by
  intro a ha
  unfold acceptors at ha ⊢
  rw [Finset.mem_filter] at ha ⊢
  obtain ⟨hreg, v, hv, hva⟩ := ha
  exact ⟨hreg, v, h v hv, hva⟩

theorem Quorum.mono {sent sent' : List (Vote H)} {hash : H} (hq : Quorum validators sent hash)
    (h : ∀ v ∈ sent, v ∈ sent') : Quorum validators sent' hash :=
  le_trans hq (Nat.mul_le_mul_left 100 (Finset.card_le_card (acceptors_mono h hash)))

/-- Two quorums share 34% of the validators. -/
theorem Quorum.inter {sent : List (Vote H)} {x y : H} (hx : Quorum validators sent x)
    (hy : Quorum validators sent y) :
    34 * validators.length
      ≤ 100 * (acceptors validators sent x ∩ acceptors validators sent y).card := by
  have hunion : (acceptors validators sent x ∪ acceptors validators sent y).card
      ≤ validators.length := by
    refine le_trans (Finset.card_le_card (Finset.union_subset (Finset.filter_subset _ _)
      (Finset.filter_subset _ _))) ?_
    refine le_trans (toFinset_card_le _) ?_
    rw [length_map]
  have hsum := Finset.card_union_add_card_inter (acceptors validators sent x)
    (acceptors validators sent y)
  unfold Quorum at hx hy
  omega

variable (sent : List (Vote H)) (v : Vote H)

/-- The vote `v`, whatever its signature, was cast. -/
def Cast : Prop :=
  ∃ w ∈ sent, w.toUnsignedVote = v.toUnsignedVote

instance : Decidable (Cast sent v) :=
  inferInstanceAs (Decidable (∃ w ∈ sent, w.toUnsignedVote = v.toUnsignedVote))

/-- **The votes a node holds**: filed under their block, one per voter, and
cast. -/
def HeldVotes (e : ConsensusEngine H) : Prop :=
  ∀ hash votes, e.pendingVotes hash = some votes →
    (votes.map (fun v => v.voter)).Nodup ∧ ∀ v ∈ votes, v.blockHash = hash ∧ Cast sent v

variable {sent' sent : List (Vote H)}

namespace HeldVotes

variable {e : ConsensusEngine H}

omit [HashScheme H] in
theorem mono (h : HeldVotes sent e) (hsub : ∀ v ∈ sent, v ∈ sent') : HeldVotes sent' e := by
  intro hash votes hvotes
  refine ⟨(h hash votes hvotes).1, fun v hv => ?_⟩
  obtain ⟨hhash, w, hw, hwv⟩ := (h hash votes hvotes).2 v hv
  exact ⟨hhash, w, hsub w hw, hwv⟩

theorem addVote (h : HeldVotes sent e) {v : Vote H} (hv : Cast sent v) :
    HeldVotes sent (e.addVote v) := by
  intro hash votes hvotes
  unfold ConsensusEngine.addVote at hvotes
  dsimp only at hvotes
  by_cases hh : hash = v.blockHash
  · subst hh
    rw [update_self] at hvotes
    obtain ⟨hnodup, hcast⟩ : ((((e.pendingVotes v.blockHash).getD []).map
        (fun v => v.voter)).Nodup) ∧ ∀ w ∈ (e.pendingVotes v.blockHash).getD [],
          w.blockHash = v.blockHash ∧ Cast sent w := by
      cases hp : e.pendingVotes v.blockHash with
      | none => exact ⟨nodup_nil, fun w hw => absurd hw not_mem_nil⟩
      | some old => exact h v.blockHash old hp
    rw [Option.some.injEq] at hvotes
    subst hvotes
    split
    · exact ⟨hnodup, hcast⟩
    · rename_i hnew
      refine ⟨?_, ?_⟩
      · rw [map_append, nodup_append]
        refine ⟨hnodup, nodup_singleton _, ?_⟩
        intro a ha b hb hab
        obtain ⟨w, hw, rfl⟩ := mem_map.mp ha
        rw [map_singleton, mem_singleton] at hb
        refine hnew (any_eq_true.mpr ⟨w, hw, ?_⟩)
        rw [decide_eq_true_eq, hab, hb]
      · intro w hw
        obtain hw | hw := mem_append.mp hw
        · exact hcast w hw
        · obtain rfl := mem_singleton.mp hw
          exact ⟨rfl, hv⟩
  · rw [update_of_ne hh] at hvotes
    exact h hash votes hvotes

omit [HashScheme H] in
theorem pruneOldVotes (h : HeldVotes sent e) (height : ℕ) :
    HeldVotes sent (e.pruneOldVotes height) := by
  intro hash votes hvotes
  exact h hash votes (Option.filter_eq_some_iff.mp hvotes).1

/-- A block that passes the finality check has a quorum of cast votes. -/
theorem quorum (h : HeldVotes sent e) {hash : H} (hfin : e.checkFinality hash = true) :
    Quorum e.validators sent hash := by
  unfold ConsensusEngine.checkFinality at hfin
  cases hp : e.pendingVotes hash with
  | none =>
    rw [hp] at hfin
    cases hfin
  | some votes =>
    rw [hp] at hfin
    dsimp only at hfin
    split at hfin
    · cases hfin
    · refine le_trans (of_decide_eq_true hfin) (Nat.mul_le_mul_left 100 ?_)
      obtain ⟨hnodup, hcast⟩ := h hash votes hp
      unfold ConsensusEngine.acceptCount
      set counted := (votes.filter Vote.isAccept).filter
        (fun v => e.validators.any (fun w => w.address = v.voter)) with hcounted
      have hsub : (counted.map (fun v => v.voter)).Nodup :=
        hnodup.sublist ((filter_sublist.trans filter_sublist).map _)
      rw [← length_map (fun v : Vote H => v.voter), ← toFinset_card_of_nodup hsub]
      refine Finset.card_le_card ?_
      -- each vote counted is an accept vote that a registered validator cast
      intro a ha
      rw [mem_toFinset, mem_map] at ha
      obtain ⟨v, hv, rfl⟩ := ha
      rw [hcounted, mem_filter, mem_filter, any_eq_true] at hv
      obtain ⟨⟨hmem, hacc⟩, w, hw, hreg⟩ := hv
      obtain ⟨hhash, u, hu, huv⟩ := hcast v hmem
      unfold acceptors
      rw [Finset.mem_filter, mem_toFinset, mem_map]
      refine ⟨⟨w, hw, of_decide_eq_true hreg⟩, u, hu, congrArg UnsignedVote.voter huv, ?_, ?_⟩
      · rw [← hhash]
        exact congrArg UnsignedVote.blockHash huv
      · unfold Vote.isAccept at hacc ⊢
        rw [show u.decision = v.decision from congrArg UnsignedVote.decision huv]
        exact hacc

end HeldVotes

/-! ## One node -/

/-- **A sound node** among the validators `validators`, when the votes `sent`
have been cast: its finalized block is canonical, the votes it holds were cast,
and what it finalized has a quorum. -/
structure SoundNode (g : Block H) (validators : List ValidatorNode) (sent : List (Vote H))
    (c : Chain H X) : Prop where
  keeps : ∃ canon, Keeps g 0 g.hash c canon
  registered : c.engine.validators = validators
  held : HeldVotes sent c.engine
  quorum : c.finalized.2 = g.hash ∨ Quorum validators sent c.finalized.2

namespace SoundNode

variable {ex : BlockExecutor H X} {g : Block H} {c : Chain H X} {n : Node H X}

theorem mono (h : SoundNode g validators sent c) (hsub : ∀ v ∈ sent, v ∈ sent') :
    SoundNode g validators sent' c :=
  ⟨h.keeps, h.registered, h.held.mono hsub, h.quorum.imp id (fun hq => hq.mono hsub)⟩

/-- Another engine with the same validators and cast votes. -/
theorem withEngine (h : SoundNode g validators sent c) {e : ConsensusEngine H}
    (hreg : e.validators = validators) (hheld : HeldVotes sent e) :
    SoundNode g validators sent { c with engine := e } := by
  obtain ⟨canon, hk⟩ := h.keeps
  exact ⟨⟨canon, hk.inv.unread _ _ _, hk.recorded, hk.le, hk.kept⟩, hreg, hheld, h.quorum⟩

/-- A block, imported or produced, changes neither the votes nor the record. -/
theorem block (h : SoundNode g validators sent c) (hg : g.parentHash = 0) (ex : BlockExecutor H X)
    (op : ChainOp H) (hop : op.block.isSome = true) :
    SoundNode g validators sent (step ex c op) := by
  obtain ⟨canon, hk⟩ := h.keeps
  have heff := step_effect ex c op
  have hsame : (step ex c op).engine = c.engine ∧
      (step ex c op).finalized = c.finalized := by
    generalize step ex c op = c' at heff ⊢
    generalize succeeds ex c op = ok at heff
    cases heff with
    | rejected | extended | produced | side | reorged => exact ⟨rfl, rfl⟩
    | finalized => cases hop
  refine ⟨hk.step ex hg op, ?_, ?_, ?_⟩
  · rw [hsame.1]
    exact h.registered
  · rw [hsame.1]
    exact h.held
  · rw [hsame.2]
    exact h.quorum

section

variable (h : SoundNode g validators sent n.chain)
include h

theorem importBlock (hg : g.parentHash = 0) (ex : BlockExecutor H X) (now : ℕ) (b : Block H) :
    SoundNode g validators sent (importBlock ex now n b).1.chain :=
  h.block hg ex (.importBlock now b) rfl

/-- Finalizing keeps a node sound: the check it makes is a quorum. -/
theorem tryFinalize (hash : H) (height : ℕ) :
    SoundNode g validators sent (n.tryFinalize hash height).chain := by
  unfold Node.tryFinalize
  split
  · exact h
  · rename_i hheight
    split
    · exact h
    · rename_i hcan
      split
      · exact h
      · rename_i hfin
        rw [not_not] at hcan hfin
        obtain ⟨canon, hk⟩ := h.keeps
        have hquorum : Quorum validators sent hash := h.registered ▸ h.held.quorum hfin
        have hrec : n.chain.recordFinalized height hash
            = { n.chain with
                finalized := (height, hash)
                engine := { n.chain.engine with
                  finalizedHeight := max height n.chain.engine.finalizedHeight } } := by
          unfold recordFinalized
          rw [if_pos hcan, if_pos (not_le.mp hheight)]
        have hsound : SoundNode g validators sent (n.chain.recordFinalized height hash) := by
          rw [hrec]
          refine ⟨⟨canon, hk.inv.unread _ _ _, ?_, Nat.zero_le _, hk.kept⟩, h.registered, h.held,
            .inr hquorum⟩
          exact (hk.inv.indexes.isCanonical_iff (Nat.zero_le _)).mp hcan
        dsimp only
        split
        · exact hsound.withEngine hsound.registered (hsound.held.pruneOldVotes height)
        · exact hsound

/-- Signing a vote changes what the node recorded of its own votes only. -/
theorem signVote (now height : ℕ) (hash : H) (b : Block H) (accept : Bool) :
    SoundNode g validators sent (n.signVote now height hash b accept).1.chain := by
  have hown : (n.chain.engine.tryRecordOwnVote height hash).1.validators = validators ∧
      HeldVotes sent (n.chain.engine.tryRecordOwnVote height hash).1 := by
    unfold ConsensusEngine.tryRecordOwnVote
    split
    · exact ⟨h.registered, h.held⟩
    · exact ⟨h.registered, h.held⟩
  unfold Node.signVote
  generalize n.chain.engine.tryRecordOwnVote height hash = own at hown ⊢
  obtain ⟨e, first⟩ := own
  cases first with
  | false => exact h.withEngine hown.1 hown.2
  | true =>
    dsimp only
    cases e.vote now b accept with
    | error _ | ok v => exact h.withEngine hown.1 hown.2

theorem holdVote {v : Vote H} (hv : Cast sent v) :
    SoundNode g validators sent (n.holdVote v).chain :=
  h.withEngine h.registered (h.held.addVote hv)

theorem holdVotes {votes : List (Vote H)} (hv : ∀ v ∈ votes, v ∈ sent) :
    SoundNode g validators sent (votes.foldl Node.holdVote n).chain := by
  induction votes generalizing n with
  | nil => exact h
  | cons v votes ih =>
    refine ih (h.holdVote ⟨v, hv v mem_cons_self, rfl⟩) ?_
    exact fun w hw => hv w (mem_cons_of_mem v hw)

/-- Casting a vote keeps a node sound, once the vote counts as cast. -/
theorem castVote (now height : ℕ) (hash : H) (b : Block H) (accept : Bool) :
    SoundNode g validators (sent ++ (n.castVote now height hash b accept).2)
      (n.castVote now height hash b accept).1.chain :=
  ((h.signVote now height hash b accept).mono (fun _ hv => mem_append_left _ hv)).holdVotes
    (fun _ hv => mem_append_right _ hv)

theorem maybeCastVote (now : ℕ) (hash : H) (height : ℕ) :
    SoundNode g validators (sent ++ (n.maybeCastVote now hash height).2)
      (n.maybeCastVote now hash height).1.chain := by
  have hnil : SoundNode g validators (sent ++ []) n.chain := by rwa [append_nil]
  unfold Node.maybeCastVote
  split
  · exact hnil
  · split
    · exact hnil
    · cases n.chain.db.getBlockByHash hash with
      | none => exact hnil
      | some b =>
        dsimp only
        cases n.chain.db.getBlockByHash b.parentHash with
        | none => exact hnil
        | some parent => exact h.castVote now height hash b _

/-- A vote from the network is held if it passes the checks. -/
theorem handleVote (now : ℕ) {v : Vote H} (hcast : n.checksVote v = true → Cast sent v) :
    SoundNode g validators (sent ++ (n.handleVote now v).2) (n.handleVote now v).1.chain := by
  unfold Node.handleVote
  split
  · rw [append_nil]
    exact h
  · rename_i hcheck
    have hadd := h.holdVote (hcast (not_not.mp hcheck))
    have hfin : SoundNode g validators sent
        (if (n.chain.db.getBlockByHash v.blockHash).isSome = true then
          (n.holdVote v).tryFinalize v.blockHash v.blockHeight else n.holdVote v).chain := by
      split
      · exact hadd.tryFinalize _ _
      · exact hadd
    dsimp only
    generalize (if (n.chain.db.getBlockByHash v.blockHash).isSome = true then
      (n.holdVote v).tryFinalize v.blockHash v.blockHeight else n.holdVote v) = m at hfin ⊢
    split
    · exact hfin.maybeCastVote now _ _
    · rw [append_nil]
      exact hfin

/-! ## Blocks -/

variable (hg : g.parentHash = 0)
include hg

variable (ex : BlockExecutor H X) (now : ℕ) (b : Block H)

theorem processPass (queue : List (Block H)) :
    SoundNode g validators sent (processPass ex now n queue).1.chain := by
  induction queue generalizing n with
  | nil => exact h
  | cons b queue ih =>
    have hb := h.importBlock hg ex now b
    unfold processPass
    generalize Node.importBlock ex now n b = r at hb ⊢
    obtain ⟨n', r⟩ := r
    cases r with
    | ok _ => exact ih (hb.tryFinalize _ _)
    | error e => cases e <;> exact ih hb

theorem processPendingBlocks :
    SoundNode g validators sent (processPendingBlocks ex now n).chain := by
  unfold Node.processPendingBlocks
  generalize n.pendingBlocks.length = fuel
  induction fuel generalizing n with
  | zero => exact h
  | succ fuel ih =>
    unfold processPending
    split
    · exact h
    · have hp := SoundNode.processPass (n := { n with pendingBlocks := [] }) h hg ex now
        n.pendingBlocks
      dsimp only
      split
      · exact hp
      · exact ih hp

theorem handleBlock : SoundNode g validators (sent ++ (handleBlock ex now n b).2)
      (handleBlock ex now n b).1.chain := by
  have hb := h.importBlock hg ex now b
  unfold Node.handleBlock
  generalize Node.importBlock ex now n b = r at hb ⊢
  obtain ⟨n', r⟩ := r
  cases r with
  | ok _ =>
    have hp := hb.processPendingBlocks hg ex now
    dsimp only
    split
    · exact (hp.castVote now _ _ b true).tryFinalize _ _
    · rw [append_nil]
      exact hp.tryFinalize _ _
  | error e =>
    cases e <;>
    · rw [append_nil]
      exact hb

theorem handleFetched : SoundNode g validators sent (handleFetched ex now n b).chain := by
  have hb := h.importBlock hg ex now b
  unfold Node.handleFetched
  generalize Node.importBlock ex now n b = r at hb ⊢
  obtain ⟨n', r⟩ := r
  cases r with
  | ok _ => exact hb.processPendingBlocks hg ex now
  | error e =>
    cases e with
    | invalidParent =>
      dsimp only
      split
      · exact hb
      · exact hb
    | _ => exact hb

theorem handleProduced : SoundNode g validators (sent ++ (handleProduced ex now n b).2)
      (handleProduced ex now n b).1.chain := by
  have hb : SoundNode g validators sent (storeProducedBlock ex now n.chain b).1 :=
    h.block hg ex (.storeProducedBlock now b) rfl
  unfold Node.handleProduced
  generalize storeProducedBlock ex now n.chain b = r at hb ⊢
  obtain ⟨c, r⟩ := r
  cases r with
  | ok _ => exact SoundNode.castVote (n := { n with chain := c }) hb now _ _ b true
  | error _ =>
    rw [append_nil]
    exact hb

end

/-- The finalized blocks of two sound nodes are on one branch, or 34% of the
validators accepted both. -/
theorem conflict {c' : Chain H X} (h : SoundNode g validators sent c)
    (h' : SoundNode g validators sent c') (hne : ¬ Ancestor c.finalized.2 c'.finalized.2)
    (hne' : ¬ Ancestor c'.finalized.2 c.finalized.2) :
    34 * validators.length ≤ 100 * (acceptors validators sent c.finalized.2 ∩
      acceptors validators sent c'.finalized.2).card := by
  -- the genesis block is below everything
  have hbelow : ∀ {c : Chain H X}, SoundNode g validators sent c →
      Ancestor g.hash c.finalized.2 := by
    intro c hc
    obtain ⟨canon, hk⟩ := hc.keeps
    obtain ⟨b, hb, hbx⟩ := hk.recorded
    rw [← hbx]
    exact hk.inv.linked.ancestor (Nat.zero_le _) hk.inv.genesis hb
  obtain hgen | hq := h.quorum
  · rw [hgen] at hne
    exact absurd (hbelow h') hne
  · obtain hgen' | hq' := h'.quorum
    · rw [hgen'] at hne'
      exact absurd (hbelow h) hne'
    · exact hq.inter hq'

end SoundNode

/-! ## The network -/

/-- What can happen at a node. A handler runs as a whole; since it awaits
between its sections, other tasks may also run in between, and so each section
is an event of its own too. -/
inductive NodeEvent (H : Type)
  | block (now : ℕ) (b : Block H)
  | fetched (now : ℕ) (b : Block H)
  | produced (now : ℕ) (b : Block H)
  | vote (now : ℕ) (v : Vote H)
  | importSection (now : ℕ) (b : Block H)
  | storeSection (now : ℕ) (b : Block H)
  | finalizeSection (hash : H) (height : ℕ)
  | signSection (now height : ℕ) (hash : H) (b : Block H) (accept : Bool)
  | holdSection (v : Vote H)

/-- The node after an event, and the votes it broadcasts. -/
def Node.handle (ex : BlockExecutor H X) (n : Node H X) : NodeEvent H → Node H X × List (Vote H)
  | .block now b => handleBlock ex now n b
  | .fetched now b => (handleFetched ex now n b, [])
  | .produced now b => handleProduced ex now n b
  | .vote now v => n.handleVote now v
  | .importSection now b => ((importBlock ex now n b).1, [])
  | .storeSection now b =>
    ({ n with chain := (storeProducedBlock ex now n.chain b).1 }, [])
  | .finalizeSection hash height => (n.tryFinalize hash height, [])
  | .signSection now height hash b accept => n.signVote now height hash b accept
  | .holdSection v => (n.holdVote v, [])

/-- **A network**: its nodes, and all the votes that were ever broadcast. -/
structure Network (ι H X : Type) where
  node : ι → Node H X
  sent : List (Vote H)

namespace Network

/-- An event at one node. Blocks and votes are delivered in any order, late,
repeatedly or never. -/
def step [DecidableEq ι] (ex : BlockExecutor H X) (net : Network ι H X)
    (ev : ι × NodeEvent H) : Network ι H X :=
  let r := (net.node ev.1).handle ex ev.2
  { node := update net.node ev.1 r.1, sent := net.sent ++ r.2 }

variable (net : Network ι H X) (ev : ι × NodeEvent H) (config : GenesisConfig)

/-- **Signatures are not forged**: a vote that passes the signature check of a
registered validator was cast, and so were the votes a node holds back. -/
def Unforged : Prop :=
  match ev.2 with
  | .vote _ v => (net.node ev.1).checksVote v = true → Cast net.sent v
  | .holdSection v => Cast net.sent v
  | _ => True

instance : Decidable (Unforged net ev) := by
  obtain ⟨i, event⟩ := ev
  cases event <;> dsimp only [Unforged] <;> infer_instance

/-- A network before anything happened: every node holds the genesis block and
the same registered validators. -/
def fresh (root : H) (crypto : ConsensusCrypto H) (validators : List ValidatorNode)
    (identity : ι → Option (Address × (H → Signature))) (cols : ι → X) : Network ι H X where
  node i :=
    { chain := initGenesis config
        { crypto := crypto, validators := validators, genesisSeed := none, finalizedHeight := 0,
          validatorKey := (identity i).map Prod.snd, address := (identity i).map Prod.fst,
          pendingVotes := fun _ => none, ownVotes := fun _ => none } (cols i) root
      pendingBlocks := [] }
  sent := []

/-- Every node is sound. -/
def Sound (g : Block H) (validators : List ValidatorNode) (net : Network ι H X) : Prop :=
  ∀ i, SoundNode g validators net.sent (net.node i).chain

theorem fresh_sound (root : H) (crypto : ConsensusCrypto H) (validators : List ValidatorNode)
    (identity : ι → Option (Address × (H → Signature))) (cols : ι → X) :
    Sound (config.genesisBlock root) validators
      (fresh config root crypto validators identity cols) := by
  intro i
  refine ⟨⟨_, initGenesis_inv config _ (cols i) root, ⟨_, rfl, rfl⟩, le_rfl,
    ⟨_, rfl, rfl⟩⟩, rfl, ?_, .inl rfl⟩
  intro hash votes hvotes
  cases hvotes

theorem Sound.step [DecidableEq ι] {ex : BlockExecutor H X} {g : Block H}
    {validators : List ValidatorNode} {net : Network ι H X} (h : Sound g validators net)
    (hg : g.parentHash = 0) {ev : ι × NodeEvent H} (hev : Unforged net ev) :
    Sound g validators (net.step ex ev) := by
  obtain ⟨i, ev⟩ := ev
  have hi : SoundNode g validators (net.sent ++ ((net.node i).handle ex ev).2)
      ((net.node i).handle ex ev).1.chain := by
    have hnil : ∀ {c : Chain H X}, SoundNode g validators net.sent c →
        SoundNode g validators (net.sent ++ []) c := by
      intro c hc
      rwa [append_nil]
    cases ev with
    | block now b => exact (h i).handleBlock hg ex now b
    | fetched now b => exact hnil ((h i).handleFetched hg ex now b)
    | produced now b => exact (h i).handleProduced hg ex now b
    | vote now v => exact (h i).handleVote now hev
    | importSection now b => exact hnil ((h i).importBlock hg ex now b)
    | storeSection now b => exact hnil ((h i).block hg ex (.storeProducedBlock now b) rfl)
    | finalizeSection hash height => exact hnil ((h i).tryFinalize hash height)
    | signSection now height hash b accept =>
      exact ((h i).signVote now height hash b accept).mono
        (fun _ hv => mem_append_left _ hv)
    | holdSection v => exact hnil ((h i).holdVote hev)
  intro j
  show SoundNode g validators (net.sent ++ _) (update net.node i _ j).chain
  by_cases hj : j = i
  · rw [hj, update_self]
    exact hi
  · rw [update_of_ne hj]
    exact (h j).mono (fun _ hv => mem_append_left _ hv)

/-- A vote that was broadcast stays broadcast. -/
theorem run_sent [DecidableEq ι] (ex : BlockExecutor H X) (net : Network ι H X)
    (events : List (ι × NodeEvent H)) {v : Vote H} (hv : v ∈ net.sent) :
    v ∈ (Run.run (step ex) net events).sent :=
  Run.invariant (P := fun net : Network ι H X => v ∈ net.sent) hv
    (fun _ _ hv => mem_append_left _ hv) events

/-- **Conditional agreement of finality.** In every run of a network without
forged votes, if one node records a finalized block and some node then or later
records one on another branch, at least 34% of the registered validators cast
accept votes for both. -/
theorem finality_agreement [DecidableEq ι] (ex : BlockExecutor H X) (config : GenesisConfig)
    (root : H) (crypto : ConsensusCrypto H) (validators : List ValidatorNode)
    (identity : ι → Option (Address × (H → Signature))) (cols : ι → X)
    (events later : List (ι × NodeEvent H)) (hunforged : Run.Along (step ex) Unforged
      (fresh config root crypto validators identity cols) (events ++ later))
    (i j : ι) {before after : Network ι H X}
    (hbefore : Run.run (step ex) (fresh config root crypto validators identity cols) events
      = before) (hafter : Run.run (step ex) before later = after)
    (hij : ¬ Ancestor (before.node i).chain.finalized.2 (after.node j).chain.finalized.2)
    (hji : ¬ Ancestor (after.node j).chain.finalized.2 (before.node i).chain.finalized.2) :
    34 * validators.length ≤ 100 *
      (acceptors validators after.sent (before.node i).chain.finalized.2 ∩
        acceptors validators after.sent (after.node j).chain.finalized.2).card := by
  obtain ⟨hev, hlater⟩ := Run.along_append.mp hunforged
  have hstep : ∀ (net : Network ι H X) ev, Sound (config.genesisBlock root) validators net →
      Unforged net ev → Sound (config.genesisBlock root) validators (step ex net ev) :=
    fun net ev h hev => h.step rfl hev
  have hsound : Sound (config.genesisBlock root) validators before := by
    rw [← hbefore]
    exact Run.invariant_along (fresh_sound config root crypto validators identity cols) hstep hev
  have hsound' : Sound (config.genesisBlock root) validators after := by
    rw [← hafter]
    rw [hbefore] at hlater
    exact Run.invariant_along hsound hstep hlater
  refine ((hsound i).mono ?_).conflict (hsound' j) hij hji
  intro v hv
  rw [← hafter]
  exact run_sent ex before later hv

/-! ## Two branches finalized -/

/-- Four validators, each with a key of its own. -/
def fourValidators : List ValidatorNode :=
  [1, 2, 3, 4].map (fun b => ⟨sampleAddress b, sampleKey b⟩)

/-- Node `i` runs the validator `i + 1`. -/
def fourIdentities (i : Fin 4) : Option (Address × (CodeName → Signature)) :=
  some (sampleAddress (UInt8.ofNat (i.val + 1)),
    fun _ => sampleSignature (UInt8.ofNat (i.val + 1)))

/-- Signatures are checked as in the sample runtime; the VRF proofs are right,
and the offset of the election is zero. -/
def fourCrypto : ConsensusCrypto CodeName :=
  ⟨fun _ _ _ => true, fun _ => 0, sampleRuntime.verifyHashSignature⟩

/-- Four nodes at their start. -/
def fourNodes : Network (Fin 4) CodeName (StateColumns CodeName) :=
  fresh testnet 0 fourCrypto fourValidators fourIdentities (fun _ => .empty CodeName)

/-- The block of validator 1 in its slot. -/
def leftBlock : Block CodeName :=
  (sampleBlock (.empty CodeName) (testnet.genesisBlock 0) (sampleAddress 1) 20000 []).2

/-- The block of validator 2 in the next slot, on the genesis block as well. -/
def rightParent : StateColumns CodeName × Block CodeName :=
  sampleBlock (.empty CodeName) (testnet.genesisBlock 0) (sampleAddress 2) 25000 []

/-- Its block in its next slot. -/
def rightBlock : Block CodeName :=
  (sampleBlock rightParent.1 rightParent.2 (sampleAddress 2) 45000 []).2

/-- The accept vote of the validator of node `i`. -/
def acceptVote (i : Fin 4) (b : Block CodeName) : Vote CodeName where
  blockHash := b.hash
  blockHeight := b.number
  voter := sampleAddress (UInt8.ofNat (i.val + 1))
  decision := .accept
  rejectReason := none
  timestamp := 50000
  signature := sampleSignature (UInt8.ofNat (i.val + 1))

/-- Nodes 0, 2 and 3 vote for the left block, and node 0 hears of it. -/
def leftEvents : List (Fin 4 × NodeEvent CodeName) :=
  [(0, .produced 50000 leftBlock), (2, .block 50000 leftBlock), (3, .block 50000 leftBlock),
    (0, .vote 50000 (acceptVote 2 leftBlock)), (0, .vote 50000 (acceptVote 3 leftBlock))]

/-- Node 1, to which the left block is late, builds the right branch. Nodes 2
and 3 follow the longer branch, vote at its height, and node 1 hears of it. -/
def rightEvents : List (Fin 4 × NodeEvent CodeName) :=
  [(1, .produced 50000 rightParent.2), (1, .produced 50000 rightBlock),
    (2, .block 50000 rightParent.2), (2, .block 50000 rightBlock),
    (3, .block 50000 rightParent.2), (3, .block 50000 rightBlock),
    (1, .vote 50000 (acceptVote 2 rightBlock)), (1, .vote 50000 (acceptVote 3 rightBlock))]

/-- The network when node 0 has finalized the left block. -/
def leftNet : Network (Fin 4) CodeName (StateColumns CodeName) :=
  Run.run (step sampleConfig.blockExecutor) fourNodes leftEvents

/-- The network when node 1 has finalized the right block. -/
def rightNet : Network (Fin 4) CodeName (StateColumns CodeName) :=
  Run.run (step sampleConfig.blockExecutor) leftNet rightEvents

theorem fourNodes_unforged :
    Run.Along (step sampleConfig.blockExecutor) Unforged fourNodes (leftEvents ++ rightEvents) := by
  decide +kernel

theorem leftNet_finalized : (leftNet.node 0).chain.finalized = (1, leftBlock.hash) := by
  decide +kernel

theorem rightNet_finalized : (rightNet.node 1).chain.finalized = (2, rightBlock.hash) := by
  decide +kernel

/-- A block that is not the genesis block has no place below it. -/
theorem not_ancestor_genesis {x : CodeName} (hx : x ≠ (testnet.genesisBlock 0).hash)
    (h0 : x ≠ 0) : ¬ Ancestor x (testnet.genesisBlock (0 : CodeName)).hash := by
  intro h
  obtain h | h := h.eq_or_parent
  · exact hx h
  · exact h0 h.eq_zero

theorem not_ancestor_left_right : ¬ Ancestor leftBlock.hash rightBlock.hash := by
  have hparent : rightBlock.parentHash = rightParent.2.hash := by decide +kernel
  have hgenesis : rightParent.2.parentHash = (testnet.genesisBlock 0).hash := by
    decide +kernel
  intro h
  obtain h | h := h.eq_or_parent
  · exact absurd h (by decide +kernel)
  rw [hparent] at h
  obtain h | h := h.eq_or_parent
  · exact absurd h (by decide +kernel)
  rw [hgenesis] at h
  exact not_ancestor_genesis (by decide +kernel) leftBlock.hash_ne_zero h

theorem not_ancestor_right_left : ¬ Ancestor rightBlock.hash leftBlock.hash := by
  have hgenesis : leftBlock.parentHash = (testnet.genesisBlock 0).hash := by decide +kernel
  intro h
  obtain h | h := h.eq_or_parent
  · exact absurd h (by decide +kernel)
  rw [hgenesis] at h
  exact not_ancestor_genesis (by decide +kernel) rightBlock.hash_ne_zero h

/-- In that run, a third of the validators accepted both finalized blocks. -/
theorem finality_agreement_four :
    34 * fourValidators.length ≤ 100 *
      (acceptors fourValidators rightNet.sent leftBlock.hash ∩
        acceptors fourValidators rightNet.sent rightBlock.hash).card := by
  have h := finality_agreement sampleConfig.blockExecutor testnet 0 fourCrypto fourValidators
    fourIdentities (fun _ => .empty CodeName) leftEvents rightEvents fourNodes_unforged 0 1
    (by unfold leftNet fourNodes; rfl : _ = leftNet) (by unfold rightNet; rfl : _ = rightNet)
  simp only [leftNet_finalized, rightNet_finalized] at h
  exact h not_ancestor_left_right not_ancestor_right_left

/-- **Two nodes finalize blocks of different branches**, with honest validators
and no forged vote. -/
theorem conflicting_finality :
    Run.Along (step sampleConfig.blockExecutor) Unforged fourNodes (leftEvents ++ rightEvents) ∧
      (leftNet.node 0).chain.finalized = (1, leftBlock.hash) ∧
      (rightNet.node 1).chain.finalized = (2, rightBlock.hash) ∧
      ¬ Ancestor leftBlock.hash rightBlock.hash ∧ ¬ Ancestor rightBlock.hash leftBlock.hash :=
  ⟨fourNodes_unforged, leftNet_finalized, rightNet_finalized, not_ancestor_left_right,
    not_ancestor_right_left⟩

end Network

end Qfc
