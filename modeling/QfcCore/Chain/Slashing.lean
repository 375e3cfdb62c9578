import QfcCore.Chain.TxIndex
import QfcCore.Consensus.Registry

/-!
# Double-sign processing at import

`import_block` looks for a double sign before it looks at anything else: a block
that is not stored yet is compared with the cached blocks of its height, a
conflict slashes the producer, and the block is cached whatever becomes of it.
Neither block's signature is verified, and the evidence row that the slash
writes is never read. So a peer that makes up two headers has any validator
slashed, and a block that is rejected slashes again each time it is delivered.

What the processing is meant to guarantee holds of the runs in which the
conflicts are real and new: where a block conflicts with a cached one, both
carry their producer's signature and no evidence is on record for the height.
-/

namespace Qfc

open Function Registry Option

/-- A node's chain with what its engine has observed. The registered validators
of the engine are those of the registry. -/
structure ObservedChain (H X : Type) where
  chain : Chain H X
  registry : Registry H

namespace ObservedChain

variable {H X : Type} [HashScheme H]

/-- Whether a block is stored already, canonical or on a side branch. -/
def known (s : ObservedChain H X) (b : Block H) : Bool :=
  (s.chain.db.blocksByHash b.hash).isSome || (s.chain.db.blockHashIndex b.hash).isSome

/-- The double-sign part of `import_block`; `none` is the panic of a slash. -/
def observe (s : ObservedChain H X) (now : ℕ) (b : Block H) : Option (Registry H) :=
  let processed := match s.registry.checkDoubleSign now b with
    | none => some s.registry
    | some ev => s.registry.processDoubleSignEvidence ev
  processed.map (fun r => r.cacheBlock s.chain.engine.finalizedHeight b)

/-- Whether a block passes the checks that come before its inference proofs are
scored. -/
def passes (ex : BlockExecutor H X) (now : ℕ) (c : Chain H X) (b : Block H) : Bool :=
  match c.db.getBlockByHash b.parentHash with
  | none => false
  | some parent =>
    (c.engine.validateBlock now b parent).isOk &&
      match (Chain.executeBlock ex c.exec c.db.blocksByHash b parent.stateRoot).2 with
      | .error _ => false
      | .ok o => o.stateRoot = b.stateRoot && o.gasUsed = b.header.gasUsed

/-- The inference scores of a block's proofs. `readProof` reads a proof's
validator and its estimate of the work. -/
def scoreProofs (readProof : InferenceProof → Address × UInt64) (r : Registry H)
    (proofs : List InferenceProof) : Registry H :=
  proofs.foldl (fun r p => r.updateInferenceScore (readProof p).1 (readProof p).2 1) r

/-- The blocks that an import of `b` made canonical, oldest first. The head
moves where the block extends it and where the node reorganises to the branch of
the block, and nowhere else. -/
def adopted (c c' : Chain H X) (b : Block H) : List (Block H) :=
  if c'.head = c.head then []
  else if c.head.map SealedBlock.hash = some b.parentHash then [b]
  else match Chain.collectBranch (c.db.applyOp (.putBlock b.hash b)) (b.number + 1) b.hash b with
    | .ok (branch, _) => branch.reverse.map Prod.snd
    | .error _ => []

/-- The production of new canonical blocks, put on their producers' records. -/
def recordProduced (now : ℕ) (r : Registry H) (blocks : List (Block H)) : Registry H :=
  blocks.foldl (fun r b => r.recordBlockProduced (UInt64.ofNat now) b.header.producer) r

variable (ex : BlockExecutor H X) (readProof : InferenceProof → Address × UInt64)
  (s : ObservedChain H X)

/-- `import_block` with its effect on the registry: a double sign, the scores of
the inference proofs and the blocks produced. -/
def importBlock (now : ℕ) (b : Block H) : ObservedChain H X × Except (ChainError H) H :=
  if s.known b then (s, .error .blockAlreadyKnown)
  else
    match s.observe now b with
    | none => (s, .error .panicked)
    | some r =>
      let c := { s.chain with engine := r.engineOn s.chain.engine }
      let (c', result) := Chain.importBlock ex now c b
      let scored := if passes ex now c b then scoreProofs readProof r b.inferenceProofs else r
      (⟨c', recordProduced now scored (adopted c c' b)⟩, result)

/-- The delivery of a block at a time. -/
def step (d : ℕ × Block H) : ObservedChain H X :=
  (importBlock ex readProof s d.1 d.2).1

/-- The chain after deliveries. -/
abbrev run (ds : List (ℕ × Block H)) : ObservedChain H X :=
  Run.run (step ex readProof) s ds

/-- The validator and the height for which a delivery slashes. -/
def slashing (d : ℕ × Block H) : Option (Address × ℕ) :=
  if s.known d.2 then none
  else (s.registry.checkDoubleSign d.1 d.2).bind (fun ev =>
    ((s.registry.find ev.validator).bind doubleSigned).map
      (fun _ => (ev.validator, ev.height)))

/-- What double-sign processing takes from a validator: its stakes, its
reputation and its freedom. -/
def standingOf (v : ValidatorRecord) : U256 × U256 × UInt32 × Bool × UInt64 :=
  (v.stake, v.delegatedStake, v.reputation, v.isJailed, v.jailUntil)

/-- The standing of a registered validator. -/
def standing (validator : Address) : Option (U256 × U256 × UInt32 × Bool × UInt64) :=
  (s.registry.find validator).map standingOf

end ObservedChain

/-! ## What the mutators do to one record -/

variable {a : Address}

namespace Registry

variable {H : Type} {f : ValidatorRecord → ValidatorRecord}

/-- The records after a write: that of the address is what was written, and
every other one is as before. -/
theorem find_update {r : Registry H} (haddress : ∀ v, r.find a = some v → (f v).address = v.address)
    (validator : Address) :
    (r.update a f).find validator
      = (r.find validator).map (fun v => if validator = a then f v else v) := by
  have key : ∀ l : List ValidatorRecord,
      (∀ v, l.find? (fun v => v.address = a) = some v → (f v).address = v.address) →
      (l.replaceF (fun v => if v.address = a then some (f v) else none)).find?
          (fun v => v.address = validator)
        = (l.find? (fun v => v.address = validator)).map
            (fun v => if validator = a then f v else v) := by
    intro l hl
    induction l with
    | nil => rfl
    | cons v l ih =>
      by_cases hv : v.address = a
      · have hf : (f v).address = a := (hl v (by simp [hv])).trans hv
        by_cases ha : validator = a
        · simp [hv, hf, ha]
        · simp [hv, hf, ha, Ne.symm ha]
      · have hih := ih (fun w hw => hl w (by simp [hv, hw]))
        by_cases hw : v.address = validator
        · have ha : validator ≠ a := fun h => hv (hw.trans h)
          simp [hw, ha]
        · simp [hv, hw, hih]
  exact key r.records haddress

/-- What double-sign processing does: the row of the evidence is written,
rows are never removed, and no record is written but that of the validator,
if it has one. -/
theorem processDoubleSignEvidence_ok {r r' : Registry H} {ev : DoubleSignEvidence H}
    (h : r.processDoubleSignEvidence ev = some r') :
    r'.blockCache = r.blockCache ∧ r'.evidence ev.height ev.validator = some ev ∧
      (∀ n a, (r.evidence n a).isSome → (r'.evidence n a).isSome) ∧
      (∀ a, a ≠ ev.validator → r'.find a = r.find a) := by
  obtain ⟨u, hu, rfl⟩ := map_eq_some_iff.mp h
  have hu' : u.blockCache = r.blockCache ∧ u.evidence = r.evidence ∧
      ∀ a, a ≠ ev.validator → u.find a = r.find a := by
    obtain ⟨-, rfl⟩ | ⟨v, v', hv, hv', rfl⟩ := replace_cases hu
    · exact ⟨rfl, rfl, fun _ _ => rfl⟩
    · refine ⟨rfl, rfl, fun a ha => ?_⟩
      rw [find_update]
      · simp [ha]
      · intro w hw
        rw [hv] at hw
        cases hw
        exact congrArg ValidatorNode.address (doubleSigned_node hv')
  refine ⟨hu'.1, by simp, ?_, hu'.2.2⟩
  intro n a ha
  rw [← hu'.2.1] at ha
  by_cases hn : n = ev.height
  · by_cases hav : a = ev.validator
    · simp [hn, hav]
    · simpa [hn, hav] using hn ▸ ha
  · simpa [hn] using ha

end Registry

namespace ObservedChain

variable {H X : Type} [HashScheme H] {ex : BlockExecutor H X}
  {readProof : InferenceProof → Address × UInt64}

/-! ## One delivery -/

/-- Two registries with the same validators and the same observations. -/
structure SameObserved (r r' : Registry H) : Prop where
  nodes : r'.nodes = r.nodes
  blockCache : r'.blockCache = r.blockCache
  evidence : r'.evidence = r.evidence

omit [HashScheme H] in
/-- Writing records one after the other observes nothing. -/
theorem SameObserved.foldl {α : Type} {g : Registry H → α → Registry H}
    (hg : ∀ r x, SameObserved r (g r x)) (r : Registry H) (l : List α) :
    SameObserved r (l.foldl g r) := by
  induction l generalizing r with
  | nil => exact ⟨rfl, rfl, rfl⟩
  | cons x l ih =>
    obtain ⟨hnodes, hcache, hevidence⟩ := ih (g r x)
    obtain ⟨hnodes', hcache', hevidence'⟩ := hg r x
    exact ⟨hnodes.trans hnodes', hcache.trans hcache', hevidence.trans hevidence'⟩

omit [HashScheme H] in
theorem sameObserved_scoreProofs (readProof : InferenceProof → Address × UInt64) (r : Registry H)
    (proofs : List InferenceProof) : SameObserved r (scoreProofs readProof r proofs) := by
  refine SameObserved.foldl (fun r p => ?_) r proofs
  exact ⟨nodes_update (fun _ _ => rfl), rfl, rfl⟩

omit [HashScheme H] in
theorem sameObserved_recordProduced (now : ℕ) (r : Registry H) (blocks : List (Block H)) :
    SameObserved r (recordProduced now r blocks) := by
  refine SameObserved.foldl (fun r b => ?_) r blocks
  exact ⟨nodes_update (fun _ _ => rfl), rfl, rfl⟩

/-- **What a delivery does to the registry.** -/
structure Delivery (s : ObservedChain H X) (d : ℕ × Block H) (r : Registry H) : Prop where
  nodes : r.nodes = s.registry.nodes
  /-- Every cached block was cached before or is the delivered one. -/
  cached : ∀ n record, record ∈ r.blockCache n → record ∈ s.registry.blockCache n ∨
    (n = d.2.number ∧ record.hash = d.2.hash)
  /-- No evidence is lost. -/
  evidence : ∀ n a, (s.registry.evidence n a).isSome → (r.evidence n a).isSome
  /-- A slash is put on record. -/
  recorded : ∀ a n, slashing s d = some (a, n) → (r.evidence n a).isSome

/-- Caching a block adds it to its height, at most. -/
theorem mem_cacheBlock {r : Registry H} {finalizedHeight n : ℕ} {b : Block H}
    {record : BlockRecord H} (h : record ∈ (r.cacheBlock finalizedHeight b).blockCache n) :
    record ∈ r.blockCache n ∨ (n = b.number ∧ record.hash = b.hash) := by
  have hadded : ∀ m, record ∈ update r.blockCache b.number
      (r.blockCache b.number ++ [⟨b.hash, b.header.producer, b.signature⟩]) m →
      record ∈ r.blockCache m ∨ (m = b.number ∧ record.hash = b.hash) := by
    intro m hm
    by_cases hmb : m = b.number
    · subst hmb
      rw [update_self] at hm
      obtain hm | hm := List.mem_append.mp hm
      · exact .inl hm
      · obtain rfl := List.mem_singleton.mp hm
        exact .inr ⟨rfl, rfl⟩
    · rw [update_of_ne hmb] at hm
      exact .inl hm
  have hkept : ∀ m, record ∈ (if CACHE_DEPTH < finalizedHeight ∧ m < finalizedHeight - CACHE_DEPTH
      then [] else update r.blockCache b.number
        (r.blockCache b.number ++ [⟨b.hash, b.header.producer, b.signature⟩]) m) →
      record ∈ r.blockCache m ∨ (m = b.number ∧ record.hash = b.hash) := by
    intro m hm
    split at hm
    · exact absurd hm List.not_mem_nil
    · exact hadded m hm
  unfold cacheBlock at h
  dsimp only at h
  by_cases hn : n = b.number
  · rw [hn, update_self] at h
    rw [hn]
    exact hkept _ (List.mem_of_mem_take h)
  · rw [update_of_ne hn] at h
    exact hkept n h

variable {s : ObservedChain H X} {d : ℕ × Block H}

/-- Nothing happens to the registry. -/
theorem Delivery.unchanged (hnone : slashing s d = none) : Delivery s d s.registry where
  nodes := rfl
  cached _ _ h := .inl h
  evidence _ _ h := h
  recorded a n h := by
    rw [hnone] at h
    cases h

theorem Delivery.sameObserved {r r' : Registry H} (h : Delivery s d r) (ho : SameObserved r r') :
    Delivery s d r' := by
  constructor
  · rw [ho.nodes, h.nodes]
  · rw [ho.blockCache]
    exact h.cached
  · rw [ho.evidence]
    exact h.evidence
  · rw [ho.evidence]
    exact h.recorded

theorem slashing_of_check (hnew : s.known d.2 = false) {ev : DoubleSignEvidence H}
    (hcheck : s.registry.checkDoubleSign d.1 d.2 = some ev) :
    slashing s d = ((s.registry.find ev.validator).bind doubleSigned).map
      (fun _ => (ev.validator, ev.height)) := by
  simp [slashing, hnew, hcheck]

/-- Where the double-sign part of an import goes through. -/
theorem observe_delivery (hnew : s.known d.2 = false) {r : Registry H}
    (h : s.observe d.1 d.2 = some r) : Delivery s d r := by
  obtain ⟨u, hu, rfl⟩ := map_eq_some_iff.mp h
  -- caching the block changes the cache only, so the rest is about `u`
  suffices hd : Delivery s d u by
    refine ⟨hd.nodes, fun n record hrecord => ?_, hd.evidence, hd.recorded⟩
    obtain hold | hthis := mem_cacheBlock hrecord
    · exact hd.cached n record hold
    · exact .inr hthis
  cases hcheck : s.registry.checkDoubleSign d.1 d.2 with
  | none =>
    rw [hcheck] at hu
    cases hu
    exact .unchanged (by simp [slashing, hnew, hcheck])
  | some ev =>
    rw [hcheck] at hu
    obtain ⟨hcache, hrow, hkept, -⟩ := processDoubleSignEvidence_ok hu
    refine ⟨nodes_processDoubleSignEvidence hu, ?_, hkept, ?_⟩
    · rw [hcache]
      exact fun _ _ hrecord => .inl hrecord
    · intro a n ha
      rw [slashing_of_check hnew hcheck] at ha
      obtain ⟨v, -, hv⟩ := map_eq_some_iff.mp ha
      cases hv
      rw [hrow]
      rfl

theorem step_delivery (s : ObservedChain H X) (d : ℕ × Block H) :
    Delivery s d (step ex readProof s d).registry := by
  unfold step importBlock
  cases hnew : s.known d.2 with
  | true => exact .unchanged (by simp [slashing, hnew])
  | false =>
    rw [if_neg Bool.false_ne_true]
    cases hobs : s.observe d.1 d.2 with
    | some r =>
      have hd := observe_delivery hnew hobs
      dsimp only
      refine Delivery.sameObserved ?_ (sameObserved_recordProduced _ _ _)
      split
      · exact hd.sameObserved (sameObserved_scoreProofs _ _ _)
      · exact hd
    | none =>
      -- the slash panicked, so the validator has a record and nothing was written
      refine .unchanged ?_
      have hprocess := map_eq_none_iff.mp hobs
      cases hcheck : s.registry.checkDoubleSign d.1 d.2 with
      | none =>
        rw [hcheck] at hprocess
        cases hprocess
      | some ev =>
        rw [hcheck] at hprocess
        have hreplace := map_eq_none_iff.mp hprocess
        unfold replace at hreplace
        cases hv : s.registry.find ev.validator with
        | none =>
          rw [hv] at hreplace
          cases hreplace
        | some v =>
          rw [hv] at hreplace
          simp [slashing, hnew, hcheck, hv, map_eq_none_iff.mp hreplace]

/-! ## Runs -/

/-- **The conflicts a delivery meets are real and new.** If a block that is not
stored yet conflicts with a cached one, and its producer is registered, then
both carry a valid signature of the producer's key and no evidence is on record
for the producer at this height. -/
def Genuine (crypto : ConsensusCrypto H) (s : ObservedChain H X) (d : ℕ × Block H) : Prop :=
  s.known d.2 = false → ∀ v ∈ s.registry.find d.2.header.producer,
    ∀ existing ∈ s.registry.blockCache d.2.number, conflicts d.2 existing = true →
      crypto.verifyHashSignature v.publicKey existing.hash existing.signature = true ∧
      crypto.verifyHashSignature v.publicKey d.2.hash d.2.signature = true ∧
      s.registry.evidence d.2.number d.2.header.producer = none

/-- Every cached block has a header of its height. -/
def CacheSound (r : Registry H) : Prop :=
  ∀ n, ∀ record ∈ r.blockCache n, ∃ header : BlockHeader H,
    header.number = n ∧ record.hash = Digest.digest header

variable {n : ℕ}

section Sound

variable {crypto : ConsensusCrypto H} {signed : PublicKey → H → Prop}

theorem CacheSound.step (hcache : CacheSound s.registry) (d : ℕ × Block H) :
    CacheSound (step ex readProof s d).registry := by
  intro n record hrecord
  obtain hold | ⟨rfl, hhash⟩ := (step_delivery s d).cached n record hrecord
  · exact hcache n record hold
  · exact ⟨d.2.header, rfl, hhash⟩

variable {ds : List (ℕ × Block H)}

end Sound

instance (crypto : ConsensusCrypto H) (s : ObservedChain H X) (d : ℕ × Block H) :
    Decidable (Genuine crypto s d) := by
  unfold Genuine
  infer_instance

end ObservedChain

end Qfc
