import QfcCore.Trie.CanonicalRoot

/-!
# Merkle proofs

A proof of a key is the serialised nodes on the way to it; `verify` walks them
from the root, with the hash of each node checked against the one its parent
names. A verifier reads whatever bytes it is given: a node on the wire may have
a key whose bytes are not nibbles, which `from_nibbles` masks.

Against the root of a trie in normal form only its own nodes pass the hash
checks, one after the other from the root, so that an accepted proof has the
value of the trie (`verifyPath_sound`); and the nodes that `get_proof` collects
are accepted (`collectProof_complete`).
-/

namespace Qfc

open PathMap List

/-! ## Nodes on the wire -/

/-- A node as it is serialised: a key is a string of bytes. -/
inductive WireNode (H V : Type)
  | empty
  | leaf (key : List UInt8) (value : V)
  | extension (key : List UInt8) (child : H)
  | branch (children : Nibble → Option H) (value : Option V)

/-- `NibbleSlice::from_nibbles`: the low halves of the bytes. -/
def fromNibbles (key : List UInt8) : List Nibble := key.map (fun b => Nibble.ofNat b.toNat)

/-- `NibbleSlice::to_nibbles`: one byte for each nibble. -/
def toNibbles (key : List Nibble) : List UInt8 := key.map (fun i => UInt8.ofNat i.val)

theorem Nibble.toNat_ofNat (i : Nibble) : (UInt8.ofNat i.val).toNat = i.val := by
  have hi := i.isLt
  rw [UInt8.toNat_ofNat']
  omega

@[simp] theorem fromNibbles_toNibbles (key : List Nibble) : fromNibbles (toNibbles key) = key := by
  unfold fromNibbles toNibbles
  rw [map_map]
  refine (map_congr_left fun i _ => ?_).trans (map_id key)
  show Nibble.ofNat (UInt8.ofNat i.val).toNat = i
  rw [Nibble.toNat_ofNat]
  exact Fin.ofNat_val_eq_self i

/-- A node of the trie, as it is serialised. -/
def TrieNode.toWire {H V : Type} : TrieNode H V → WireNode H V
  | .empty => .empty
  | .leaf key value => .leaf (toNibbles key) value
  | .extension key child => .extension (toNibbles key) child
  | .branch children value => .branch children value

variable {B H V : Type} [Zero H] [Digest H (TrieNode H V)]

/-- **The serialisation and the hash of nodes**: bytes `B` that can be read
back, and a collision-free hash of them which is the one of the trie. -/
class WireFormat (B H V : Type) [Zero H] [Digest H (TrieNode H V)] where
  /-- `TrieNode::to_bytes`. -/
  toBytes : WireNode H V → B
  /-- `TrieNode::from_bytes`. -/
  fromBytes : B → Option (WireNode H V)
  fromBytes_toBytes : ∀ node, fromBytes (toBytes node) = some node
  /-- `blake3_hash`. -/
  blake3 : B → H
  blake3_injective : Function.Injective blake3
  blake3_toWire : ∀ node : TrieNode H V, blake3 (toBytes node.toWire) = Digest.digest node

variable [WireFormat B H V]

/-- `TrieNode::hash` of a node from the wire. -/
def WireNode.hash (B : Type) [WireFormat B H V] : WireNode H V → H
  | .empty => 0
  | node => WireFormat.blake3 (V := V) (WireFormat.toBytes (B := B) node)

theorem WireFormat.toBytes_injective :
    Function.Injective (WireFormat.toBytes : WireNode H V → B) := by
  intro node node' h
  have hread := congrArg (WireFormat.fromBytes (H := H) (V := V)) h
  rw [fromBytes_toBytes, fromBytes_toBytes] at hread
  exact Option.some.inj hread

/-- Only a node of the trie itself has its hash. -/
theorem WireNode.eq_toWire {wire : WireNode H V} {node : TrieNode H V} (hne : node.hash ≠ 0)
    (h : wire.hash B = node.hash) : wire = node.toWire := by
  have hdigest : node.hash = WireFormat.blake3 (V := V) (WireFormat.toBytes (B := B) node.toWire) := by
    rw [WireFormat.blake3_toWire]
    cases node with
    | empty => exact absurd rfl hne
    | leaf | extension | branch => rfl
  have hwire : wire.hash B = WireFormat.blake3 (V := V) (WireFormat.toBytes (B := B) wire) := by
    cases wire with
    | empty => exact absurd h.symm hne
    | leaf | extension | branch => rfl
  rw [hwire, hdigest] at h
  exact WireFormat.toBytes_injective (WireFormat.blake3_injective h)

/-- `to_bytes` of a node of the trie. -/
def TrieNode.toBytes (B : Type) [WireFormat B H V] (node : TrieNode H V) : B :=
  WireFormat.toBytes node.toWire

theorem TrieNode.fromBytes_toBytes (node : TrieNode H V) :
    WireFormat.fromBytes (node.toBytes B) = some node.toWire :=
  WireFormat.fromBytes_toBytes node.toWire

theorem TrieNode.hash_toWire (node : TrieNode H V) : node.toWire.hash B = node.hash := by
  cases node with
  | empty => rfl
  | leaf key value => exact WireFormat.blake3_toWire (.leaf key value)
  | extension key child => exact WireFormat.blake3_toWire (.extension key child)
  | branch children value => exact WireFormat.blake3_toWire (.branch children value)

/-! ## Proofs -/

/-- A proof of the value at a key, or of its absence. -/
structure MerkleProof (B V : Type) where
  key : List UInt8
  value : Option V
  /-- The nodes from the root, serialised. -/
  nodes : List B

/-- What can go wrong with a proof: bytes that are not a node. -/
inductive ProofError
  | serialization
deriving DecidableEq

namespace MerkleProof

variable [DecidableEq H] [DecidableEq V]

/-- `verify_path`, over the nodes that are left. -/
def verifyPath (value : Option V) : List B → H → List Nibble → Except ProofError Bool
  | [], _, _ => .ok false
  | bytes :: nodes, expectedHash, key =>
    match (WireFormat.fromBytes bytes : Option (WireNode H V)) with
    | none => .error .serialization
    | some node =>
      if node.hash B ≠ expectedHash then .ok false
      else
        match node with
        | .empty => .ok value.isNone
        | .leaf leafKey leafValue =>
          .ok (if key = fromNibbles leafKey then value = some leafValue else value.isNone)
        | .extension extKey child =>
          if fromNibbles extKey <+: key then
            verifyPath value nodes child (key.drop (fromNibbles extKey).length)
          else .ok value.isNone
        | .branch children branchValue =>
          match key with
          | [] => .ok (value = branchValue)
          | i :: rest =>
            match children i with
            | some child => verifyPath value nodes child rest
            | none => .ok value.isNone

/-- Follows the proof from the root. -/
def verify (p : MerkleProof B V) (root : H) : Except ProofError Bool :=
  if root = 0 then .ok p.value.isNone
  else
    match p.nodes with
    | [] => .ok false
    | nodes => verifyPath p.value nodes root (nibblesOfBytes p.key)

end MerkleProof

namespace Trie

variable [DecidableEq H]

/-- `collect_proof`: the value at a key, and the nodes on the way. -/
def collectProof (B : Type) [WireFormat B H V] (db dirty : NodeColumn H V) :
    ℕ → H → List Nibble → Except (TrieError H) (Option V × List B)
  | 0, _, _ => .error .tooDeep
  | fuel + 1, h, key =>
    if h = 0 then .ok (none, [])
    else do
      let node ← getNode db dirty h
      let (value, nodes) ←
        match node with
        | .empty => .ok (none, [])
        | .leaf leafKey value => .ok (if key = leafKey then some value else none, [])
        | .extension extKey child =>
          if extKey <+: key then
            collectProof B db dirty fuel child (key.drop extKey.length)
          else .ok (none, [])
        | .branch children value =>
          match key with
          | [] => .ok (value, [])
          | i :: rest =>
            match children i with
            | some child => collectProof B db dirty fuel child rest
            | none => .ok (none, [])
      return (value, node.toBytes B :: nodes)

/-- The nodes from the root to a key. -/
def getProof (B : Type) [WireFormat B H V] (db : NodeColumn H V) (t : Trie H V)
    (key : List UInt8) : Except (TrieError H) (MerkleProof B V) := do
  let nibbles := nibblesOfBytes key
  let (value, nodes) ← collectProof B db t.dirty (nibbles.length + 1) t.root nibbles
  return ⟨key, value, nodes⟩

end Trie

/-! ## A path through nodes of the trie -/

section Path

variable [DecidableEq H] [DecidableEq V]

namespace MerkleProof

variable {value : Option V} {bytes : B} {nodes : List B} {key : List Nibble}

section

variable {node : TrieNode H V} {child : H} {children : Nibble → Option H}
  (hread : WireFormat.fromBytes bytes = some node.toWire)
include hread

theorem verifyPath_leaf {leafKey : List Nibble} {leafValue : V}
    (hnode : node = .leaf leafKey leafValue) :
    verifyPath value (bytes :: nodes) node.hash key
      = .ok (if key = leafKey then value = some leafValue else value.isNone) := by
  rw [verifyPath, hread]
  dsimp only
  rw [if_neg (not_not.mpr (TrieNode.hash_toWire _)), hnode]
  simp only [TrieNode.toWire, fromNibbles_toNibbles]

theorem verifyPath_extension {extKey : List Nibble} (hnode : node = .extension extKey child) :
    verifyPath value (bytes :: nodes) node.hash key
      = if extKey <+: key then verifyPath value nodes child (key.drop extKey.length)
        else .ok value.isNone := by
  rw [verifyPath, hread]
  dsimp only
  rw [if_neg (not_not.mpr (TrieNode.hash_toWire _)), hnode]
  simp only [TrieNode.toWire, fromNibbles_toNibbles]

theorem verifyPath_branch {branchValue : Option V} (hnode : node = .branch children branchValue) :
    verifyPath value (bytes :: nodes) node.hash key
      = match key with
        | [] => .ok (value = branchValue)
        | i :: rest =>
          match children i with
          | some child => verifyPath value nodes child rest
          | none => .ok value.isNone := by
  rw [verifyPath, hread]
  dsimp only
  rw [if_neg (not_not.mpr (TrieNode.hash_toWire _)), hnode]
  rfl

end

/-- What the hash check leaves: the walk goes on only from the node of the
trie. -/
theorem verifyPath_node {node : TrieNode H V} (hne : node.hash ≠ 0)
    (h : verifyPath value nodes node.hash key = .ok true) :
    ∃ bytes rest, nodes = bytes :: rest ∧
      (WireFormat.fromBytes bytes : Option (WireNode H V)) = some node.toWire := by
  cases nodes with
  | nil => cases h
  | cons bytes rest =>
    refine ⟨bytes, rest, rfl, ?_⟩
    rw [verifyPath] at h
    cases hread : (WireFormat.fromBytes bytes : Option (WireNode H V)) with
    | none => rw [hread] at h; cases h
    | some wire =>
      rw [hread] at h
      by_cases hhash : wire.hash B = node.hash
      · rw [WireNode.eq_toWire hne hhash]
      · simp only [ne_eq, hhash, not_false_eq_true, if_true] at h
        cases h

end MerkleProof

variable {f : List Nibble → Option V} {key : List Nibble} {look db : NodeColumn H V}

/-- **An accepted path ends in the value of the trie**, whatever its nodes. -/
theorem Canonical.verifyPath_sound (hs : SoundColumn look) {h : H} (hh : Canonical look h f)
    {value : Option V} {nodes : List B} (hok : MerkleProof.verifyPath value nodes h key = .ok true) :
    value = f key := by
  induction hh generalizing nodes key with
  | @leaf h leafKey leafValue h0 hl =>
    obtain rfl := (hs _ _ hl).2
    obtain ⟨bytes, rest, rfl, hread⟩ := MerkleProof.verifyPath_node h0 hok
    rw [MerkleProof.verifyPath_leaf hread rfl] at hok
    rw [single_apply]
    by_cases hkey : key = leafKey
    · simpa [hkey] using hok
    · simpa [hkey] using hok
  | @extension h child ext f h0 hl hk _ _ ih =>
    obtain rfl := (hs _ _ hl).2
    obtain ⟨bytes, rest, rfl, hread⟩ := MerkleProof.verifyPath_node h0 hok
    rw [MerkleProof.verifyPath_extension hread rfl] at hok
    rw [under_apply]
    by_cases hpre : ext <+: key
    · rw [if_pos hpre] at hok ⊢
      exact ih hok
    · rw [if_neg hpre] at hok ⊢
      simpa using hok
  | @branch h children branchValue g h0 hl _ habsent _ ih =>
    obtain rfl := (hs _ _ hl).2
    obtain ⟨bytes, rest, rfl, hread⟩ := MerkleProof.verifyPath_node h0 hok
    rw [MerkleProof.verifyPath_branch hread rfl] at hok
    cases key with
    | nil => simpa [node] using hok
    | cons i key =>
      show value = g i key
      cases hc : children i with
      | none =>
        simp only [hc] at hok
        rw [habsent i hc]
        simpa using hok
      | some c =>
        simp only [hc] at hok
        exact ih i c hc hok

/-- **The nodes that `get_proof` collects are accepted**, and the value with
them is the one of the trie. -/
theorem Canonical.collectProof_complete {dirty : NodeColumn H V}
    (hs : SoundColumn (nodeAt db dirty)) {h : H} (hh : Canonical (nodeAt db dirty) h f) {fuel : ℕ}
    (hfuel : key.length < fuel) :
    ∃ nodes : List B, Trie.collectProof B db dirty fuel h key = .ok (f key, nodes) ∧
      MerkleProof.verifyPath (f key) nodes h key = .ok true := by
  induction hh generalizing fuel key with
  | @leaf h leafKey leafValue h0 hl =>
    obtain rfl := (hs _ _ hl).2
    obtain ⟨fuel, rfl⟩ := exists_succ_of_lt hfuel
    refine ⟨[(TrieNode.leaf leafKey leafValue : TrieNode H V).toBytes B], ?_, ?_⟩
    · rw [Trie.collectProof, if_neg h0, getNode_bind h0 hl, single_apply]
      rfl
    · rw [MerkleProof.verifyPath_leaf (TrieNode.fromBytes_toBytes _) rfl, single_apply]
      split
      · simp
      · simp
  | @extension h child ext f h0 hl hk _ _ ih =>
    obtain rfl := (hs _ _ hl).2
    obtain ⟨fuel, rfl⟩ := exists_succ_of_lt hfuel
    have hpos : 0 < ext.length := length_pos_iff.mpr hk
    rw [Trie.collectProof, if_neg h0, getNode_bind h0 hl, under_apply]
    dsimp only
    split
    · rename_i hpre
      have hle := hpre.length_le
      have hrest : (key.drop ext.length).length < fuel := by
        rw [length_drop]
        omega
      obtain ⟨nodes, hcollect, hverify⟩ := ih hrest
      refine ⟨(TrieNode.extension ext child : TrieNode H V).toBytes B :: nodes, ?_, ?_⟩
      · rw [hcollect]
        rfl
      · rw [MerkleProof.verifyPath_extension (TrieNode.fromBytes_toBytes _) rfl, if_pos hpre, hverify]
    · rename_i hpre
      refine ⟨[(TrieNode.extension ext child : TrieNode H V).toBytes B], rfl, ?_⟩
      rw [MerkleProof.verifyPath_extension (TrieNode.fromBytes_toBytes _) rfl, if_neg hpre]
      rfl
  | @branch h children branchValue g h0 hl _ habsent _ ih =>
    obtain rfl := (hs _ _ hl).2
    obtain ⟨fuel, rfl⟩ := exists_succ_of_lt hfuel
    rw [Trie.collectProof, if_neg h0, getNode_bind h0 hl]
    cases key with
    | nil =>
      refine ⟨[(TrieNode.branch children branchValue : TrieNode H V).toBytes B], rfl, ?_⟩
      rw [MerkleProof.verifyPath_branch (TrieNode.fromBytes_toBytes _) rfl]
      simp [node]
    | cons i key =>
      show ∃ nodes : List B, _ = Except.ok (g i key, nodes) ∧
        MerkleProof.verifyPath (g i key) nodes _ _ = _
      cases hc : children i with
      | none =>
        refine ⟨[(TrieNode.branch children branchValue : TrieNode H V).toBytes B], ?_, ?_⟩
        · rw [habsent i hc]
          simp only [hc]
          rfl
        · rw [MerkleProof.verifyPath_branch (TrieNode.fromBytes_toBytes _) rfl, habsent i hc]
          simp [hc]
      | some c =>
        obtain ⟨nodes, hcollect, hverify⟩ := ih i c hc (Nat.lt_of_succ_lt_succ hfuel)
        refine ⟨(TrieNode.branch children branchValue : TrieNode H V).toBytes B :: nodes, ?_, ?_⟩
        · simp only [hc, hcollect]
          rfl
        · rw [MerkleProof.verifyPath_branch (TrieNode.fromBytes_toBytes _) rfl]
          simp only [hc, hverify]

theorem CanonicalAt.verify_sound (hs : SoundColumn look) {root : H} (hh : CanonicalAt look root f)
    {p : MerkleProof B V} (hok : p.verify root = .ok true) :
    p.value = f (nibblesOfBytes p.key) := by
  unfold MerkleProof.verify at hok
  obtain ⟨h0, rfl⟩ | hc := hh
  · rw [if_pos h0] at hok
    simpa using hok
  · rw [if_neg hc.ne_zero] at hok
    split at hok
    · cases hok
    · exact hc.verifyPath_sound hs hok

theorem CanonicalAt.getProof_complete {t : Trie H V} (hs : SoundColumn (nodeAt db t.dirty))
    (hh : CanonicalAt (nodeAt db t.dirty) t.root f) (key : List UInt8) :
    ∃ p : MerkleProof B V, t.getProof B db key = .ok p ∧ p.key = key ∧
      p.value = f (nibblesOfBytes key) ∧ p.verify t.root = .ok true := by
  unfold Trie.getProof MerkleProof.verify
  obtain ⟨h0, rfl⟩ | hc := hh
  · refine ⟨⟨key, none, []⟩, ?_, rfl, rfl, ?_⟩
    · dsimp only
      rw [Trie.collectProof, if_pos h0]
      rfl
    · rw [if_pos h0]
      rfl
  · obtain ⟨nodes, hcollect, hverify⟩ := hc.collectProof_complete (B := B) hs
      (Nat.lt_succ_self (nibblesOfBytes key).length)
    refine ⟨⟨key, f (nibblesOfBytes key), nodes⟩, ?_, rfl, rfl, ?_⟩
    · dsimp only
      rw [hcollect]
      rfl
    · rw [if_neg hc.ne_zero]
      cases nodes with
      | nil => cases hverify
      | cons bytes nodes => exact hverify

end Path

/-! ## A format to compute with -/

section Names

open Delimited

/-- Nodes from the wire are coded as those of the trie are. -/
instance : Delimited (WireNode CodeName ℕ) :=
  ofInjective
    (Q := Unit ⊕ (List ℕ × ℕ) ⊕ (List ℕ × CodeName) ⊕ (List (Option CodeName) × Option ℕ))
    (fun
      | .empty => .inl ()
      | .leaf key value => .inr (.inl (key.map UInt8.toNat, value))
      | .extension key child => .inr (.inr (.inl (key.map UInt8.toNat, child)))
      | .branch children value => .inr (.inr (.inr (ofFn children, value)))) (by
    have hkey : Function.Injective (map UInt8.toNat) :=
      map_injective_iff.mpr (fun _ _ h => UInt8.toNat_inj.mp h)
    intro a b h
    cases a <;> cases b <;> simp_all [hkey.eq_iff, ofFn_injective.eq_iff, -ofFn_succ])

theorem enc_toNibbles (key : List Nibble) : enc ((toNibbles key).map UInt8.toNat) = enc key := by
  have hmap : (toNibbles key).map UInt8.toNat = key.map Fin.val := by
    unfold toNibbles
    rw [map_map]
    exact map_congr_left fun i _ => Nibble.toNat_ofNat i
  rw [hmap]
  show (key.map Fin.val).length :: (key.map Fin.val).flatMap enc = key.length :: key.flatMap enc
  rw [length_map, flatMap_map]
  rfl

theorem enc_toWire (node : TrieNode CodeName ℕ) : enc node.toWire = enc node := by
  cases node with
  | empty | branch children value => rfl
  | leaf key value => exact congrArg (fun l => 1 :: 0 :: (l ++ enc value)) (enc_toNibbles key)
  | extension key child =>
    exact congrArg (fun l => 1 :: 1 :: 0 :: (l ++ enc child)) (enc_toNibbles key)

/-- The bytes of a node are the node itself. -/
instance : WireFormat (WireNode CodeName ℕ) CodeName ℕ where
  toBytes node := node
  fromBytes := some
  fromBytes_toBytes _ := rfl
  blake3 := (CodeName.digest (WireNode CodeName ℕ) 8).digest
  blake3_injective := (CodeName.digest (WireNode CodeName ℕ) 8).digest_injective
  blake3_toWire node := congrArg (fun l => (⟨8 :: l⟩ : CodeName)) (enc_toWire node)

end Names

/-! ## Proofs against the root of a store -/

section Store

variable [DecidableEq H] [DecidableEq V]

/-- **Merkle proofs are complete and sound**: every key has an accepted proof of
its value or of its absence, and whatever proof is accepted has the value of
the trie. -/
theorem TrieStore.getProof_verify {n : ℕ} {db : NodeColumn H V} (hs : SoundColumn db)
    {ops : List (TrieOp V)} (hops : ∀ op ∈ ops, op.HasLength n) :
    ∃ answers s, (new db).run ops = .ok (answers, s) ∧ ∀ key,
      (∃ p : MerkleProof B V, s.trie.getProof B s.db key = .ok p ∧ p.key = key ∧
        s.trie.get s.db (nibblesOfBytes key) = .ok p.value ∧
        p.verify s.trie.root = .ok true) ∧
      ∀ p : MerkleProof B V, p.key = key → p.verify s.trie.root = .ok true →
        s.trie.get s.db (nibblesOfBytes key) = .ok p.value := by
  obtain ⟨s, hrun, h⟩ := represents_of_length hs hops
  refine ⟨_, s, hrun, fun key => ⟨?_, ?_⟩⟩
  · obtain ⟨p, hp, hkey, hvalue, hverify⟩ :=
      h.canonical.getProof_complete (B := B) h.sound key
    refine ⟨p, hp, hkey, ?_, hverify⟩
    rw [h.canonical.get_eq, hvalue]
  · rintro p rfl hverify
    rw [h.canonical.get_eq, h.canonical.verify_sound h.sound hverify]

theorem TrieStore.getProof_verify_twoKeys :
    SoundColumn (fun _ => none : NodeColumn CodeName ℕ) ∧
      ∃ answers, ∃ s : TrieStore CodeName ℕ,
        (new fun _ => none).run [.insert [0x61, 0x62] 1, .insert [0x61, 0x63] 2]
          = .ok (answers, s) ∧ ∀ key,
        (∃ p : MerkleProof (WireNode CodeName ℕ) ℕ,
          s.trie.getProof (WireNode CodeName ℕ) s.db key = .ok p ∧ p.key = key ∧
          s.trie.get s.db (nibblesOfBytes key) = .ok p.value ∧
          p.verify s.trie.root = .ok true) ∧
        ∀ p : MerkleProof (WireNode CodeName ℕ) ℕ, p.key = key →
          p.verify s.trie.root = .ok true →
          s.trie.get s.db (nibblesOfBytes key) = .ok p.value := by
  have hs : SoundColumn (fun _ => none : NodeColumn CodeName ℕ) := nofun
  have hops : ∀ op ∈ [TrieOp.insert [0x61, 0x62] 1, .insert [0x61, 0x63] 2], op.HasLength 2 := by
    simp [TrieOp.HasLength]
  exact ⟨hs, getProof_verify hs hops⟩

end Store

end Qfc
