import QfcCore.Trie.Formed

/-!
# What a trie holds

`Holds look n h f` says that the nodes of `look` form a complete trie under the
hash `h`, over keys of `n` nibbles, with the content `f`. It is the abstract
view of a trie: lookups read the content, insertion and deletion update one
entry of it.

All keys of a trie have one length (an address has 40 nibbles, a storage slot
64). So a key never ends inside another one, no branch has a value of its own,
and a leaf that is split never loses its value.
-/

namespace Qfc

open PathMap

variable {H V : Type} [Zero H]

/-- **A complete trie under a hash**, over keys of one length, with its
content. -/
inductive Holds (look : NodeColumn H V) : ℕ → H → (List Nibble → Option V) → Prop
  | empty (n : ℕ) : Holds look n 0 empty
  | leaf {h : H} {key : List Nibble} {value : V} :
      h ≠ 0 → look h = some (.leaf key value) → Holds look key.length h (single key value)
  | extension {h child : H} {key : List Nibble} {n : ℕ} {f : List Nibble → Option V} :
      h ≠ 0 → look h = some (.extension key child) → key ≠ [] → child ≠ 0 →
      Holds look n child f → Holds look (key.length + n) h (under key f)
  | branch {h : H} {children : Nibble → Option H} {n : ℕ}
      {g : Nibble → List Nibble → Option V} :
      h ≠ 0 → look h = some (.branch children none) →
      (∀ i, children i = none → g i = empty) → (∀ i c, children i = some c → c ≠ 0) →
      (∀ i c, children i = some c → Holds look n c (g i)) → Holds look (n + 1) h (fork g)

variable {look look' : NodeColumn H V} {n : ℕ} {h : H} {f : List Nibble → Option V}

/-- What is held stays held when the column grows. -/
theorem Holds.mono (hh : Holds look n h f)
    (hle : ∀ {h : H} {node : TrieNode H V}, look h = some node → look' h = some node) :
    Holds look' n h f := by
  induction hh with
  | empty n => exact .empty n
  | leaf h0 hl => exact .leaf h0 (hle hl)
  | extension h0 hl hk hc _ ih => exact .extension h0 (hle hl) hk hc ih
  | branch h0 hl hnone hne _ ih => exact .branch h0 (hle hl) hnone hne ih

/-- A complete trie is formed, with one length for its keys. -/
theorem Holds.formedAt (hh : Holds look n h f) : FormedAt look False (· = n) h f := by
  induction hh with
  | empty n => exact .inl ⟨rfl, rfl⟩
  | leaf h0 hl => exact .inr (.leaf h0 hl rfl)
  | extension h0 hl hk hc _ ih =>
    refine .inr (.extension h0 hl hk False.elim ?_)
    exact (ih.resolve_left fun hz => hc hz.1).congr fun m => by omega
  | branch h0 hl hnone hne _ ih =>
    rw [fork_eq_node]
    refine .inr (.branch h0 hl False.elim ⟨_, rfl⟩ nofun hnone fun i c hc => ?_)
    exact ((ih i c hc).resolve_left fun hz => hne i c hc hz.1).congr fun m => by omega

theorem Formed.holds {L : ℕ → Prop} (hh : Formed look False L h f) (hL : ∀ m, L m ↔ m = n) :
    Holds look n h f := by
  induction hh generalizing n with
  | leaf h0 hl hkey =>
    rw [← (hL _).mp hkey]
    exact .leaf h0 hl
  | @extension _ _ _ key _ h0 hl hk _ hf ih =>
    obtain ⟨m, hm⟩ := hf.exists_length
    have hn := (hL _).mp hm
    rw [← hn, Nat.add_comm]
    exact .extension h0 hl hk hf.ne_zero (ih fun k => (hL _).trans (by omega))
  | @branch _ _ _ value _ h0 hl _ hm hvalue habsent hch ih =>
    obtain ⟨m, hm⟩ := hm
    have hn := (hL _).mp hm
    rw [← hn]
    cases value with
    | some v => exact absurd ((hL 0).mp (hvalue rfl)) (by omega)
    | none =>
      rw [← fork_eq_node]
      exact .branch h0 hl habsent (fun i c hc => (hch i c hc).ne_zero)
        fun i c hc => ih i c hc fun k => (hL _).trans (by omega)

theorem FormedAt.holds (hh : FormedAt look False (· = n) h f) : Holds look n h f := by
  obtain ⟨rfl, rfl⟩ | hh := hh
  · exact .empty n
  · exact hh.holds fun _ => Iff.rfl

/-- Among keys of one length there is room for another one. -/
theorem Holds.room (hh : Holds look n h f) {key : List Nibble} (hkey : key.length = n) :
    Room f key := by
  intro p hp hpre hne
  obtain ⟨-, rfl⟩ | hf := hh.formedAt
  · cases hp
  · exact absurd (hpre.eq_of_length ((hf.length_mem hp).trans hkey.symm)) hne

/-! ## Operations -/

section Operations

variable [DecidableEq H] {db : NodeColumn H V} {t : Trie H V} {key : List Nibble}
  (hh : Holds (nodeAt db t.dirty) n t.root f)
include hh

theorem Holds.get_eq (key : List Nibble) : t.get db key = .ok (f key) :=
  hh.formedAt.get_eq key

variable [Digest H (TrieNode H V)] (hs : SoundColumn (nodeAt db t.dirty))
include hs

theorem Holds.insert_eq (value : V) (hkey : key.length = n) :
    ∃ t', t.insert db key value = .ok t' ∧ Grows (nodeAt db t.dirty) (nodeAt db t'.dirty) ∧
      Holds (nodeAt db t'.dirty) n t'.root (Function.update f key (some value)) := by
  obtain ⟨t', ht, hgrows, hf⟩ := hh.formedAt.insert_eq hs hkey (hh.room hkey) value
  exact ⟨t', ht, hgrows, hf.holds⟩

theorem Holds.delete_eq (key : List Nibble) :
    ∃ t', t.delete db key = .ok t' ∧ Grows (nodeAt db t.dirty) (nodeAt db t'.dirty) ∧
      Holds (nodeAt db t'.dirty) n t'.root (Function.update f key none) := by
  obtain ⟨t', ht, -, hgrows, hf⟩ := hh.formedAt.delete_eq hs key
  exact ⟨t', ht, hgrows, hf.holds⟩

end Operations

end Qfc
