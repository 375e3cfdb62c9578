import QfcCore.Trie.Formed

/-!
# Tries in normal form

`Canonical look h f` says that the nodes of `look` form a trie under the hash
`h` in normal form, with the content `f`: an extension has a key and a branch
below it, and a branch parts at least two entries. Keys may have any length,
and a branch may carry the value of a key that ends there.

Lookup reads the content. Deletion clears an entry and restores the normal
form, however far up the collapse goes. Insertion sets an entry and keeps the
normal form, with one exception: where the walk ends in a leaf whose key is a
proper prefix of the new one, the code splits the leaf and drops its value.
`Room f key` excludes just that.
-/

namespace Qfc

open PathMap

variable {H V : Type} [Zero H]

/-- **A trie in normal form** under a hash, with its content. -/
inductive Canonical (look : NodeColumn H V) : H → (List Nibble → Option V) → Prop
  | leaf {h : H} {key : List Nibble} {value : V} :
      h ≠ 0 → look h = some (.leaf key value) → Canonical look h (single key value)
  | extension {h child : H} {key : List Nibble} {f : List Nibble → Option V} :
      h ≠ 0 → look h = some (.extension key child) → key ≠ [] → IsBranch look child →
      Canonical look child f → Canonical look h (under key f)
  | branch {h : H} {children : Nibble → Option H} {value : Option V}
      {g : Nibble → List Nibble → Option V} :
      h ≠ 0 → look h = some (.branch children value) → Forked children value →
      (∀ i, children i = none → g i = empty) →
      (∀ i c, children i = some c → Canonical look c (g i)) → Canonical look h (node value g)

/-- A whole trie: nothing, or a trie in normal form. -/
def CanonicalAt (look : NodeColumn H V) (h : H) (f : List Nibble → Option V) : Prop :=
  (h = 0 ∧ f = empty) ∨ Canonical look h f

variable {look look' : NodeColumn H V} {h : H} {f : List Nibble → Option V}

theorem Canonical.ne_zero (hh : Canonical look h f) : h ≠ 0 := by
  cases hh with
  | leaf h0 | extension h0 | branch h0 => exact h0

/-- What is in normal form stays so when the column grows. -/
theorem Canonical.mono (hh : Canonical look h f)
    (hle : ∀ {h : H} {node : TrieNode H V}, look h = some node → look' h = some node) :
    Canonical look' h f := by
  induction hh with
  | leaf h0 hl => exact .leaf h0 (hle hl)
  | extension h0 hl hk hb _ ih =>
    obtain ⟨children, value, hb⟩ := hb
    exact .extension h0 (hle hl) hk ⟨children, value, hle hb⟩ ih
  | branch h0 hl hfork habsent _ ih => exact .branch h0 (hle hl) hfork habsent ih

theorem CanonicalAt.mono (hh : CanonicalAt look h f)
    (hle : ∀ {h : H} {node : TrieNode H V}, look h = some node → look' h = some node) :
    CanonicalAt look' h f :=
  hh.imp_right (fun hc => hc.mono hle)

/-- A trie in normal form is not empty. -/
theorem Canonical.nonempty (hh : Canonical look h f) :
    ∃ key v, f key = some v := by
  induction hh with
  | @leaf _ key value _ _ => exact ⟨key, value, by rw [single_apply, if_pos rfl]⟩
  | @extension _ _ key f _ _ _ _ _ ih =>
    obtain ⟨rest, v, hv⟩ := ih
    exact ⟨key ++ rest, v, by rw [under_apply, if_pos (List.prefix_append _ _), List.drop_left, hv]⟩
  | @branch _ children value g _ _ hfork _ _ ih =>
    obtain ⟨i, hi⟩ : ∃ i, (children i).isSome := by
      obtain ⟨-, i, hi⟩ | ⟨i, -, -, hi, -⟩ := hfork
      · exact ⟨i, hi⟩
      · exact ⟨i, hi⟩
    obtain ⟨c, hc⟩ := Option.isSome_iff_exists.mp hi
    obtain ⟨rest, v, hv⟩ := ih i c hc
    exact ⟨i :: rest, v, hv⟩

/-! ## Operations -/

/-- A trie in normal form, with keys of any length. -/
theorem Canonical.formed (hh : Canonical look h f) :
    Formed look True (fun _ => True) h f := by
  induction hh with
  | leaf h0 hl => exact .leaf h0 hl trivial
  | extension h0 hl hk hb _ ih => exact .extension h0 hl hk (fun _ => hb) ih
  | branch h0 hl hfork habsent _ ih =>
    exact .branch h0 hl (fun _ => hfork) ⟨0, trivial⟩ (fun _ => trivial) habsent ih

theorem Formed.canonical {L : ℕ → Prop} (hh : Formed look True L h f) : Canonical look h f := by
  induction hh with
  | leaf h0 hl => exact .leaf h0 hl
  | extension h0 hl hk hb _ ih => exact .extension h0 hl hk (hb trivial) ih
  | branch h0 hl hfork _ _ habsent _ ih => exact .branch h0 hl (hfork trivial) habsent ih

theorem CanonicalAt.formedAt (hh : CanonicalAt look h f) :
    FormedAt look True (fun _ => True) h f :=
  hh.imp_right Canonical.formed

section Operations

variable [DecidableEq H] {db : NodeColumn H V} {t : Trie H V}
  (hh : CanonicalAt (nodeAt db t.dirty) t.root f)
include hh

/-- A lookup reads the content, whatever the length of the key. -/
theorem CanonicalAt.get_eq (key : List Nibble) : t.get db key = .ok (f key) :=
  hh.formedAt.get_eq key

variable [Digest H (TrieNode H V)] (hs : SoundColumn (nodeAt db t.dirty))
include hs

theorem CanonicalAt.insert_eq {key : List Nibble} (hroom : Room f key) (value : V) :
    ∃ t', t.insert db key value = .ok t' ∧ Grows (nodeAt db t.dirty) (nodeAt db t'.dirty) ∧
      CanonicalAt (nodeAt db t'.dirty) t'.root (Function.update f key (some value)) := by
  obtain ⟨t', ht, hgrows, hf⟩ := hh.formedAt.insert_eq hs trivial hroom value
  exact ⟨t', ht, hgrows, hf.imp_right Formed.canonical⟩

theorem CanonicalAt.delete_eq (key : List Nibble) :
    ∃ t', t.delete db key = .ok t' ∧ t.deleted db key = .ok (f key).isSome ∧
      Grows (nodeAt db t.dirty) (nodeAt db t'.dirty) ∧
      CanonicalAt (nodeAt db t'.dirty) t'.root (Function.update f key none) := by
  obtain ⟨t', ht, hanswer, hgrows, hf⟩ := hh.formedAt.delete_eq hs key
  exact ⟨t', ht, hanswer, hgrows, hf.imp_right Formed.canonical⟩

end Operations

end Qfc
