import QfcCore.Trie.MapSemantics

/-!
# One root for one map

A trie in normal form is determined by its content, node by node: one entry is
a leaf, entries with a common first nibble are below an extension, and all
others part at a branch. So two tries have one root exactly when they have one
content, whatever the operations that built them and the databases they are in.
-/

namespace Qfc

open PathMap

variable {H V : Type} [Zero H] {key : List Nibble}

/-! ## The content of each kind of node -/

/-- The map has entries that part at the first letter, or at the end before
it. -/
def Parted (f : List Nibble → Option V) : Prop :=
  ∀ i, ∃ p, (f p).isSome ∧ ¬ [i] <+: p

theorem not_parted_under (hk : key ≠ []) (f : List Nibble → Option V) : ¬ Parted (under key f) := by
  intro hparted
  obtain ⟨i, rest, rfl⟩ := List.exists_cons_of_ne_nil hk
  obtain ⟨p, hp, hne⟩ := hparted i
  rw [under_apply] at hp
  split at hp
  · rename_i hpre
    exact hne ((List.prefix_append [i] rest).trans hpre)
  · cases hp

section Branch

variable {look : NodeColumn H V} {children : Nibble → Option H} {value : Option V}
  {g : Nibble → List Nibble → Option V}

theorem exists_entry_of_child (hch : ∀ i c, children i = some c → Canonical look c (g i))
    {i : Nibble} (hi : (children i).isSome) : ∃ p, (g i p).isSome := by
  obtain ⟨c, hc⟩ := Option.isSome_iff_exists.mp hi
  obtain ⟨p, v, hv⟩ := (hch i c hc).nonempty
  exact ⟨p, by rw [hv]; rfl⟩

variable (hfork : Forked children value) (hch : ∀ i c, children i = some c → Canonical look c (g i))
include hfork hch

theorem parted_node : Parted (node value g) := by
  intro i
  obtain ⟨hvalue, -⟩ | ⟨j, k, hjk, hj, hk⟩ := hfork
  · exact ⟨[], hvalue, by simp⟩
  · -- one of the two children is not at `i`
    obtain ⟨l, hl, hli⟩ : ∃ l, (children l).isSome ∧ l ≠ i := by
      by_cases hji : j = i
      · exact ⟨k, hk, fun hki => hjk (hji.trans hki.symm)⟩
      · exact ⟨j, hj, hji⟩
    obtain ⟨p, hp⟩ := exists_entry_of_child hch hl
    exact ⟨l :: p, hp, fun hpre => hli (List.cons_prefix_cons.mp hpre).1.symm⟩

theorem node_ne_single (key : List Nibble) (v : V) : node value g ≠ single key v := by
  intro heq
  have honly : ∀ p, (node value g p).isSome → p = key := by
    intro p hp
    rw [heq, single_apply] at hp
    by_contra hne
    rw [if_neg hne] at hp
    cases hp
  obtain ⟨i, hi⟩ : ∃ i, (children i).isSome := by
    obtain ⟨-, i, hi⟩ | ⟨i, -, -, hi, -⟩ := hfork
    · exact ⟨i, hi⟩
    · exact ⟨i, hi⟩
  obtain ⟨p, hp⟩ := exists_entry_of_child hch hi
  obtain ⟨q, hq, hne⟩ := parted_node hfork hch i
  refine hne ?_
  rw [honly q hq, ← honly (i :: p) hp]
  exact List.cons_prefix_cons.mpr ⟨rfl, List.nil_prefix⟩

end Branch

variable {look look' : NodeColumn H V} {h : H} {f f' : List Nibble → Option V} {k k' : List Nibble}

theorem Canonical.ne_empty (hh : Canonical look h f) : f ≠ empty := by
  rintro rfl
  obtain ⟨key, v, hv⟩ := hh.nonempty
  cases hv

theorem Canonical.parted (hh : Canonical look h f) (hb : IsBranch look h) : Parted f := by
  obtain ⟨children, value, hb⟩ := hb
  cases hh with
  | leaf _ hl | extension _ hl => rw [hl] at hb; cases hb
  | branch _ _ hfork _ hch => exact parted_node hfork hch

theorem Canonical.ne_single (hh : Canonical look h f) (hb : IsBranch look h) (key : List Nibble) (v : V) :
    f ≠ single key v := by
  obtain ⟨children, value, hb⟩ := hb
  cases hh with
  | leaf _ hl | extension _ hl => rw [hl] at hb; cases hb
  | branch _ _ hfork _ hch => exact node_ne_single hfork hch key v

/-! ## The content determines the nodes -/

theorem single_inj {v v' : V} (h : single k v = single k' v') : k = k' ∧ v = v' := by
  have hk := congrFun h k
  rw [single_apply, single_apply, if_pos rfl] at hk
  split at hk
  · exact ⟨‹k = k'›, Option.some.inj hk⟩
  · cases hk

/-- A path with parted entries below it is as long as it can be. -/
theorem prefix_of_under_eq (hf : Parted f) (h : under k f = under k' f') : k' <+: k := by
  obtain ⟨p, hp, -⟩ := hf 0
  have hentry : (under k' f' (k ++ p)).isSome := by rwa [← h, under_append_apply]
  have hpre : k' <+: k ++ p := by
    rw [under_apply] at hentry
    by_contra hne
    rw [if_neg hne] at hentry
    cases hentry
  obtain hle | ⟨t, rfl⟩ := List.prefix_or_prefix_of_prefix hpre (List.prefix_append k p)
  · exact hle
  · cases t with
    | nil => rw [List.append_nil]
    | cons i t =>
      -- everything below the shorter path would go on with `i`
      have hbelow : f = under (i :: t) f' := by
        funext q
        rw [← under_append_apply k q f, h, under_append, under_append_apply]
      rw [hbelow] at hf
      exact absurd hf (not_parted_under (List.cons_ne_nil i t) f')

theorem under_inj (h : under k f = under k f') : f = f' := by
  funext q
  rw [← under_append_apply k q f, h, under_append_apply]

theorem eq_single_of_under {v : V} (h : under key f = single k v) : ∃ rest, f = single rest v := by
  have hpre : key <+: k := by
    have hk := congrFun h k
    rw [under_apply, single_apply, if_pos rfl] at hk
    by_contra hne
    rw [if_neg hne] at hk
    cases hk
  obtain ⟨rest, rfl⟩ := hpre
  exact ⟨rest, under_inj (h.trans (under_single key rest v).symm)⟩

theorem node_inj {v v' : Option V} {g g' : Nibble → List Nibble → Option V}
    (h : node v g = node v' g') : v = v' ∧ g = g' :=
  ⟨congrFun h [], funext fun i => funext fun p => congrFun h (i :: p)⟩

variable [Digest H (TrieNode H V)]

section

variable (hs : SoundColumn look) (hs' : SoundColumn look') {h' : H} {node : TrieNode H V}
include hs hs'

theorem SoundColumn.hash_eq (hl : look h = some node) (hl' : look' h' = some node) : h = h' := by
  rw [← (hs h node hl).2, ← (hs' h' node hl').2]

/-- The content determines the hash. -/
theorem Canonical.hash_eq (hh : Canonical look h f) (hh' : Canonical look' h' f') (hf : f = f') :
    h = h' := by
  induction hh generalizing h' f' with
  | leaf _ hl =>
    cases hh' with
    | leaf _ hl' =>
      obtain ⟨rfl, rfl⟩ := single_inj hf
      exact hs.hash_eq hs' hl hl'
    | extension _ _ _ hb hc =>
      obtain ⟨rest, hrest⟩ := eq_single_of_under hf.symm
      exact absurd hrest (hc.ne_single hb rest _)
    | branch _ _ hfork _ hch => exact absurd hf.symm (node_ne_single hfork hch _ _)
  | @extension h child key f₁ h0 hl hk hb hc ih =>
    cases hh' with
    | leaf =>
      obtain ⟨rest, hrest⟩ := eq_single_of_under hf
      exact absurd hrest (hc.ne_single hb rest _)
    | @extension _ child' key' f₁' _ hl' hk' hb' hc' =>
      have hkey : key = key' :=
        (prefix_of_under_eq (hc'.parted hb') hf.symm).eq_of_length_le
          (prefix_of_under_eq (hc.parted hb) hf).length_le
      subst hkey
      obtain rfl := ih hc' (under_inj hf)
      exact hs.hash_eq hs' hl hl'
    | branch _ _ hfork _ hch =>
      have hparted := parted_node hfork hch
      rw [← hf] at hparted
      exact absurd hparted (not_parted_under hk f₁)
  | @branch h children value g h0 hl hfork habsent hch ih =>
    cases hh' with
    | leaf => exact absurd hf (node_ne_single hfork hch _ _)
    | extension _ _ hk =>
      have hparted := parted_node hfork hch
      rw [hf] at hparted
      exact absurd hparted (not_parted_under hk _)
    | @branch _ children' value' g' _ hl' _ habsent' hch' =>
      obtain ⟨rfl, rfl⟩ := node_inj hf
      have hchildren : children = children' := by
        funext i
        cases hi : children i with
        | none =>
          cases hi' : children' i with
          | none => rfl
          | some c' => exact absurd (habsent i hi) (hch' i c' hi').ne_empty
        | some c =>
          cases hi' : children' i with
          | none => exact absurd (habsent' i hi') (hch i c hi).ne_empty
          | some c' => rw [ih i c hi (hch' i c' hi') rfl]
      subst hchildren
      exact hs.hash_eq hs' hl hl'

/-! ## The hash determines the content -/

/-- Two sound columns have one node under one hash. -/
theorem SoundColumn.agree {node' : TrieNode H V} (hl : look h = some node)
    (hl' : look' h = some node') : node = node' := by
  obtain ⟨h0, hh⟩ := hs h node hl
  obtain ⟨-, hh'⟩ := hs' h node' hl'
  have hdigest : ∀ n : TrieNode H V, n.hash = h → Digest.digest n = h := by
    intro n hn
    cases n with
    | empty => exact absurd hn.symm h0
    | leaf | extension | branch => exact hn
  exact Digest.digest_injective ((hdigest node hh).trans (hdigest node' hh').symm)

/-- The hash determines the content. -/
theorem Canonical.content_eq (hh : Canonical look h f) (hh' : Canonical look' h f') : f = f' := by
  induction hh generalizing f' with
  | leaf _ hl =>
    cases hh' with
    | leaf _ hl' => cases hs.agree hs' hl hl'; rfl
    | extension _ hl' | branch _ hl' => cases hs.agree hs' hl hl'
  | extension _ hl _ _ _ ih =>
    cases hh' with
    | leaf _ hl' | branch _ hl' => cases hs.agree hs' hl hl'
    | extension _ hl' _ _ hc' => cases hs.agree hs' hl hl'; rw [ih hc']
  | @branch h children value g _ hl _ habsent _ ih =>
    cases hh' with
    | leaf _ hl' | extension _ hl' => cases hs.agree hs' hl hl'
    | @branch _ children' value' g' _ hl' _ habsent' hch' =>
      cases hs.agree hs' hl hl'
      refine congrArg (node value) (funext fun i => ?_)
      cases hi : children i with
      | none => rw [habsent i hi, habsent' i hi]
      | some c => exact ih i c hi (hch' i c hi)

/-- Two tries have one root exactly when they have one content. -/
theorem CanonicalAt.root_eq_iff (hh : CanonicalAt look h f) (hh' : CanonicalAt look' h' f') :
    h = h' ↔ f = f' := by
  obtain ⟨rfl, rfl⟩ | hc := hh
  · obtain ⟨rfl, rfl⟩ | hc' := hh'
    · simp
    · exact iff_of_false hc'.ne_zero.symm hc'.ne_empty.symm
  · obtain ⟨rfl, rfl⟩ | hc' := hh'
    · exact iff_of_false hc.ne_zero hc.ne_empty
    · constructor
      · rintro rfl
        exact hc.content_eq hs hs' hc'
      · exact hc.hash_eq hs hs' hc'

/-! ## Keys of one length -/

end

/-- The key of an operation has `n` bytes. -/
def TrieOp.HasLength (n : ℕ) : TrieOp V → Prop
  | .insert key _ => key.length = n
  | .delete key => key.length = n
  | _ => True

variable {m : ByteMap V} {n : ℕ} {ops : List (TrieOp V)}

theorem TrieOp.length_onMap (hm : ∀ p, (m p).isSome → p.length = n) {op : TrieOp V}
    (hop : op.HasLength n) : ∀ p, ((op.onMap m).2 p).isSome → p.length = n := by
  have hupdate : ∀ {key : List UInt8} (value : Option V), key.length = n →
      ∀ p, (Function.update m key value p).isSome → p.length = n := by
    intro key value hkey p hp
    by_cases hpk : p = key
    · rw [hpk, hkey]
    · rw [Function.update_of_ne hpk] at hp
      exact hm p hp
  cases op with
  | insert key value => exact hupdate (some value) hop
  | delete key => exact hupdate none hop
  | commit | reopen => exact hm

/-- Keys of one length always have room: none is a proper prefix of
another. -/
theorem TrieOp.allHaveRoom_of_length (hm : ∀ p, (m p).isSome → p.length = n)
    (hops : ∀ op ∈ ops, op.HasLength n) : AllHaveRoom m ops := by
  induction ops generalizing m with
  | nil => trivial
  | cons op ops ih =>
    obtain ⟨hop, hops⟩ := List.forall_mem_cons.mp hops
    refine ⟨?_, ih (length_onMap hm hop) hops⟩
    cases op with
    | insert key value =>
      intro p hp hpre hne
      have hlen : p.length = key.length := (hm p hp).trans (show key.length = n from hop).symm
      exact absurd (hpre.eq_of_length hlen) hne
    | delete key | commit | reopen => trivial

variable [DecidableEq H]

namespace TrieStore

/-- Operations on keys of one length run, and the store they reach represents
the map they make. -/
theorem represents_of_length {db : NodeColumn H V} (hs : SoundColumn db)
    (hops : ∀ op ∈ ops, op.HasLength n) :
    ∃ s, (new db).run ops = .ok ((TrieOp.runOnMap (fun _ => none) ops).1, s) ∧
      s.Represents (TrieOp.runOnMap (fun _ => none) ops).2 :=
  (represents_new hs).run (TrieOp.allHaveRoom_of_length (by simp) hops)

/-- **The root is canonical**: two sequences of operations on keys of one length
end in one root exactly when they end in one map. -/
theorem root_eq_iff_map_eq {n : ℕ} {db db' : NodeColumn H V} (hs : SoundColumn db)
    (hs' : SoundColumn db') {ops ops' : List (TrieOp V)} (hops : ∀ op ∈ ops, op.HasLength n)
    (hops' : ∀ op ∈ ops', op.HasLength n) :
    ∃ answers answers' s s', (new db).run ops = .ok (answers, s) ∧
      (new db').run ops' = .ok (answers', s') ∧
      (s.trie.root = s'.trie.root ↔
        (TrieOp.runOnMap (fun _ => none) ops).2 = (TrieOp.runOnMap (fun _ => none) ops').2) ∧
      (s.trie.root = 0 ↔ (TrieOp.runOnMap (fun _ => none) ops).2 = fun _ => none) := by
  obtain ⟨s, hrun, h⟩ := represents_of_length hs hops
  obtain ⟨s', hrun', h'⟩ := represents_of_length hs' hops'
  refine ⟨_, _, s, s', hrun, hrun', ?_, ?_⟩
  · rw [h.canonical.root_eq_iff h.sound h'.sound h'.canonical, spell_injective.eq_iff]
  · rw [h.canonical.root_eq_iff h.sound hs (.inl ⟨rfl, spell_none⟩), spell_injective.eq_iff]

/-- The keys `a` and `b`, in both orders and with a key in between that goes
again. -/
theorem root_eq_iff_map_eq_orders :
    SoundColumn (fun _ => none : NodeColumn CodeName ℕ) ∧
      ∃ answers answers', ∃ s s' : TrieStore CodeName ℕ,
        (new fun _ => none).run [.insert [0x61] 1, .insert [0x62] 2] = .ok (answers, s) ∧
        (new fun _ => none).run
          [.insert [0x62] 2, .insert [0x63] 3, .insert [0x61] 1, .delete [0x63]]
          = .ok (answers', s') ∧
        (s.trie.root = s'.trie.root ↔
          (TrieOp.runOnMap (fun _ => none) [.insert [0x61] 1, .insert [0x62] 2]).2
            = (TrieOp.runOnMap (fun _ => none)
              [.insert [0x62] 2, .insert [0x63] 3, .insert [0x61] 1, .delete [0x63]]).2) ∧
        (s.trie.root = 0 ↔
          (TrieOp.runOnMap (fun _ => none) [.insert [0x61] 1, .insert [0x62] 2]).2
            = fun _ => none) := by
  have hs : SoundColumn (fun _ => none : NodeColumn CodeName ℕ) := nofun
  have hops : ∀ op ∈ [TrieOp.insert [0x61] 1, .insert [0x62] 2], op.HasLength 1 := by
    simp [TrieOp.HasLength]
  exact ⟨hs, root_eq_iff_map_eq hs hs hops (by simp [TrieOp.HasLength])⟩

end TrieStore

end Qfc
