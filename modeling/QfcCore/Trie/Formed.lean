import QfcCore.Lib.PathMap
import QfcCore.Trie.Node

/-!
# What the operations do to the content of a trie

`Formed look normal L h f` says that the nodes of `look` form a trie under the
hash `h` with the content `f`, whose keys have lengths in `L`. Where `normal`
is true, the trie is in normal form: an extension has a branch below it, and a
branch parts at least two entries. Tries over keys of one length and tries in
normal form are both of this kind.

Lookups read the content, insertion and deletion update one entry of it. The
nodes a trie is made of are never changed, only added to, so what is there
stays there when the column grows. A deletion restores the normal form, however
far up the collapse goes. An insertion has one exception: where the walk ends
in a leaf whose key is a proper prefix of the new one, the code splits the leaf
and drops its value. `Room f key` excludes just that.
-/

namespace Qfc

open PathMap Function List Trie Nat

variable {H V : Type} {children : Nibble → Option H} {g : Nibble → List Nibble → Option V}

/-- A branch that parts two entries: two children, or a child and a value of
its own. -/
def Forked (children : Nibble → Option H) (value : Option V) : Prop :=
  (value.isSome ∧ ∃ i, (children i).isSome) ∨
    ∃ i j, i ≠ j ∧ (children i).isSome ∧ (children j).isSome

/-- A branch with a child parts a second entry from it. -/
theorem forked_update {j : Nibble} (hj : (children j).isSome) {i : Nibble}
    (hi : children i = none) (c : H) (value : Option V) :
    Forked (update children i (some c)) value := by
  have hji : j ≠ i := by
    rintro rfl
    rw [hi] at hj
    cases hj
  refine .inr ⟨i, j, hji.symm, ?_, ?_⟩
  · rw [update_self]
    rfl
  · rw [update_of_ne hji]
    exact hj

/-- A child more, or a value more, and a branch still parts two entries. -/
theorem Forked.update {value : Option V} (h : Forked children value) (i : Nibble) (c : H) :
    Forked (Function.update children i (some c)) value := by
  have hkept : ∀ j, (children j).isSome → (Function.update children i (some c) j).isSome := by
    intro j hj
    by_cases hji : j = i
    · rw [hji, update_self]
      rfl
    · rw [update_of_ne hji]
      exact hj
  obtain ⟨hv, j, hj⟩ | ⟨j, k, hjk, hj, hk⟩ := h
  · exact .inl ⟨hv, j, hkept j hj⟩
  · exact .inr ⟨j, k, hjk, hkept j hj, hkept k hk⟩

theorem Forked.withValue {value : Option V} (h : Forked children value) (v : V) :
    Forked children (some v) := by
  obtain ⟨-, hchild⟩ | ⟨j, -, -, hj, -⟩ := h
  · exact .inl ⟨rfl, hchild⟩
  · exact .inl ⟨rfl, j, hj⟩

theorem mem_presentChildren {i : Nibble} {c : H} :
    (i, c) ∈ presentChildren children ↔ children i = some c := by
  unfold presentChildren
  rw [mem_filterMap]
  constructor
  · rintro ⟨j, -, hj⟩
    obtain ⟨d, hd, heq⟩ := Option.map_eq_some_iff.mp hj
    cases heq
    exact hd
  · intro hc
    exact ⟨i, mem_finRange i, by rw [hc]; rfl⟩

/-- The nibbles of the children are distinct. -/
theorem presentChildren_nodup (children : Nibble → Option H) :
    ((presentChildren children).map Prod.fst).Nodup := by
  unfold presentChildren
  rw [map_filterMap]
  refine (nodup_finRange 16).filterMap (fun i j k hi hj => ?_)
  cases hci : children i with
  | none => simp [hci] at hi
  | some c =>
    cases hcj : children j with
    | none => simp [hcj] at hj
    | some d =>
      rw [hci] at hi
      rw [hcj] at hj
      exact (Option.some.inj hi).trans (Option.some.inj hj).symm

variable [Zero H] (look : NodeColumn H V) (normal : Prop)

/-- The node of a hash is a branch. -/
def IsBranch (h : H) : Prop :=
  ∃ children value, look h = some (.branch children value)

/-- **A trie under a hash**, with its content and the lengths its keys may have. -/
inductive Formed (look : NodeColumn H V) (normal : Prop) :
    (ℕ → Prop) → H → (List Nibble → Option V) → Prop
  | leaf {L : ℕ → Prop} {h : H} {key : List Nibble} {value : V} :
      h ≠ 0 → look h = some (.leaf key value) → L key.length →
      Formed look normal L h (single key value)
  | extension {L : ℕ → Prop} {h child : H} {key : List Nibble} {f : List Nibble → Option V} :
      h ≠ 0 → look h = some (.extension key child) → key ≠ [] →
      (normal → IsBranch look child) →
      Formed look normal (fun m => L (m + key.length)) child f →
      Formed look normal L h (under key f)
  | branch {L : ℕ → Prop} {h : H} {children : Nibble → Option H} {value : Option V}
      {g : Nibble → List Nibble → Option V} :
      h ≠ 0 → look h = some (.branch children value) → (normal → Forked children value) →
      (∃ m, L (m + 1)) → (value.isSome → L 0) → (∀ i, children i = none → g i = empty) →
      (∀ i c, children i = some c → Formed look normal (fun m => L (m + 1)) c (g i)) →
      Formed look normal L h (node value g)

/-- A whole trie: nothing, or the trie under its root. -/
def FormedAt (L : ℕ → Prop) (h : H) (f : List Nibble → Option V) : Prop :=
  (h = 0 ∧ f = empty) ∨ Formed look normal L h f

/-- **The children of a branch**, with the content of each. -/
structure FormedChildren (L : ℕ → Prop) (children : Nibble → Option H)
    (g : Nibble → List Nibble → Option V) : Prop where
  absent : ∀ i, children i = none → g i = empty
  present : ∀ i c, children i = some c → Formed look normal L c (g i)

variable {f : List Nibble → Option V} {normal : Prop} {look : NodeColumn H V} {L : ℕ → Prop} {h : H}
  {key : List Nibble}

section Formed

variable {look' : NodeColumn H V}

theorem Formed.ne_zero (hh : Formed look normal L h f) : h ≠ 0 := by
  cases hh <;> assumption

theorem Formed.exists_length (hh : Formed look normal L h f) : ∃ m, L m := by
  induction hh with
  | leaf _ _ hL => exact ⟨_, hL⟩
  | extension _ _ _ _ _ ih => exact ih.imp' (· + _) fun _ hm => hm
  | branch _ _ _ hL => exact hL.imp' (· + 1) fun _ hm => hm

theorem Formed.congr {L' : ℕ → Prop} (hh : Formed look normal L h f) (hL : ∀ m, L m ↔ L' m) :
    Formed look normal L' h f :=
  (funext fun m => propext (hL m) : L = L') ▸ hh

/-- What is formed stays formed when the column grows. -/
theorem Formed.mono (hh : Formed look normal L h f)
    (hle : ∀ {h : H} {node : TrieNode H V}, look h = some node → look' h = some node) :
    Formed look' normal L h f := by
  induction hh with
  | leaf h0 hl hL => exact .leaf h0 (hle hl) hL
  | extension h0 hl hk hb _ ih =>
    exact .extension h0 (hle hl) hk (fun hn => (hb hn).imp fun _ => .imp fun _ => hle) ih
  | branch h0 hl hfork hL hvalue habsent _ ih =>
    exact .branch h0 (hle hl) hfork hL hvalue habsent ih

theorem Formed.length_mem (hh : Formed look normal L h f) {k : List Nibble} (hk : (f k).isSome) :
    L k.length := by
  induction hh generalizing k with
  | leaf _ _ hL =>
    rw [single_apply] at hk
    split at hk
    · exact ‹k = _› ▸ hL
    · cases hk
  | extension _ _ _ _ _ ih =>
    rw [under_apply] at hk
    split at hk
    · obtain ⟨rest, rfl⟩ := ‹_ <+: k›
      rw [drop_left] at hk
      rw [length_append, add_comm]
      exact ih hk
    · cases hk
  | @branch _ _ children _ _ _ _ _ _ hvalue habsent _ ih =>
    cases k with
    | nil => exact hvalue hk
    | cons i rest =>
      cases hc : children i with
      | none =>
        have hempty : (empty rest : Option V).isSome := habsent i hc ▸ hk
        cases hempty
      | some c => exact ih i c hc hk

theorem FormedChildren.mono (hch : FormedChildren look normal L children g)
    (hle : ∀ {h : H} {node : TrieNode H V}, look h = some node → look' h = some node) :
    FormedChildren look' normal L children g :=
  ⟨hch.absent, fun i c hc => (hch.present i c hc).mono hle⟩

theorem FormedChildren.update (hch : FormedChildren look normal L children g) (i : Nibble)
    {c : Option H} (hnone : c = none → f = empty) (hsome : ∀ d, c = some d → Formed look normal L d f) :
    FormedChildren look normal L (update children i c) (update g i f) := by
  constructor
  · intro j hj
    by_cases hji : j = i
    · subst hji
      rw [update_self] at hj ⊢
      exact hnone hj
    · rw [update_of_ne hji] at hj ⊢
      exact hch.absent j hj
  · intro j d hd
    by_cases hji : j = i
    · subst hji
      rw [update_self] at hd ⊢
      exact hsome d hd
    · rw [update_of_ne hji] at hd ⊢
      exact hch.present j d hd

end Formed

/-! ## Lookup -/

variable {fuel : ℕ} {ext leafKey : List Nibble}

theorem exists_succ_of_lt {n : ℕ} (h : n < fuel) : ∃ k, fuel = k + 1 :=
  exists_eq_succ_of_ne_zero (ne_of_gt (zero_lt_of_lt h))

variable {dirty db : NodeColumn H V}

section Lookup

variable [DecidableEq H]

theorem getNode_of_nodeAt {node : TrieNode H V} (h0 : h ≠ 0) (hn : nodeAt db dirty h = some node) :
    getNode db dirty h = .ok node := by
  unfold getNode
  rw [if_neg h0, hn]

theorem getNode_bind {node : TrieNode H V} {R : Type} (h0 : h ≠ 0)
    (hn : nodeAt db dirty h = some node) (k : TrieNode H V → Except (TrieError H) R) :
    (getNode db dirty h >>= k) = k node := by
  rw [getNode_of_nodeAt h0 hn]
  rfl

/-- A lookup reads the content, whatever the length of the key. -/
theorem Formed.getAt_eq (hh : Formed (nodeAt db dirty) normal L h f) (hfuel : key.length < fuel) :
    getAt db dirty fuel h key = .ok (f key) := by
  induction hh generalizing fuel key with
  | leaf h0 hl =>
    obtain ⟨fuel, rfl⟩ := exists_succ_of_lt hfuel
    unfold getAt
    rw [if_neg h0, getNode_bind h0 hl, single_apply]
  | @extension _ h child ext f h0 hl hk _ _ ih =>
    obtain ⟨fuel, rfl⟩ := exists_succ_of_lt hfuel
    have hpos : 0 < ext.length := length_pos_iff.mpr hk
    unfold getAt
    rw [if_neg h0, getNode_bind h0 hl, under_apply]
    dsimp only
    split
    · rename_i hpre
      have hle := hpre.length_le
      refine ih ?_
      rw [length_drop]
      omega
    · rfl
  | @branch _ h children value g h0 hl _ _ _ habsent _ ih =>
    obtain ⟨fuel, rfl⟩ := exists_succ_of_lt hfuel
    unfold getAt
    rw [if_neg h0, getNode_bind h0 hl]
    cases key with
    | nil => rfl
    | cons i rest =>
      dsimp only
      show _ = Except.ok (g i rest)
      cases hc : children i with
      | none => rw [habsent i hc]; rfl
      | some c => exact ih i c hc (lt_of_succ_lt_succ hfuel)

theorem FormedAt.get_eq {t : Trie H V} (hh : FormedAt (nodeAt db t.dirty) normal L t.root f)
    (key : List Nibble) : t.get db key = .ok (f key) := by
  unfold Trie.get
  obtain ⟨h0, rfl⟩ | hh := hh
  · rw [if_pos h0]
    rfl
  · rw [if_neg hh.ne_zero]
    exact hh.getAt_eq (lt_succ_self _)

end Lookup

/-! ## Growing columns -/

section Grow

variable [Digest H (TrieNode H V)]

/-- Every node is filed under its own hash. -/
def SoundColumn (look : NodeColumn H V) : Prop :=
  ∀ h node, look h = some node → h ≠ 0 ∧ node.hash = h

/-- The column `look'` has the nodes of `look`, and is sound. -/
structure Grows (look look' : NodeColumn H V) : Prop where
  sound : SoundColumn look'
  keeps : ∀ {h : H} {node : TrieNode H V}, look h = some node → look' h = some node

theorem Grows.refl (h : SoundColumn look) : Grows look look :=
  ⟨h, fun hn => hn⟩

theorem Grows.trans {look look' look'' : NodeColumn H V} (h : Grows look look')
    (h' : Grows look' look'') : Grows look look'' :=
  ⟨h'.sound, fun hn => h'.keeps (h.keeps hn)⟩

variable [DecidableEq H]

/-- A stored node is found under its hash. -/
theorem storeNode_grows {db dirty : NodeColumn H V} (hs : SoundColumn (nodeAt db dirty))
    {node : TrieNode H V} (hne : node ≠ .empty) :
    Grows (nodeAt db dirty) (nodeAt db (storeNode dirty node).2) ∧
      (storeNode dirty node).1 ≠ 0 ∧
      nodeAt db (storeNode dirty node).2 (storeNode dirty node).1 = some node := by
  have hhash : ∀ n : TrieNode H V, n ≠ .empty → n.hash = Digest.digest n := by
    intro n hn
    cases n with
    | empty => exact absurd rfl hn
    | _ => rfl
  have hdigest := hhash node hne
  have h0 : node.hash ≠ 0 := by
    rw [hdigest]
    exact Digest.digest_ne_zero _
  have hself : nodeAt db (storeNode dirty node).2 node.hash = some node := by
    unfold nodeAt storeNode
    rw [if_pos h0]
    show (update dirty node.hash (some node) node.hash).or _ = _
    rw [update_self]
    rfl
  have hother : ∀ h, h ≠ node.hash →
      nodeAt db (storeNode dirty node).2 h = nodeAt db dirty h := by
    intro h hh
    unfold nodeAt storeNode
    rw [if_pos h0]
    show (update dirty node.hash (some node) h).or _ = _
    rw [update_of_ne hh]
  refine ⟨⟨?_, ?_⟩, h0, hself⟩
  · intro h other hn
    by_cases hh : h = node.hash
    · rw [hh, hself] at hn
      cases hn
      exact ⟨hh ▸ h0, hh.symm⟩
    · rw [hother h hh] at hn
      exact hs h other hn
  · intro h other hn
    by_cases hh : h = node.hash
    · -- a node already filed under this hash is the same node
      obtain ⟨hz, hother⟩ := hs h other hn
      have hdigest' := hhash other fun hempty => hz (by rw [← hother, hempty]; rfl)
      rw [hdigest', hh, hdigest] at hother
      rw [hh, hself, Digest.digest_injective (H := H) hother]
    · rw [hother h hh]
      exact hn

end Grow

/-! ## Insertion -/

/-- **No leaf is in the way of a key**: a key in the map that is a proper prefix
of it is a proper prefix of another key in the map, and so sits on a branch. -/
def Room (f : List Nibble → Option V) (key : List Nibble) : Prop :=
  ∀ p, (f p).isSome → p <+: key → p ≠ key → ∃ q, (f q).isSome ∧ p <+: q ∧ q ≠ p

section Room

omit [Zero H]

variable {rest : List Nibble}

theorem under_append_apply (p k : List Nibble) (f : List Nibble → Option V) :
    PathMap.under p f (p ++ k) = f k := by
  rw [under_apply, if_pos (prefix_append _ _), drop_left]

theorem Room.under (h : Room (under ext f) (ext ++ rest)) : Room f rest := by
  intro p hp hpre hne
  obtain ⟨q, hq, hpq, hqp⟩ := h (ext ++ p) (by rwa [under_append_apply])
    ((prefix_append_right_inj ext).mpr hpre) (fun heq => hne (append_cancel_left heq))
  obtain ⟨r, rfl⟩ := hpq
  refine ⟨p ++ r, ?_, prefix_append _ _, fun heq => hqp (by rw [append_assoc, heq])⟩
  rwa [append_assoc, under_append_apply] at hq

theorem Room.child {value : Option V} {i : Nibble}
    (h : Room (node value g) (i :: rest)) : Room (g i) rest := by
  intro p hp hpre hne
  obtain ⟨q, hq, hpq, hqp⟩ := h (i :: p) hp (cons_prefix_cons.mpr ⟨rfl, hpre⟩)
    (fun heq => hne (cons.inj heq).2)
  obtain ⟨r, rfl⟩ := hpq
  exact ⟨p ++ r, hq, prefix_append _ _, fun heq => hqp (congrArg (cons i) heq)⟩

/-- A single key has no room below it. -/
theorem Room.eq_of_prefix {value : V} (h : Room (single leafKey value) key) (hpre : leafKey <+: key) :
    leafKey = key := by
  by_contra hne
  obtain ⟨q, hq, -, hqp⟩ := h leafKey (by rw [single_apply, if_pos rfl]; rfl) hpre hne
  rw [single_apply, if_neg hqp] at hq
  cases hq

theorem update_under_split (pre tail rest' : List Nibble) (j : Nibble)
    (f : List Nibble → Option V) (value : V) :
    update (under (pre ++ j :: rest') f) (pre ++ tail) (some value)
      = under pre (update (fork (update (fun _ => empty) j (under rest' f)))
        tail (some value)) := by
  rw [under_append, under_cons, under_update]

end Room

/-- A key that does not extend another one leaves it before its end. -/
theorem commonPrefixLen_part (hne : ¬ ext <+: key) :
    ∃ pre tail j rest', key = pre ++ tail ∧ ext = pre ++ j :: rest' ∧
      (∀ i rest, tail = i :: rest → i ≠ j) ∧ commonPrefixLen key ext = pre.length := by
  induction ext generalizing key with
  | nil => exact absurd nil_prefix hne
  | cons b ext ih =>
    cases key with
    | nil => exact ⟨[], [], b, ext, rfl, rfl, (fun _ _ h => nomatch h), rfl⟩
    | cons a key =>
      by_cases hab : a = b
      · subst hab
        rw [cons_prefix_cons] at hne
        obtain ⟨pre, tail, j, rest', hk, he, hij, hn⟩ := ih (fun h => hne ⟨rfl, h⟩)
        refine ⟨a :: pre, tail, j, rest', by rw [hk]; rfl, by rw [he]; rfl, hij, ?_⟩
        unfold commonPrefixLen
        rw [if_pos rfl, hn]
        rfl
      · refine ⟨[], a :: key, b, ext, rfl, rfl, ?_, ?_⟩
        · rintro i rest heq
          cases heq
          exact hab
        · unfold commonPrefixLen
          rw [if_neg hab]
          rfl

theorem commonPrefixLen_eq_length {key : List Nibble} :
    commonPrefixLen key ext = ext.length ↔ ext <+: key := by
  induction ext generalizing key with
  | nil =>
    refine ⟨fun _ => nil_prefix, fun _ => ?_⟩
    cases key <;> rfl
  | cons b ext ih =>
    cases key with
    | nil =>
      unfold commonPrefixLen
      simp
    | cons a key =>
      unfold commonPrefixLen
      rw [cons_prefix_cons]
      split
      · rename_i hab
        rw [length_cons, add_right_cancel_iff, ih]
        exact ⟨fun h => ⟨hab.symm, h⟩, fun h => h.2⟩
      · rename_i hab
        exact ⟨fun h => absurd h.symm (succ_ne_zero _), fun h => absurd h.1.symm hab⟩

section Write

variable [Digest H (TrieNode H V)] [DecidableEq H]

/-- A stored node, with the content below it. -/
structure StoredFormed (db dirty : NodeColumn H V) (normal : Prop) (L : ℕ → Prop)
    (r : H × NodeColumn H V) (f : List Nibble → Option V) : Prop where
  grows : Grows (nodeAt db dirty) (nodeAt db r.2)
  formed : Formed (nodeAt db r.2) normal L r.1 f

omit [DecidableEq H] in
theorem StoredFormed.after {dirty' : NodeColumn H V} {r : H × NodeColumn H V}
    (h : StoredFormed db dirty' normal L r f) (hg : Grows (nodeAt db dirty) (nodeAt db dirty')) :
    StoredFormed db dirty normal L r f :=
  ⟨hg.trans h.grows, h.formed⟩

section Sound

variable (hs : SoundColumn (nodeAt db dirty)) {child : H}
include hs

theorem storedFormed_leaf (value : V) (hL : L key.length) :
    StoredFormed db dirty normal L (storeNode dirty (.leaf key value)) (single key value) := by
  obtain ⟨hg, h0, hn⟩ := storeNode_grows hs
    (show (TrieNode.leaf key value : TrieNode H V) ≠ .empty by simp)
  exact ⟨hg, .leaf h0 hn hL⟩

theorem storedFormed_extension (hk : key ≠ [])
    (hb : normal → IsBranch (nodeAt db dirty) child)
    (hf : Formed (nodeAt db dirty) normal (fun m => L (m + key.length)) child f) :
    StoredFormed db dirty normal L (storeNode dirty (.extension key child)) (under key f) := by
  obtain ⟨hg, h0, hn⟩ := storeNode_grows hs
    (show (TrieNode.extension key child : TrieNode H V) ≠ .empty by simp)
  exact ⟨hg, .extension h0 hn hk (fun hn => (hb hn).imp fun _ => .imp fun _ => hg.keeps)
    (hf.mono hg.keeps)⟩

variable {pre tail : List Nibble}

theorem storedFormed_branch {value : Option V}
    (hfork : normal → Forked children value) (hL : ∃ m, L (m + 1)) (hvalue : value.isSome → L 0)
    (hch : FormedChildren (nodeAt db dirty) normal (fun m => L (m + 1)) children g) :
    StoredFormed db dirty normal L (storeNode dirty (.branch children value)) (node value g) ∧
      IsBranch (nodeAt db (storeNode dirty (.branch children value)).2)
        (storeNode dirty (.branch children value)).1 := by
  obtain ⟨hg, h0, hn⟩ := storeNode_grows hs
    (show (TrieNode.branch children value : TrieNode H V) ≠ .empty by simp)
  have hch' := hch.mono hg.keeps
  exact ⟨⟨hg, .branch h0 hn hfork hL hvalue hch'.absent hch'.present⟩, children, value, hn⟩

omit hs in
/-- A branch below the part that two keys share, if they share one. -/
theorem StoredFormed.below {r : H × NodeColumn H V}
    (hst : StoredFormed db dirty normal (fun m => L (m + pre.length)) r f)
    (hb : IsBranch (nodeAt db r.2) r.1) :
    StoredFormed db dirty normal L
      (if 0 < pre.length then storeNode r.2 (.extension pre r.1) else (r.1, r.2))
      (under pre f) := by
  by_cases hpre : pre = []
  · subst hpre
    exact hst
  · rw [if_pos (length_pos_iff.mpr hpre)]
    exact (storedFormed_extension hst.grows.sound hpre (fun _ => hb) hst.formed).after hst.grows

/-- The new entry of a split: at the branch, or below a nibble of its
own. -/
theorem splitWith_formed (value : V) (hkey : L (pre ++ tail).length)
    (hch : FormedChildren (nodeAt db dirty) normal (fun m => L (m + 1 + pre.length)) children g)
    {j : Nibble} (hj : (children j).isSome) (hfree : ∀ i rest, tail = i :: rest → children i = none)
    :
    StoredFormed db dirty normal L
      (splitWith dirty children pre.length (pre ++ tail) value)
      (under pre (update (fork g) tail (some value))) := by
  obtain ⟨c, hc⟩ := Option.isSome_iff_exists.mp hj
  have hL := (hch.present j c hc).exists_length
  rw [length_append, add_comm] at hkey
  unfold splitWith
  rw [drop_left, take_left, fork_eq_node]
  cases tail with
  | nil =>
    rw [update_node_nil]
    have hfork : Forked children (some value) := .inl ⟨rfl, j, hj⟩
    obtain ⟨hst, hb⟩ := storedFormed_branch (L := fun m => L (m + pre.length)) hs
      (fun _ => hfork) hL (fun _ => hkey) hch
    exact hst.below hb
  | cons i rest =>
    have hi := hfree i rest rfl
    have hleaf : StoredFormed db dirty normal (fun m => L (m + 1 + pre.length)) _ _ :=
      storedFormed_leaf hs value hkey
    obtain ⟨hst, hb⟩ := storedFormed_branch (L := fun m => L (m + pre.length)) hleaf.grows.sound
      (fun _ => forked_update hj hi (storeNode dirty (.leaf rest value)).1 none) hL nofun
      ((hch.mono hleaf.grows.keeps).update i nofun (fun d hd => by cases hd; exact hleaf.formed))
    rw [← node_update, hch.absent i hi]
    exact (hst.after hleaf.grows).below hb

/-- A split that keeps the old entries below the nibble `j`. -/
theorem splitWith_old {old : H}
    (hold : Formed (nodeAt db dirty) normal (fun m => L (m + 1 + pre.length)) old f) {j : Nibble}
    (hj : ∀ i rest, tail = i :: rest → i ≠ j) (value : V) (hkey : L (pre ++ tail).length) :
    StoredFormed db dirty normal L (splitWith dirty
        (update (fun _ => none) j (some old)) pre.length (pre ++ tail) value)
      (under pre (update (fork (update (fun _ => empty) j f)) tail
        (some value))) := by
  have hnone : FormedChildren (nodeAt db dirty) normal (fun m => L (m + 1 + pre.length))
      (fun _ => none) (fun _ => empty) := ⟨fun _ _ => rfl, nofun⟩
  refine splitWith_formed hs value hkey
    (hnone.update j (c := some old) nofun (fun d hd => by cases hd; exact hold)) (j := j) ?_
    (fun i rest htail => ?_)
  · rw [update_self]
    rfl
  · rw [update_of_ne (hj i rest htail)]

/-- A leaf that is split keeps its entry, unless the new key extends it. -/
theorem splitLeaf_formed (value leafValue : V) (hne : ¬ leafKey <+: key)
    (hkey : L key.length) (hleaf : L leafKey.length) :
    StoredFormed db dirty normal L (splitLeaf dirty key value leafKey leafValue)
      (update (single leafKey leafValue) key (some value)) := by
  obtain ⟨pre, tail, j, rest', rfl, rfl, hij, hn⟩ := commonPrefixLen_part hne
  rw [length_append, add_comm] at hleaf
  have hold : StoredFormed db dirty normal (fun m => L (m + 1 + pre.length)) _ _ :=
    storedFormed_leaf hs leafValue hleaf
  have hcontent := update_under_split pre tail rest' j (single [] leafValue) value
  rw [under_single, under_single, append_nil, append_nil] at hcontent
  unfold splitLeaf
  rw [hn]
  dsimp only
  rw [drop_left, hcontent]
  exact (splitWith_old hold.grows.sound hold.formed hij value hkey).after hold.grows

variable {extKey : List Nibble}

/-- An extension that is split keeps its entries. -/
theorem splitExtension_formed (value : V) (hne : ¬ extKey <+: key)
    (hkey : L key.length) (hb : normal → IsBranch (nodeAt db dirty) child)
    (hf : Formed (nodeAt db dirty) normal (fun m => L (m + extKey.length)) child f) :
    StoredFormed db dirty normal L (splitExtension dirty key value extKey child)
      (update (under extKey f) key (some value)) := by
  obtain ⟨pre, tail, j, rest', rfl, rfl, hij, hn⟩ := commonPrefixLen_part hne
  have hbelow : Formed (nodeAt db dirty) normal (fun m => L (m + rest'.length + 1 + pre.length))
      child f := by
    refine hf.congr fun m => ?_
    rw [length_append, length_cons, add_comm pre.length, ← add_assoc, ← add_assoc]
  rw [update_under_split]
  unfold splitExtension
  rw [hn]
  dsimp only
  rw [drop_left]
  cases rest' with
  | nil => exact splitWith_old hs hbelow hij value hkey
  | cons a rest' =>
    have hold := storedFormed_extension (L := fun m => L (m + 1 + pre.length)) hs
      (cons_ne_nil a rest') hb hbelow
    exact (splitWith_old hold.grows.sound hold.formed hij value hkey).after hold.grows

/-- Insertion sets one entry of the content where there is room for it, and
a branch stays a branch. -/
theorem Formed.insertAt_formed {fuel : ℕ} {h : H} (hh : Formed (nodeAt db dirty) normal L h f)
    (value : V) (hkey : L key.length) (hroom : Room f key)
    (hfuel : key.length < fuel) : ∃ r, insertAt db fuel dirty h key value = .ok r ∧
      StoredFormed db dirty normal L r (update f key (some value)) ∧
      (IsBranch (nodeAt db dirty) h → IsBranch (nodeAt db r.2) r.1) := by
  induction hh generalizing fuel key with
  | @leaf L h leafKey leafValue h0 hl hL =>
    obtain ⟨fuel, rfl⟩ := exists_succ_of_lt hfuel
    have hnot : ¬ IsBranch (nodeAt db dirty) h := by
      rintro ⟨_, _, hb⟩
      cases hl.symm.trans hb
    unfold insertAt
    rw [if_neg h0, getNode_bind h0 hl]
    dsimp only
    split
    · rename_i heq
      subst heq
      refine ⟨_, rfl, ?_, fun hb => absurd hb hnot⟩
      have hsame : update (single key leafValue) key (some value) = single key value :=
        update_idem _ _ _
      rw [hsame]
      exact storedFormed_leaf hs value hL
    · rename_i hne
      refine ⟨_, rfl, ?_, fun hb => absurd hb hnot⟩
      exact splitLeaf_formed hs value leafValue (fun hpre => hne (hroom.eq_of_prefix hpre).symm)
        hkey hL
  | @extension L h child extKey f h0 hl hk hb hf ih =>
    obtain ⟨fuel, rfl⟩ := exists_succ_of_lt hfuel
    have hpos : 0 < extKey.length := length_pos_iff.mpr hk
    have hnot : ¬ IsBranch (nodeAt db dirty) h := by
      rintro ⟨_, _, hb⟩
      cases hl.symm.trans hb
    unfold insertAt
    rw [if_neg h0, getNode_bind h0 hl]
    dsimp only
    split
    · rename_i hpre
      obtain ⟨rest, rfl⟩ := commonPrefixLen_eq_length.mp hpre
      rw [drop_left]
      rw [length_append, add_comm] at hfuel hkey
      obtain ⟨⟨c, d⟩, hrec, hst, hb'⟩ := ih hkey hroom.under (show rest.length < fuel by omega)
      rw [hrec]
      have hext := storedFormed_extension hst.grows.sound hk (fun hn => hb' (hb hn)) hst.formed
      refine ⟨_, rfl, ?_, fun hb => absurd hb hnot⟩
      rw [← under_update]
      exact hext.after hst.grows
    · rename_i hpre
      refine ⟨_, rfl, ?_, fun hb => absurd hb hnot⟩
      exact splitExtension_formed hs value
        (fun h => hpre (commonPrefixLen_eq_length.mpr h)) hkey hb hf
  | @branch L h children bvalue g h0 hl hfork hL hvalue habsent hch ih =>
    obtain ⟨fuel, rfl⟩ := exists_succ_of_lt hfuel
    unfold insertAt
    rw [if_neg h0, getNode_bind h0 hl]
    cases key with
    | nil =>
      obtain ⟨hst, hb⟩ := storedFormed_branch hs (fun hn => (hfork hn).withValue value) hL
        (fun _ => hkey) ⟨habsent, hch⟩
      refine ⟨_, rfl, ?_, fun _ => hb⟩
      rw [update_node_nil]
      exact hst
    | cons i rest =>
      dsimp only
      have hrest : rest.length < fuel := lt_of_succ_lt_succ hfuel
      -- an absent child is the empty trie
      obtain ⟨⟨c, d⟩, hrec, hst⟩ : ∃ r, insertAt db fuel dirty ((children i).getD 0) rest value
          = .ok r ∧ StoredFormed db dirty normal (fun m => L (m + 1)) r
            (update (g i) rest (some value)) := by
        cases hc : children i with
        | some c =>
          obtain ⟨r, hr, hst, -⟩ := ih i c hc hkey hroom.child hrest
          exact ⟨r, hr, hst⟩
        | none =>
          obtain ⟨fuel, rfl⟩ := exists_succ_of_lt hrest
          unfold insertAt
          rw [Option.getD_none, if_pos rfl, habsent i hc]
          exact ⟨_, rfl, storedFormed_leaf hs value hkey⟩
      rw [hrec]
      have hkept := (FormedChildren.mk habsent hch).mono hst.grows.keeps
      obtain ⟨hbranch, hb⟩ := storedFormed_branch hst.grows.sound
        (fun hn => (hfork hn).update i c) hL hvalue
        (hkept.update i (by simp) (fun e he => by cases he; exact hst.formed))
      refine ⟨_, rfl, ?_, fun _ => hb⟩
      rw [← node_update]
      exact hbranch.after hst.grows

/-! ## Deletion -/

/-- An extension over a changed child merges with it where the normal form
asks for it. -/
theorem extendOver_formed (hk : extKey ≠ [])
    (hf : Formed (nodeAt db dirty) normal (fun m => L (m + extKey.length)) child f) :
    ∃ r, extendOver db dirty extKey child = .ok r ∧
      StoredFormed db dirty normal L r (under extKey f) := by
  unfold extendOver
  cases hf with
  | @leaf _ _ key value h0 hl hL =>
    rw [getNode_bind h0 hl]
    refine ⟨_, rfl, ?_⟩
    rw [under_single]
    refine storedFormed_leaf hs value ?_
    rw [length_append, add_comm]
    exact hL
  | @extension _ _ grandchild key f h0 hl hk' hb hf =>
    rw [getNode_bind h0 hl]
    refine ⟨_, rfl, ?_⟩
    rw [← under_append]
    refine storedFormed_extension hs (append_ne_nil_of_left_ne_nil hk _) hb
      (hf.congr fun m => ?_)
    rw [length_append, add_comm extKey.length, ← add_assoc]
  | @branch _ _ children value g h0 hl hfork hL hvalue habsent hch =>
    rw [getNode_bind h0 hl]
    exact ⟨_, rfl, storedFormed_extension hs hk (fun _ => ⟨children, value, hl⟩)
      (.branch h0 hl hfork hL hvalue habsent hch)⟩

/-- A branch that lost an entry holds the rest, in normal form again. -/
theorem maybeCollapseBranch_formed (value : Option V) (hL : ∃ m, L (m + 1))
    (hvalue : value.isSome → L 0)
    (hch : FormedChildren (nodeAt db dirty) normal (fun m => L (m + 1)) children g) :
    ∃ r, maybeCollapseBranch db dirty children value = .ok r ∧
      Grows (nodeAt db dirty) (nodeAt db r.2) ∧
      FormedAt (nodeAt db r.2) normal L r.1 (node value g) := by
  have hmem : ∀ {i c}, (i, c) ∈ presentChildren children ↔ children i = some c :=
    mem_presentChildren
  have hgone : ∀ {i}, (∀ c, (i, c) ∉ presentChildren children) → g i = empty := by
    intro i hi
    refine hch.absent i (Option.eq_none_iff_forall_ne_some.mpr (fun c hc => hi c (hmem.mpr hc)))
  unfold maybeCollapseBranch
  cases hp : presentChildren children with
  | nil =>
    have hg : g = fun _ => empty := funext (fun i => hgone (fun c => by rw [hp]; simp))
    have hnode : node value g = update empty [] value := by
      rw [hg, ← update_node_nil none, ← fork_eq_node, fork_empty]
    rw [hnode]
    cases value with
    | some v =>
      have hst : StoredFormed db dirty normal L _ (single [] v) :=
        storedFormed_leaf hs v (hvalue rfl)
      exact ⟨_, rfl, hst.grows, .inr hst.formed⟩
    | none => exact ⟨_, rfl, .refl hs, .inl ⟨rfl, update_eq_self [] _⟩⟩
  | cons p l =>
    obtain ⟨i, c⟩ := p
    have hci : children i = some c := hmem.mp (by rw [hp]; exact mem_cons_self)
    have hsome : (children i).isSome := by rw [hci]; rfl
    -- what is left still parts two entries, or goes over the one child
    have hkeep : Forked children value → ∃ r : H × NodeColumn H V,
        Except.ok (storeNode dirty (.branch children value)) = (.ok r : Except (TrieError H) _) ∧
          Grows (nodeAt db dirty) (nodeAt db r.2) ∧
          FormedAt (nodeAt db r.2) normal L r.1 (node value g) := by
      intro hfork
      obtain ⟨hst, -⟩ := storedFormed_branch hs (fun _ => hfork) hL hvalue hch
      exact ⟨_, rfl, hst.grows, .inr hst.formed⟩
    cases l with
    | nil =>
      cases value with
      | some v => exact hkeep (.inl ⟨rfl, i, hsome⟩)
      | none =>
        have hg : node none g = under [i] (g i) := by
          rw [under_cons, under_nil, ← fork_eq_node]
          congr 1
          funext j
          by_cases hji : j = i
          · rw [hji, update_self]
          · rw [update_of_ne hji]
            refine hgone (fun d hd => ?_)
            rw [hp, mem_singleton] at hd
            exact hji (Prod.mk.inj hd).1
        obtain ⟨r, hr, hst⟩ := extendOver_formed hs (cons_ne_nil i []) (hch.present i c hci)
        refine ⟨r, hr, hst.grows, ?_⟩
        rw [hg]
        exact .inr hst.formed
    | cons q l =>
      obtain ⟨j, d⟩ := q
      have hcj : children j = some d := hmem.mp (by rw [hp]; simp)
      have hij : i ≠ j := by
        have hnodup := presentChildren_nodup children
        rw [hp, map_cons, map_cons] at hnodup
        intro heq
        exact (nodup_cons.mp hnodup).1 (by rw [heq]; exact mem_cons_self)
      have hfork : Forked children value := .inr ⟨i, j, hij, hsome, by rw [hcj]; rfl⟩
      cases value <;> exact hkeep hfork

/-- Deletion clears one entry of the content, and says whether there was
one. -/
theorem Formed.deleteAt_formed (hh : Formed (nodeAt db dirty) normal L h f) (hfuel : key.length < fuel) :
    ∃ r dirty', deleteAt db fuel dirty h key = .ok (r, dirty') ∧
      Grows (nodeAt db dirty) (nodeAt db dirty') ∧ r.isSome = (f key).isSome ∧
      ∀ h', r = some h' → FormedAt (nodeAt db dirty') normal L h' (update f key none) := by
  induction hh generalizing fuel key with
  | @leaf _ h leafKey leafValue h0 hl =>
    obtain ⟨fuel, rfl⟩ := exists_succ_of_lt hfuel
    unfold deleteAt
    rw [if_neg h0, getNode_bind h0 hl]
    refine ⟨_, dirty, rfl, .refl hs, ?_, fun h' hr => ?_⟩
    · rw [single_apply]
      split
      · rfl
      · rfl
    · split at hr
      · rename_i heq
        cases hr
        subst heq
        refine .inl ⟨rfl, ?_⟩
        unfold single
        rw [update_idem]
        exact update_eq_self key _
      · cases hr
  | @extension _ h child extKey f h0 hl hk hb hf ih =>
    obtain ⟨fuel, rfl⟩ := exists_succ_of_lt hfuel
    have hpos : 0 < extKey.length := length_pos_iff.mpr hk
    unfold deleteAt
    rw [if_neg h0, getNode_bind h0 hl]
    dsimp only
    split
    · rename_i hpre
      obtain ⟨rest, rfl⟩ := hpre
      rw [drop_left, under_append_apply]
      rw [length_append] at hfuel
      obtain ⟨r, d, hrec, hg, hflag, hsome⟩ := ih (show rest.length < fuel by omega)
      rw [hrec]
      cases r with
      | none => exact ⟨none, d, rfl, hg, hflag, by simp⟩
      | some c =>
        dsimp only [bind, Except.bind]
        by_cases hcz : c = 0
        · rw [if_pos hcz]
          refine ⟨_, d, rfl, hg, hflag, fun h' hr => ?_⟩
          cases hr
          obtain ⟨-, hempty⟩ | hheld := hsome c rfl
          · refine .inl ⟨rfl, ?_⟩
            rw [← under_update, hempty, under_empty]
          · exact absurd hcz hheld.ne_zero
        · rw [if_neg hcz]
          have hheld := (hsome c rfl).resolve_left (fun h => hcz h.1)
          obtain ⟨r, hr, hst⟩ := extendOver_formed hg.sound hk hheld
          rw [hr]
          refine ⟨_, _, rfl, hg.trans hst.grows, hflag, fun h' hr => ?_⟩
          cases hr
          rw [← under_update]
          exact .inr hst.formed
    · rename_i hpre
      refine ⟨none, dirty, rfl, .refl hs, ?_, by simp⟩
      rw [under_apply, if_neg hpre]
      rfl
  | @branch L h children value g h0 hl hfork hL hvalue habsent hch ih =>
    obtain ⟨fuel, rfl⟩ := exists_succ_of_lt hfuel
    unfold deleteAt
    rw [if_neg h0, getNode_bind h0 hl]
    cases key with
    | nil =>
      dsimp only
      cases value with
      | none => exact ⟨none, dirty, rfl, .refl hs, rfl, by simp⟩
      | some v =>
        obtain ⟨r, hr, hg, hheld⟩ := maybeCollapseBranch_formed hs none hL (by simp) ⟨habsent, hch⟩
        rw [if_neg (by simp), hr]
        refine ⟨_, _, rfl, hg, rfl, fun h' hr => ?_⟩
        cases hr
        rw [update_node_nil]
        exact hheld
    | cons i rest =>
      dsimp only
      cases hc : children i with
      | none =>
        refine ⟨none, dirty, rfl, .refl hs, ?_, by simp⟩
        show _ = (g i rest).isSome
        rw [habsent i hc]
        rfl
      | some c =>
        obtain ⟨r, d, hrec, hg, hflag, hsome⟩ := ih i c hc (lt_of_succ_lt_succ hfuel)
        dsimp only
        rw [hrec]
        cases r with
        | none => exact ⟨none, d, rfl, hg, hflag, by simp⟩
        | some c' =>
          dsimp only [bind, Except.bind]
          have hch' : FormedChildren (nodeAt db d) normal (fun m => L (m + 1))
              (update children i (if c' = 0 then none else some c'))
              (update g i (update (g i) rest none)) := by
            refine ((FormedChildren.mk habsent hch).mono hg.keeps).update i ?_ ?_
            · intro hnone
              have hcz : c' = 0 := by
                by_contra hcz
                rw [if_neg hcz] at hnone
                cases hnone
              obtain ⟨-, hempty⟩ | hheld := hsome c' rfl
              · exact hempty
              · exact absurd hcz hheld.ne_zero
            · intro e he
              split at he
              · cases he
              · rename_i hcz
                cases he
                exact (hsome c' rfl).resolve_left (fun h => hcz h.1)
          obtain ⟨r, hr, hgr, hheld⟩ := maybeCollapseBranch_formed hg.sound value hL hvalue hch'
          rw [hr]
          refine ⟨_, _, rfl, hg.trans hgr, hflag, fun h' hr => ?_⟩
          cases hr
          rw [← node_update]
          exact hheld

end Sound

/-! ## A whole trie -/

/-- What `delete` returns: whether the key was there. -/
def Trie.deleted (db : NodeColumn H V) (t : Trie H V) (key : List Nibble) :
    Except (TrieError H) Bool :=
  if t.root = 0 then .ok false
  else do
    let (root, _) ← deleteAt db (key.length + 1) t.dirty t.root key
    return root.isSome

section Whole

variable {t : Trie H V} (hh : FormedAt (nodeAt db t.dirty) normal L t.root f)
  (hs : SoundColumn (nodeAt db t.dirty))
include hh hs

theorem FormedAt.insert_eq (hkey : L key.length) (hroom : Room f key) (value : V) :
    ∃ t', t.insert db key value = .ok t' ∧ Grows (nodeAt db t.dirty) (nodeAt db t'.dirty) ∧
      FormedAt (nodeAt db t'.dirty) normal L t'.root (update f key (some value)) := by
  unfold Trie.insert
  obtain ⟨h0, rfl⟩ | hc := hh
  · have hstored : StoredFormed db t.dirty normal L _ _ := storedFormed_leaf hs value hkey
    refine ⟨⟨_, _⟩, ?_, hstored.grows, .inr hstored.formed⟩
    unfold insertAt
    rw [if_pos h0]
    rfl
  · obtain ⟨r, hr, hstored, -⟩ := hc.insertAt_formed hs value hkey hroom (lt_succ_self _)
    refine ⟨⟨r.1, r.2⟩, ?_, hstored.grows, .inr hstored.formed⟩
    rw [hr]
    rfl

theorem FormedAt.delete_eq (key : List Nibble) :
    ∃ t', t.delete db key = .ok t' ∧ t.deleted db key = .ok (f key).isSome ∧
      Grows (nodeAt db t.dirty) (nodeAt db t'.dirty) ∧
      FormedAt (nodeAt db t'.dirty) normal L t'.root (update f key none) := by
  -- a deletion that finds nothing leaves the content as it is
  have habsent : (f key).isSome = false → update f key none = f := by
    intro hnone
    rw [← Option.isNone_iff_eq_none.mp (by rw [← Option.not_isSome, hnone]; rfl)]
    exact update_eq_self key f
  unfold delete deleted
  obtain ⟨h0, rfl⟩ | hc := hh
  · rw [if_pos h0, if_pos h0, habsent rfl]
    exact ⟨t, rfl, rfl, .refl hs, .inl ⟨h0, rfl⟩⟩
  · obtain ⟨r, dirty, hr, hgrows, hsome, hnew⟩ :=
      hc.deleteAt_formed hs (lt_succ_self key.length)
    rw [if_neg hc.ne_zero, if_neg hc.ne_zero, hr, ← hsome]
    refine ⟨_, rfl, rfl, hgrows, ?_⟩
    cases r with
    | none =>
      rw [habsent hsome.symm]
      exact .inr (hc.mono hgrows.keeps)
    | some h' => exact hnew h' rfl

end Whole

end Write

end Qfc
