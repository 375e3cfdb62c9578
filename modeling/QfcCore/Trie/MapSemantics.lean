import QfcCore.Trie.Canonical
import QfcCore.Trie.Iteration

/-!
# The trie as a map of byte strings

A trie over a database takes insertions and deletions of byte strings, is
committed and opened again. `TrieStore.run` is a sequence of these, with the
answers of the deletions; `TrieOp.onMap` is what each of them does to a map.
The two agree as long as every insertion has room for its key: a key that is
there already and that is a proper prefix of the new one is a proper prefix of
another key as well. Where it is not, the trie forgets it.
-/

namespace Qfc

open PathMap Function

variable {H V : Type} [Zero H] [DecidableEq H] {db dirty : NodeColumn H V}
  {f : List Nibble → Option V}

/-! ## Iteration -/

/-- An iteration lists the values of the content, given fuel for its
depth. -/
theorem Canonical.collectValues_lists {h : H} (hh : Canonical (nodeAt db dirty) h f) :
    ∃ vs, Lists f vs ∧
      ∃ depth, ∀ fuel, depth ≤ fuel → Trie.collectValues db dirty fuel h = .ok vs := by
  induction hh with
  | @leaf h key value h0 hl =>
    refine ⟨[value], lists_single key value, 1, fun fuel hfuel => ?_⟩
    obtain ⟨fuel, rfl⟩ := Nat.exists_eq_add_of_le' hfuel
    unfold Trie.collectValues
    rw [if_neg h0, getNode_bind h0 hl]
  | @extension h child key f h0 hl _ _ _ ih =>
    obtain ⟨vs, hvs, depth, hdepth⟩ := ih
    refine ⟨vs, hvs.under key, depth + 1, fun fuel hfuel => ?_⟩
    obtain ⟨fuel, rfl⟩ := Nat.exists_eq_add_of_le' (Nat.le_of_add_left_le hfuel)
    unfold Trie.collectValues
    rw [if_neg h0, getNode_bind h0 hl]
    exact hdepth fuel (Nat.le_of_succ_le_succ hfuel)
  | @branch h children value g h0 hl _ habsent _ ih =>
    -- an absent child lists nothing, at any depth
    have hchild : ∀ i, ∃ vs, Lists (g i) vs ∧ (children i = none → vs = []) ∧
        ∃ depth, ∀ fuel, depth ≤ fuel → ∀ c, children i = some c →
          Trie.collectValues db dirty fuel c = .ok vs := by
      intro i
      cases hc : children i with
      | none => exact ⟨[], by rw [habsent i hc]; exact lists_empty, fun _ => rfl, 0, by simp⟩
      | some c =>
        obtain ⟨vs, hvs, depth, hdepth⟩ := ih i c hc
        refine ⟨vs, hvs, by simp, depth, fun fuel hfuel d hd => ?_⟩
        cases hd
        exact hdepth fuel hfuel
    choose vals hvals hnone depth hdepth using hchild
    refine ⟨_, lists_node nibbles_nodup mem_nibbles hvals, Finset.univ.sup depth + 1,
      fun fuel hfuel => ?_⟩
    obtain ⟨fuel, rfl⟩ := Nat.exists_eq_add_of_le' (Nat.le_of_add_left_le hfuel)
    have hle : ∀ i, depth i ≤ fuel := fun i =>
      (Finset.le_sup (Finset.mem_univ i)).trans (Nat.le_of_succ_le_succ hfuel)
    obtain ⟨below, hbelow, hflat⟩ := mapM_presentChildren hnone
      (fun i c hc => hdepth i fuel (hle i) c hc)
    unfold Trie.collectValues
    rw [if_neg h0, getNode_bind h0 hl]
    dsimp only
    rw [hbelow, ← hflat]
    rfl

theorem CanonicalAt.collectValues_lists {h : H} (hh : CanonicalAt (nodeAt db dirty) h f) :
    ∃ vs, Lists f vs ∧
      ∃ depth, ∀ fuel, depth ≤ fuel → Trie.collectValues db dirty fuel h = .ok vs := by
  obtain ⟨rfl, rfl⟩ | hh := hh
  · refine ⟨[], lists_empty, 1, fun fuel hfuel => ?_⟩
    obtain ⟨fuel, rfl⟩ := Nat.exists_eq_add_of_le' hfuel
    unfold Trie.collectValues
    rw [if_pos rfl]
  · exact hh.collectValues_lists

/-! ## Maps of byte strings -/

/-- A map from byte strings. -/
abbrev ByteMap (V : Type) := List UInt8 → Option V

variable (m : ByteMap V)

/-- A map of byte strings, as a map of the paths that spell them. -/
noncomputable def spell : List Nibble → Option V := rename nibblesOfBytes m

@[simp] theorem spell_nibblesOfBytes (key : List UInt8) : spell m (nibblesOfBytes key) = m key :=
  rename_apply nibblesOfBytes_injective m key

/-- Only paths that spell a byte string have an entry. -/
theorem exists_of_spell {m : ByteMap V} {p : List Nibble} (hp : (spell m p).isSome) :
    ∃ key, nibblesOfBytes key = p :=
  exists_of_rename hp

theorem spell_update (key : List UInt8) (value : Option V) : spell (update m key value)
      = update (spell m) (nibblesOfBytes key) value :=
  rename_update nibblesOfBytes_injective m key value

theorem spell_none : spell (fun _ => none : ByteMap V) = empty := rename_none nibblesOfBytes

theorem spell_injective : Injective (spell (V := V)) :=
  rename_injective nibblesOfBytes_injective

theorem lists_spell {m : ByteMap V} {vs : List V} : Lists m vs ↔ Lists (spell m) vs :=
  Lists.rename nibblesOfBytes_injective (spell_nibblesOfBytes m) (fun _ hp => exists_of_spell hp)

/-! ## A trie over its database -/

/-- What is done to a trie. -/
inductive TrieOp (V : Type)
  | insert (key : List UInt8) (value : V)
  | delete (key : List UInt8)
  | commit
  /-- `commit`, and `with_root` at the root it returns. -/
  | reopen

/-- What it does to a map, and what it returns. -/
def TrieOp.onMap : TrieOp V → Option Bool × ByteMap V
  | .insert key value => (none, update m key (some value))
  | .delete key => (some (m key).isSome, update m key none)
  | .commit => (none, m)
  | .reopen => (none, m)

/-- A sequence of operations on a map, with the answers of the deletions. -/
def TrieOp.runOnMap (m : ByteMap V) : List (TrieOp V) → List Bool × ByteMap V
  | [] => ([], m)
  | op :: ops =>
    let r := runOnMap (op.onMap m).2 ops
    ((op.onMap m).1.toList ++ r.1, r.2)

/-- **An insertion has room for its key**: a key of the map that is a proper
prefix of it is a proper prefix of another key of the map. -/
def TrieOp.HasRoom : TrieOp V → Prop
  | .insert key _ => ∀ p, (m p).isSome → p <+: key → p ≠ key → ∃ q, (m q).isSome ∧ p <+: q ∧ q ≠ p
  | _ => True

/-- Every insertion of a sequence has room for its key. -/
def TrieOp.AllHaveRoom (m : ByteMap V) : List (TrieOp V) → Prop
  | [] => True
  | op :: ops => op.HasRoom m ∧ AllHaveRoom (op.onMap m).2 ops

/-- A trie and the database under it. -/
structure TrieStore (H V : Type) where
  db : NodeColumn H V
  trie : Trie H V

variable [Digest H (TrieNode H V)]

namespace TrieStore

/-- One operation. -/
def step (s : TrieStore H V) : TrieOp V → Except (TrieError H) (Option Bool × TrieStore H V)
  | .insert key value => do
    let trie ← s.trie.insert s.db (nibblesOfBytes key) value
    return (none, { s with trie })
  | .delete key => do
    let answer ← s.trie.deleted s.db (nibblesOfBytes key)
    let trie ← s.trie.delete s.db (nibblesOfBytes key)
    return (some answer, { s with trie })
  | .commit =>
    let (db, trie) := s.trie.commit s.db
    .ok (none, ⟨db, trie⟩)
  | .reopen =>
    let (db, trie) := s.trie.commit s.db
    .ok (none, ⟨db, .withRoot trie.root⟩)

/-- A sequence of operations, with the answers of the deletions. -/
def run (s : TrieStore H V) : List (TrieOp V) → Except (TrieError H) (List Bool × TrieStore H V)
  | [] => .ok ([], s)
  | op :: ops => do
    let (answer, s) ← s.step op
    let (answers, s) ← s.run ops
    return (answer.toList ++ answers, s)

/-- **A store represents a map**: its trie is in normal form, with the content
of the map. -/
structure Represents (s : TrieStore H V) (m : ByteMap V) : Prop where
  sound : SoundColumn (nodeAt s.db s.trie.dirty)
  canonical : CanonicalAt (nodeAt s.db s.trie.dirty) s.trie.root (spell m)

variable {s : TrieStore H V} {m : ByteMap V} {key : List UInt8}

theorem Represents.get_eq (h : s.Represents m) (key : List UInt8) :
    s.trie.get s.db (nibblesOfBytes key) = .ok (m key) := by
  rw [h.canonical.get_eq, spell_nibblesOfBytes]

theorem Represents.values_lists (h : s.Represents m) :
    ∃ vs, Lists m vs ∧ ∃ depth, ∀ fuel, depth ≤ fuel →
      Trie.collectValues s.db s.trie.dirty fuel s.trie.root = .ok vs := by
  obtain ⟨vs, hvs, hdepth⟩ := h.canonical.collectValues_lists
  exact ⟨vs, lists_spell.mpr hvs, hdepth⟩

/-- Room among byte strings is room among their paths. -/
theorem room_spell {value : V} (h : (TrieOp.insert key value).HasRoom m) :
    Room (spell m) (nibblesOfBytes key) := by
  intro p hp hpre hne
  obtain ⟨p, rfl⟩ := exists_of_spell hp
  rw [spell_nibblesOfBytes] at hp
  obtain ⟨q, hq, hpq, hqp⟩ := h p hp (nibblesOfBytes_prefix_iff.mp hpre) (fun heq => hne (heq ▸ rfl))
  refine ⟨nibblesOfBytes q, ?_, nibblesOfBytes_prefix_iff.mpr hpq, ?_⟩
  · rwa [spell_nibblesOfBytes]
  · exact nibblesOfBytes_injective.ne hqp

section

variable (h : s.Represents m)
include h

theorem Represents.insert {value : V} (hroom : (TrieOp.insert key value).HasRoom m) :
    ∃ s', s.step (.insert key value) = .ok (none, s') ∧
      s'.Represents (update m key (some value)) := by
  obtain ⟨t, ht, hgrows, hc⟩ := h.canonical.insert_eq h.sound (room_spell hroom) value
  refine ⟨⟨s.db, t⟩, ?_, hgrows.sound, ?_⟩
  · show (s.trie.insert s.db (nibblesOfBytes key) value >>= _) = _
    rw [ht]
    rfl
  · rw [spell_update]
    exact hc

theorem Represents.delete (key : List UInt8) :
    ∃ s', s.step (.delete key) = .ok (some (m key).isSome, s') ∧
      s'.Represents (update m key none) := by
  obtain ⟨t, ht, hanswer, hgrows, hc⟩ :=
    h.canonical.delete_eq h.sound (nibblesOfBytes key)
  refine ⟨⟨s.db, t⟩, ?_, hgrows.sound, ?_⟩
  · show (s.trie.deleted s.db (nibblesOfBytes key) >>= fun answer =>
      s.trie.delete s.db (nibblesOfBytes key) >>= _) = _
    rw [hanswer, ht, spell_nibblesOfBytes]
    rfl
  · rw [spell_update]
    exact hc

/-- Every operation with room for its key does to the store what it does to
the map. -/
theorem Represents.step {op : TrieOp V} (hroom : op.HasRoom m) :
    ∃ s', s.step op = .ok ((op.onMap m).1, s') ∧ s'.Represents (op.onMap m).2 := by
  cases op with
  | insert key value => exact h.insert hroom
  | delete key => exact h.delete key
  | commit | reopen => exact ⟨_, rfl, h.sound, h.canonical⟩

theorem Represents.run {ops : List (TrieOp V)} (hroom : TrieOp.AllHaveRoom m ops) :
    ∃ s', s.run ops = .ok ((TrieOp.runOnMap m ops).1, s') ∧
      s'.Represents (TrieOp.runOnMap m ops).2 := by
  induction ops generalizing s m with
  | nil => exact ⟨s, rfl, h⟩
  | cons op ops ih =>
    obtain ⟨s₁, hstep, h₁⟩ := h.step hroom.1
    obtain ⟨s₂, hrun, h₂⟩ := ih h₁ hroom.2
    refine ⟨s₂, ?_, h₂⟩
    rw [TrieStore.run, hstep]
    show (s₁.run ops >>= _) = _
    rw [hrun]
    rfl

end

/-- `Trie::new` over a database. -/
def new (db : NodeColumn H V) : TrieStore H V := ⟨db, .new⟩

omit [DecidableEq H] in
theorem represents_new (hs : SoundColumn db) : (new db).Represents (fun _ => none) :=
  ⟨hs, .inl ⟨rfl, spell_none⟩⟩

/-- **The trie is a map of byte strings**, as long as every insertion has room
for its key. -/
theorem run_eq_map {db : NodeColumn H V} (hs : SoundColumn db) {ops : List (TrieOp V)}
    (hroom : TrieOp.AllHaveRoom (fun _ => none) ops) :
    ∃ s, (new db).run ops = .ok ((TrieOp.runOnMap (fun _ => none) ops).1, s) ∧
      (∀ key, s.trie.get s.db (nibblesOfBytes key)
        = .ok ((TrieOp.runOnMap (fun _ => none) ops).2 key)) ∧
      ∃ vs, Lists (TrieOp.runOnMap (fun _ => none) ops).2 vs ∧ ∃ depth, ∀ fuel, depth ≤ fuel →
        Trie.collectValues s.db s.trie.dirty fuel s.trie.root = .ok vs := by
  obtain ⟨s, hrun, h⟩ := (represents_new hs).run hroom
  exact ⟨s, hrun, h.get_eq, h.values_lists⟩

/-- The keys `ab`, `a` and `ac`, in this order: `a` sits on a branch when `ac`
comes. Then `ab` is deleted, and the trie is opened again. -/
def prefixOps : List (TrieOp ℕ) :=
  [.insert [0x61, 0x62] 1, .insert [0x61] 2, .insert [0x61, 0x63] 3, .delete [0x61, 0x62], .reopen]

theorem run_eq_map_prefixOps :
    SoundColumn (fun _ => none : NodeColumn CodeName ℕ) ∧
      TrieOp.AllHaveRoom (fun _ => none) prefixOps ∧
      ∃ s : TrieStore CodeName ℕ,
        (new fun _ => none).run prefixOps = .ok ((TrieOp.runOnMap (fun _ => none) prefixOps).1, s) ∧
        (∀ key, s.trie.get s.db (nibblesOfBytes key)
          = .ok ((TrieOp.runOnMap (fun _ => none) prefixOps).2 key)) ∧
        ∃ vs, Lists (TrieOp.runOnMap (fun _ => none) prefixOps).2 vs ∧
          ∃ depth, ∀ fuel, depth ≤ fuel →
            Trie.collectValues s.db s.trie.dirty fuel s.trie.root = .ok vs := by
  have hs : SoundColumn (fun _ => none : NodeColumn CodeName ℕ) := nofun
  have hroom : TrieOp.AllHaveRoom (fun _ => none) prefixOps := by
    refine ⟨nofun, fun p hp hpre hne => ?_, fun p hp hpre hne => ?_, trivial, trivial, trivial⟩
    · have hmem := (List.mem_inits _ _).mpr hpre
      fin_cases hmem
      · cases hp
      · exact absurd rfl hne
    · have hmem := (List.mem_inits _ _).mpr hpre
      fin_cases hmem
      · cases hp
      · exact ⟨[0x61, 0x62], rfl, ⟨[0x62], rfl⟩, by decide⟩
      · exact absurd rfl hne
  exact ⟨hs, hroom, run_eq_map hs hroom⟩

/-- **A leaf in the way is forgotten**: after `a` and then `ab` there is no `a`
in the trie any more. -/
theorem run_forgets_prefix :
    ((new fun _ => none : TrieStore CodeName ℕ).run [.insert [0x61] 1, .insert [0x61, 0x62] 2]
        >>= fun r => r.2.trie.get r.2.db (nibblesOfBytes [0x61])) = .ok none ∧
      (TrieOp.runOnMap (fun _ => none)
        [.insert [0x61] 1, .insert [0x61, 0x62] 2]).2 [0x61] = some 1 := by
  decide +kernel

end TrieStore

end Qfc
