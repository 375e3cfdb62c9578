import QfcCore.State.SnapSync

/-!
# What a verified snap sync has

`verify` opens a database at the target root and compares its root with the target,
which is the same in every database. So that it returns true means nothing by
itself. It means that the state is complete if the nodes of a batch were stored
under their own hashes, and if `identify_missing_nodes` has found nothing missing,
once with the target root and once with the storage root of every account.

A root for which nothing is missing stays so (`Checked`): rows are never
overwritten by others.
-/

namespace Qfc

open SnapSyncManager Option

/-- A manager, and the targets for which `identify_missing_nodes` returned zero. -/
structure SnapSync (H : Type) where
  manager : SnapSyncManager H
  checked : List H

/-- A call of the manager. -/
inductive SnapOp (H : Type)
  | start (config : SnapSyncConfig H)
  | processAccountRange (range : AccountRange H)
  | processStorageRange (range : StorageRange H)
  | processTrieNodes (nodes : List (H × NodeData H))
  | identifyMissingNodes (fuel : ℕ)
  | verify

namespace SnapSync

variable {H : Type} [HashScheme H] [Digest H (TrieNode H (Cell H))] (W : DataFormat H)

/-- A new manager over an empty database. -/
def new : SnapSync H := ⟨.new, []⟩

variable (s : SnapSync H) (rows : H → Option (NodeData H))

/-- The targets after a call of `identify_missing_nodes`. -/
def checkedAfter : Option ℕ → List H
  | some 0 => (s.manager.config.map SnapSyncConfig.targetRoot).toList ++ s.checked
  | _ => s.checked

/-- One operation. -/
def step : SnapOp H → SnapSync H
  | .start config => { s with manager := s.manager.start config }
  | .processAccountRange range => { s with manager := s.manager.processAccountRange W range }
  | .processStorageRange range => { s with manager := s.manager.processStorageRange W range }
  | .processTrieNodes nodes => { s with manager := s.manager.processTrieNodes nodes }
  | .identifyMissingNodes fuel =>
    ⟨(s.manager.identifyMissingNodes fuel).2,
      s.checkedAfter (s.manager.identifyMissingNodes fuel).1⟩
  | .verify => { s with manager := s.manager.verify.2 }

/-! ## The nodes of a state -/

/-- There is a way from one hash to another, from nodes to their children. -/
def Reaches : H → H → Prop :=
  Relation.ReflTransGen (Worklist.Edge (walkNext rows))

/-- The accounts in a node. -/
def PeerNode.accounts : PeerNode H → List (Account H)
  | .leaf _ (.inl (.account acc)) => [acc]
  | .branch _ (some (.inl (.account acc))) => [acc]
  | _ => []

/-- The accounts in the node under a hash. -/
def accountsAt (h : H) : List (Account H) :=
  (((rows h).bind NodeData.parse).map PeerNode.accounts).getD []

/-- **A node of the state at a root**: of its account trie, or of the storage trie of
an account. -/
def NodeOfState (root h : H) : Prop :=
  Reaches rows root h ∨ ∃ a, Reaches rows root a ∧
    ∃ acc ∈ accountsAt rows a, Reaches rows (StateDB.storageRootOf acc) h

/-- **A call that is safe.** A batch has nodes under their own hashes, and the state
is verified after it has been checked. -/
def Careful : SnapOp H → Prop
  | .processTrieNodes nodes => ∀ row ∈ nodes, W.blake3 row.2 = row.1
  | .verify => ∀ config, s.manager.config = some config → config.targetRoot ∈ s.checked ∧
      ∀ a, Reaches s.manager.rows config.targetRoot a → ∀ acc ∈ accountsAt s.manager.rows a,
        StateDB.storageRootOf acc = 0 ∨ StateDB.storageRootOf acc ∈ s.checked
  | _ => True

/-- **The state is complete**: every node of it is there under its own hash, and the
database of `complete` reads every account and every slot as any database does that
holds the state. -/
structure StateComplete (m : SnapSyncManager H) (root : H) (db : StateDB H) : Prop where
  nodes : ∀ h, NodeOfState m.rows root h → h ≠ 0 →
    ∃ d, m.rows h = some d ∧ W.blake3 d = h
  reads : ∀ cols : StateColumns H, cols.Sound → HoldsAccounts cols cols.state root →
    ∀ a, (db.getAccount a).1 = readAccount cols root a ∧
      ∀ slot, (db.getStorage a slot).1 = readStorage cols root a slot

/-- If `verify` returns true, the state is complete. -/
def VerifiesSoundly : SnapOp H → Prop
  | .verify => s.manager.verify.1 = true → ∃ config db, s.manager.config = some config ∧
      s.manager.verify.2.complete = some db ∧ StateComplete W s.manager config.targetRoot db
  | _ => True

/-! ## Rows -/

/-- Rows under their own hashes. -/
def SoundRows : Prop :=
  ∀ h d, rows h = some d → W.blake3 d = h

/-- Nothing is missing below a root. -/
def Checked (root : H) : Prop :=
  ∀ h, Reaches rows root h → h ≠ 0 → (rows h).isSome = true

variable {W} {rows rows' : H → Option (NodeData H)} {root : H} {m : SnapSyncManager H}
  {node : TrieNode H (Cell H)} {f : List Nibble → Option (Cell H)} {n : ℕ}

section

omit [Digest H (TrieNode H (Cell H))]

theorem edge_ne_zero {a b : H} (h : Worklist.Edge (walkNext rows) a b) :
    a ≠ 0 := by
  rintro rfl
  obtain ⟨succs, hnext, hb⟩ := h
  unfold walkNext at hnext
  rw [if_pos rfl] at hnext
  cases some.inj hnext
  cases hb

/-- The edges from a node are the same wherever its row is the same. -/
theorem edge_congr {a b : H} (hrow : rows a = rows' a) (h : Worklist.Edge (walkNext rows) a b) :
    Worklist.Edge (walkNext rows') a b := by
  obtain ⟨succs, hnext, hb⟩ := h
  refine ⟨succs, ?_, hb⟩
  rw [← hnext]
  unfold walkNext
  rw [hrow]

/-- Below a checked root there is nothing new in more rows. -/
theorem Checked.reaches {h : H} (hroot : Checked rows root)
    (hle : ∀ {h d}, rows h = some d → rows' h = some d) (hreach : Reaches rows' root h) :
    Reaches rows root h := by
  induction hreach with
  | refl => exact .refl
  | tail _ hedge ih =>
    rename_i b c _
    obtain ⟨d, hd⟩ := isSome_iff_exists.mp (hroot b ih (edge_ne_zero hedge))
    exact ih.tail (edge_congr (by rw [hd, hle hd]) hedge)

theorem Checked.mono (hroot : Checked rows root) (hle : ∀ {h d}, rows h = some d → rows' h = some d) :
    Checked rows' root := by
  intro h hreach h0
  obtain ⟨d, hd⟩ := isSome_iff_exists.mp (hroot h (hroot.reaches hle hreach) h0)
  rw [hle hd]
  rfl

/-- From a node there is an edge to each of its children. -/
theorem edge_of_mem_children {h child : H} (h0 : h ≠ 0) (hrow : rows h = some (.node node.wire))
    (hchild : child ∈ node.children) : Worklist.Edge (walkNext rows) h child := by
  refine ⟨node.children, ?_, hchild⟩
  unfold walkNext
  rw [if_neg h0, hrow, ← node.children_wire]
  rfl

theorem Checked.child {h child : H} (hchecked : Checked rows h)
    (hedge : Worklist.Edge (walkNext rows) h child) : Checked rows child :=
  fun hash hreach => hchecked hash (hreach.head hedge)

/-- A call that returns has walked to the ends of all ways, and lists the absent ones. -/
theorem walk_of_identify {config : SnapSyncConfig H} (hconfig : m.config = some config)
    {fuel count : ℕ} (h : (m.identifyMissingNodes fuel).1 = some count) :
    ∃ d, Worklist.ends (walkNext m.rows) d [config.targetRoot] = [] ∧
      (m.identifyMissingNodes fuel).2.missingNodes
        = Worklist.absentEnds (walkNext m.rows) d [config.targetRoot] ∧
      (m.identifyMissingNodes fuel).2.missingNodes.length = count := by
  unfold identifyMissingNodes at h ⊢
  rw [hconfig] at h ⊢
  dsimp only at h ⊢
  cases hwalk : Worklist.walk (walkNext m.rows) fuel [config.targetRoot] [] with
  | none => rw [hwalk] at h; cases h
  | some missing =>
    rw [hwalk] at h
    obtain ⟨d, hd, hmissing⟩ := Worklist.exists_walk_iff.mp ⟨fuel, hwalk⟩
    exact ⟨d, hd, hmissing, some.inj h⟩

theorem walkNext_eq_none {h : H} : walkNext rows h = none ↔ h ≠ 0 ∧ rows h = none := by
  unfold walkNext
  split_ifs with h0 <;> simp [h0]

/-- A walk that finds nothing missing checks the target. -/
theorem checked_of_identify {config : SnapSyncConfig H} (hconfig : m.config = some config)
    {fuel : ℕ} (h : (m.identifyMissingNodes fuel).1 = some 0) :
    Checked m.rows config.targetRoot := by
  obtain ⟨d, hd, hmissing, hzero⟩ := walk_of_identify hconfig h
  intro hash hreach h0
  refine isSome_iff_ne_none.mpr fun hnone => ?_
  have hmem := (Worklist.mem_absentEnds hd).mpr
    ⟨walkNext_eq_none.mpr ⟨h0, hnone⟩, _, List.mem_cons_self, hreach⟩
  rw [← hmissing, List.length_eq_zero_iff.mp hzero] at hmem
  cases hmem

/-- `verify` returns true whenever a target is set. -/
theorem verify_of_config {config : SnapSyncConfig H} (h : m.config = some config) :
    m.verify = (true, { m with progress := { m.progress with phase := .complete } }) := by
  unfold verify
  rw [h]
  exact if_pos rfl

theorem config_of_verify (h : m.verify.1 = true) : ∃ config, m.config = some config := by
  unfold verify at h
  split at h
  · cases h
  next config hconfig => exact ⟨config, hconfig⟩

/-- A trie that is held in two columns is looked up alike. -/
theorem get_eq_of_holds {look look' : NodeColumn H (Cell H)} (h : Holds look n root f)
    (h' : Holds look' n root f) (key : List Nibble) :
    Trie.get look (Trie.withRoot root) key = Trie.get look' (Trie.withRoot root) key := by
  have hheld : Holds (nodeAt look (Trie.withRoot (V := Cell H) root).dirty) n
      (Trie.withRoot (V := Cell H) root).root f := h
  have hheld' : Holds (nodeAt look' (Trie.withRoot (V := Cell H) root).dirty) n
      (Trie.withRoot (V := Cell H) root).root f := h'
  rw [hheld.get_eq, hheld'.get_eq]

/-- An account with storage that is read at a root is one of the trie. -/
theorem account_of_read {cols : StateColumns H} (hf : Holds cols.state 40 root f) {a : Address}
    {acc : Account H} (hread : readAccount cols root a = .ok acc)
    (h0 : StateDB.storageRootOf acc ≠ 0) : f a.nibbles = some (.account acc) := by
  have hheld : Holds (nodeAt cols.state (Trie.withRoot (V := Cell H) root).dirty) 40
      (Trie.withRoot (V := Cell H) root).root f := hf
  rw [readAccount_eq, hheld.get_eq] at hread
  cases hcell : f a.nibbles with
  | none =>
    rw [hcell] at hread
    obtain rfl := Except.ok.inj hread
    exact absurd rfl h0
  | some cell =>
    rw [hcell] at hread
    cases cell with
    | account acc' => rw [Except.ok.inj hread]
    | word w => cases hread

variable (m : SnapSyncManager H) (fuel : ℕ)

theorem rows_identifyMissingNodes : (m.identifyMissingNodes fuel).2.rows = m.rows := by
  unfold identifyMissingNodes
  split
  · rfl
  · split <;> rfl

theorem config_identifyMissingNodes : (m.identifyMissingNodes fuel).2.config = m.config := by
  unfold identifyMissingNodes
  split
  · rfl
  · split <;> rfl

theorem rows_verify : m.verify.2.rows = m.rows := by
  unfold verify
  split
  · rfl
  · dsimp only
    split <;> rfl

end

/-- Sound rows only grow when sound rows are written. -/
theorem SoundRows.putAll (h : SoundRows W rows) {new : List (H × NodeData H)}
    (hnew : ∀ row ∈ new, W.blake3 row.2 = row.1) :
    SoundRows W (Column.putAll rows new) ∧
      ∀ {h d}, rows h = some d → Column.putAll rows new h = some d := by
  have hsound : SoundRows W (Column.putAll rows new) := by
    intro hash d hd
    by_cases hmem : hash ∈ new.map Prod.fst
    · obtain ⟨v, hv, hrow⟩ := Column.putAll_mem hmem rows
      obtain rfl : v = d := some.inj (hv.symm.trans hd)
      exact hnew _ hrow
    · rw [Column.putAll_of_notMem hmem] at hd
      exact h hash d hd
  refine ⟨hsound, fun {hash d} hd => ?_⟩
  by_cases hmem : hash ∈ new.map Prod.fst
  · obtain ⟨v, hv, -⟩ := Column.putAll_mem hmem rows
    rw [hv, W.injective ((hsound hash v hv).trans (h hash d hd).symm)]
  · rw [Column.putAll_of_notMem hmem]
    exact hd

/-- Proof nodes are stored under their own hashes. -/
theorem blake3_proofRows {proof : List (NodeData H)} :
    ∀ row ∈ proofRows W proof, W.blake3 row.2 = row.1 := by
  intro row hrow
  obtain ⟨d, -, hd⟩ := List.mem_filterMap.mp hrow
  split at hd
  next hlength =>
    obtain ⟨n, hparse, rfl⟩ := map_eq_some_iff.mp hd
    cases d with
    | junk bytes => cases hparse
    | node n' =>
      obtain rfl := some.inj hparse
      cases n' with
      | empty => exact absurd W.length_empty (Nat.not_lt.mpr hlength)
      | _ => rfl
  · cases hd

/-! ## Runs -/

/-- What holds after safe calls. -/
structure Kept (W : DataFormat H) (s : SnapSync H) : Prop where
  sound : SoundRows W s.manager.rows
  checked : ∀ root ∈ s.checked, Checked s.manager.rows root

variable {s : SnapSync H}

theorem Kept.write (h : Kept W s) {new : List (H × NodeData H)}
    (hnew : ∀ row ∈ new, W.blake3 row.2 = row.1) (hm : m.rows = Column.putAll s.manager.rows new) :
    Kept W ⟨m, s.checked⟩ := by
  obtain ⟨hsound, hle⟩ := h.sound.putAll hnew
  refine ⟨?_, fun root hroot => ?_⟩
  · show SoundRows W m.rows
    rw [hm]
    exact hsound
  · show Checked m.rows root
    rw [hm]
    exact (h.checked root hroot).mono hle

theorem Kept.identifyMissingNodes (h : Kept W s) (fuel : ℕ) :
    Kept W (s.step W (.identifyMissingNodes fuel)) := by
  have hrows := rows_identifyMissingNodes s.manager fuel
  refine ⟨?_, fun root hroot => ?_⟩
  · show SoundRows W (s.manager.identifyMissingNodes fuel).2.rows
    rw [hrows]
    exact h.sound
  · show Checked (s.manager.identifyMissingNodes fuel).2.rows root
    rw [hrows]
    replace hroot : root ∈ s.checkedAfter (s.manager.identifyMissingNodes fuel).1 := hroot
    unfold checkedAfter at hroot
    split at hroot
    next hzero =>
      obtain hroot | hroot := List.mem_append.mp hroot
      · obtain ⟨config, hconfig, rfl⟩ := map_eq_some_iff.mp (mem_toList.mp hroot)
        exact checked_of_identify hconfig hzero
      · exact h.checked root hroot
    · exact h.checked root hroot

theorem Kept.step (h : Kept W s) (op : SnapOp H) (hop : s.Careful W op) : Kept W (s.step W op) := by
  cases op with
  | start config => exact ⟨h.sound, h.checked⟩
  | processAccountRange range | processStorageRange range => exact h.write blake3_proofRows rfl
  | processTrieNodes nodes => exact h.write hop rfl
  | identifyMissingNodes fuel => exact h.identifyMissingNodes fuel
  | verify => exact h.write (List.forall_mem_nil _) (rows_verify _)

/-! ## Reading the state -/

variable {look : NodeColumn H (Cell H)}

/-- A checked row is the node of the state, if there is one of that hash. -/
theorem row_eq_of_sound (hsound : SoundRows W rows) (hlook : SoundColumn look) {h : H}
    (hnode : look h = some node) (hrow : (rows h).isSome = true) :
    rows h = some (.node node.wire) := by
  obtain ⟨d, hd⟩ := isSome_iff_exists.mp hrow
  obtain ⟨h0, hhash⟩ := hlook h node hnode
  have hdigest : Digest.digest node = h := by
    cases node with
    | empty => exact absurd hhash.symm h0
    | _ => exact hhash
  have heq : d = .node node.wire := by
    apply W.injective
    rw [hsound h d hd, W.blake3_node, hdigest]
  rw [hd, heq]

omit [HashScheme H] [Digest H (TrieNode H (Cell H))] in
/-- What a database reads in a row with the node of a state. -/
theorem state_columns {h : H} (hrow : m.rows h = some (.node node.wire)) :
    m.columns.state h = some node := by
  show (m.rows h).bind _ = _
  rw [hrow]
  exact PeerNode.state?_wire node

/-- A trie that is held anywhere is held below a checked root. -/
theorem holds_of_checked (hsound : SoundRows W m.rows) (hlook : SoundColumn look) {h : H}
    (hh : Holds look n h f) (hchecked : Checked m.rows h) : Holds m.columns.state n h f := by
  induction hh with
  | empty n => exact .empty n
  | leaf h0 hl =>
    have hrow := row_eq_of_sound hsound hlook hl (hchecked _ .refl h0)
    exact .leaf h0 (state_columns hrow)
  | extension h0 hl hkey hc _ ih =>
    have hrow := row_eq_of_sound hsound hlook hl (hchecked _ .refl h0)
    exact .extension h0 (state_columns hrow) hkey hc
      (ih (hchecked.child (edge_of_mem_children h0 hrow (mem_children_extension hc))))
  | branch h0 hl hnone hne _ ih =>
    have hrow := row_eq_of_sound hsound hlook hl (hchecked _ .refl h0)
    exact .branch h0 (state_columns hrow) hnone hne fun i c hi =>
      ih i c hi (hchecked.child (edge_of_mem_children h0 hrow (mem_children_branch hi (hne i c hi))))

/-- An account of a trie stands in one of its nodes. -/
theorem account_of_checked (hsound : SoundRows W m.rows) (hlook : SoundColumn look) {h : H}
    (hh : Holds look n h f) (hchecked : Checked m.rows h) {key : List Nibble} {acc : Account H}
    (hacc : f key = some (.account acc)) : ∃ a, Reaches m.rows h a ∧ acc ∈ accountsAt m.rows a := by
  induction hh generalizing key with
  | empty n => cases hacc
  | @leaf h leafKey value h0 hl =>
    have hrow := row_eq_of_sound hsound hlook hl (hchecked _ .refl h0)
    refine ⟨h, .refl, ?_⟩
    unfold PathMap.single at hacc
    rw [Function.update_apply] at hacc
    split at hacc
    · obtain rfl := some.inj hacc
      unfold accountsAt
      rw [hrow]
      exact List.mem_singleton.mpr rfl
    · cases hacc
  | extension h0 hl _ hc _ ih =>
    have hrow := row_eq_of_sound hsound hlook hl (hchecked _ .refl h0)
    have hedge := edge_of_mem_children h0 hrow (mem_children_extension hc)
    rw [PathMap.under_apply] at hacc
    split at hacc
    · obtain ⟨a, hreach, ha⟩ := ih (hchecked.child hedge) hacc
      exact ⟨a, hreach.head hedge, ha⟩
    · cases hacc
  | @branch h children n g h0 hl hnone hne _ ih =>
    have hrow := row_eq_of_sound hsound hlook hl (hchecked _ .refl h0)
    cases key with
    | nil => cases hacc
    | cons i key =>
      replace hacc : g i key = some (.account acc) := hacc
      cases hi : children i with
      | none =>
        rw [hnone i hi] at hacc
        cases hacc
      | some c =>
        have hedge := edge_of_mem_children h0 hrow (mem_children_branch hi (hne i c hi))
        obtain ⟨a, hreach, ha⟩ := ih i c hi (hchecked.child hedge) hacc
        exact ⟨a, hreach.head hedge, ha⟩

theorem Kept.stateComplete (h : Kept W s) (hroot : root ∈ s.checked)
    (hstorage : ∀ a, Reaches s.manager.rows root a → ∀ acc ∈ accountsAt s.manager.rows a,
      StateDB.storageRootOf acc = 0 ∨ StateDB.storageRootOf acc ∈ s.checked) :
    StateComplete W s.manager root (StateDB.withRoot s.manager.columns root) where
  nodes hash hnode h0 := by
    have hpresent : (s.manager.rows hash).isSome = true := by
      obtain hreach | ⟨a, ha, acc, hacc, hreach⟩ := hnode
      · exact h.checked root hroot hash hreach h0
      · obtain hzero | hchecked := hstorage a ha acc hacc
        · -- from zero there is no way but to zero
          obtain heq | ⟨b, hedge, -⟩ := hreach.cases_head
          · exact absurd (heq.symm.trans hzero) h0
          · exact absurd hzero (edge_ne_zero hedge)
        · exact h.checked _ hchecked hash hreach h0
    obtain ⟨d, hd⟩ := isSome_iff_exists.mp hpresent
    exact ⟨d, hd, h.sound hash d hd⟩
  reads cols hcols hheld a := by
    obtain ⟨f, hf, haccounts⟩ := hheld
    have hchecked := h.checked root hroot
    refine reads_eq (get_eq_of_holds (holds_of_checked h.sound hcols.state hf hchecked) hf
      a.nibbles) fun acc hread h0 slot => ?_
    have hcell := account_of_read hf hread h0
    obtain ⟨b, hreach, hb⟩ := account_of_checked h.sound hcols.state hf hchecked hcell
    have hroot' := (hstorage b hreach acc hb).resolve_left h0
    obtain ⟨acc', hacc', hclosed⟩ := haccounts _ _ hcell
    cases hacc'
    obtain ⟨g, hg⟩ := hclosed.storage
    exact get_eq_of_holds (holds_of_checked h.sound hcols.state hg (h.checked _ hroot')) hg
      slot.nibbles

/-- **A verified snap sync is complete**, in every run of safe calls. -/
theorem verifies_soundly (W : DataFormat H) (ops : List (SnapOp H))
    (hcareful : Run.Along (step W) (Careful W) new ops) :
    Run.Along (step W) (VerifiesSoundly W) new ops := by
  have hnew : Kept W (new : SnapSync H) := ⟨nofun, nofun⟩
  refine hcareful.of_invariant hnew (fun s op h hop => h.step op hop) fun s op h hop => ?_
  cases op with
  | verify =>
    intro hverify
    obtain ⟨config, hconfig⟩ := config_of_verify hverify
    obtain ⟨hroot, hstorage⟩ := hop config hconfig
    refine ⟨config, _, hconfig, ?_, h.stateComplete hroot hstorage⟩
    rw [verify_of_config hconfig]
    unfold complete
    rw [hconfig]
    rfl
  | start config | processAccountRange range | processStorageRange range | processTrieNodes nodes
  | identifyMissingNodes fuel => trivial

/-! A state of one account, and one with a slot. -/

/-- Data as a code: nodes of a state by their own, anything else behind a tag. -/
def codeData : NodeData CodeName → CodeName
  | .node n =>
    match n.state? with
    | some n => Digest.digest n
    | none => ⟨11 :: Delimited.enc n⟩
  | .junk bytes => ⟨12 :: Delimited.enc bytes⟩

theorem wire_of_state? {H : Type} {n : PeerNode H} {m : TrieNode H (Cell H)}
    (h : n.state? = some m) : n = m.wire := by
  cases n with
  | empty | extension key child => cases h; rfl
  | leaf key value => cases value <;> cases h; rfl
  | branch children value =>
    rcases value with _ | value | value <;> cases h <;> rfl

theorem codeData_injective : Function.Injective codeData := by
  intro d d' h
  have hletters := congrArg CodeName.letters h
  rcases d with n | bytes <;> rcases d' with n' | bytes' <;> dsimp only [codeData] at h hletters
  · rcases hn : n.state? with _ | m <;> rcases hn' : n'.state? with _ | m' <;>
      rw [hn, hn'] at h hletters
    · rw [Delimited.enc_injective (List.cons_inj_right 11 |>.mp hletters)]
    · cases hletters
    · cases hletters
    · rw [wire_of_state? hn, wire_of_state? hn', Digest.digest_injective h]
  -- the tags differ
  · rcases hn : n.state? with _ | m <;> rw [hn] at hletters <;> cases hletters
  · rcases hn : n'.state? with _ | m <;> rw [hn] at hletters <;> cases hletters
  · rw [Delimited.enc_injective (List.cons_inj_right 12 |>.mp hletters)]

/-- Data to compute with. -/
def codeFormat : DataFormat CodeName where
  blake3 := codeData
  length d := if d = .node .empty then 1 else 100
  blake3_node n := by
    unfold codeData
    dsimp only
    rw [PeerNode.state?_wire]
  injective := codeData_injective
  length_empty := by decide

variable (root : CodeName) (nodes : List (CodeName × NodeData CodeName))

/-- A sync to a root: some nodes are sent, and the walk looks for others. -/
def syncTo : List (SnapOp CodeName) :=
  [.start ⟨root, 1, 4⟩, .processTrieNodes nodes, .identifyMissingNodes 3]

/-- The manager after some calls. -/
def after (ops : List (SnapOp CodeName)) : SnapSync CodeName := Run.run (step codeFormat) new ops

theorem config_syncTo (ops : List (SnapOp CodeName)) :
    (after (ops ++ syncTo root nodes)).manager.config = some ⟨root, 1, 4⟩ := by
  unfold after
  rw [Run.run_append]
  exact config_identifyMissingNodes _ _

/-- The only node of a state with one account. -/
def accountNode : CodeName × NodeData CodeName :=
  ((PrunedDB.oneAccount 1).root, .node (PrunedDB.leafOf 1).wire)

/-- The node of a contract's account. -/
def contractNode : CodeName × NodeData CodeName :=
  (PrunedDB.contractTrie.root,
    .node (.leaf (sampleAddress 1).nibbles (.inl (.account PrunedDB.contractAccount))))

/-- The node of its storage. -/
def slotNode : CodeName × NodeData CodeName :=
  (PrunedDB.slotTrie.root, .node (TrieNode.leaf U256.zero.nibbles (.word (.fromU64 7))).wire)

/-- A sync to the storage of the contract, and one to its state. -/
def syncContract : List (SnapOp CodeName) :=
  syncTo slotNode.1 [slotNode] ++ syncTo contractNode.1 [contractNode]

/-- **The state of a contract is complete** after its node and the one of its
storage have come. -/
theorem contract_synced :
    Run.Along (step codeFormat) (VerifiesSoundly codeFormat) new (syncContract ++ [.verify]) ∧
      (after syncContract).manager.verify.1 = true := by
  refine ⟨verifies_soundly codeFormat _ ?_, by decide +kernel⟩
  have hslot : ∀ row ∈ [slotNode], codeFormat.blake3 row.2 = row.1 := by decide +kernel
  have hcontract : ∀ row ∈ [contractNode], codeFormat.blake3 row.2 = row.1 := by decide +kernel
  refine ⟨trivial, hslot, trivial, trivial, hcontract, trivial, fun config hconfig => ?_, trivial⟩
  have hsynced := config_syncTo contractNode.1 [contractNode] (syncTo slotNode.1 [slotNode])
  obtain rfl : SnapSyncConfig.mk contractNode.1 1 4 = config :=
    some.inj (hsynced.symm.trans hconfig)
  refine ⟨?_, fun a hreach acc hacc => .inr ?_⟩
  · show contractNode.1 ∈ (after syncContract).checked
    decide +kernel
  -- the node is a leaf, from which there is no way
  have hleaf : walkNext (after syncContract).manager.rows contractNode.1 = some [] := by
    decide +kernel
  obtain rfl | ⟨b, ⟨succs, hnext, hb⟩, -⟩ := hreach.cases_head
  · show StateDB.storageRootOf acc ∈ (after syncContract).checked
    revert acc
    decide +kernel
  · obtain rfl := some.inj (hleaf.symm.trans hnext)
    cases hb

/-- **`verify` returns true of anything**: of an empty database, of a row that is no
node, and of a contract whose storage nobody has asked for. -/
theorem verify_unsound :
    ((after [.start ⟨accountNode.1, 1, 4⟩]).manager.verify.1 = true ∧
      (after [.start ⟨accountNode.1, 1, 4⟩]).manager.rows accountNode.1 = none) ∧
    ((after (syncTo accountNode.1 [(accountNode.1, .junk [])])).manager.verify.1 = true ∧
      (after (syncTo accountNode.1 [(accountNode.1, .junk [])])).manager.rows accountNode.1
        = some (.junk []) ∧
      codeFormat.blake3 (.junk []) ≠ accountNode.1) ∧
    (after (syncTo contractNode.1 [contractNode])).checked = [contractNode.1] ∧
      (after (syncTo contractNode.1 [contractNode])).manager.verify.1 = true ∧
      NodeOfState (after (syncTo contractNode.1 [contractNode])).manager.rows contractNode.1
        PrunedDB.slotTrie.root ∧
      (after (syncTo contractNode.1 [contractNode])).manager.rows PrunedDB.slotTrie.root
        = none := by
  refine ⟨⟨by decide +kernel, by decide +kernel⟩, ⟨by decide +kernel, by decide +kernel,
    by decide +kernel⟩, by decide +kernel, by decide +kernel, ?_, by decide +kernel⟩
  exact .inr ⟨contractNode.1, .refl, PrunedDB.contractAccount, by decide +kernel, .refl⟩

end SnapSync

end Qfc
