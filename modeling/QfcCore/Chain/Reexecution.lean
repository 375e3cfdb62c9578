import QfcCore.Executor.CodeRuntime
import QfcCore.Executor.Coupling
import QfcCore.Lib.Run
import QfcCore.State.Growth

/-!
# Executing a block again

`execute_at` runs a block on a scratch database and leaves behind what it wrote
to the columns. For the nodes of the tries and for code that does no harm: over
larger columns a stored state behaves the same (`Twin`). The pending
undelegations are different. They are kept outside the trie, so one execution
of a block pays a mature record and deletes it, and the next one does not find
it any more.

The main result says when a second execution agrees with the first: the parent
state is stored, no pending record is mature when the block is first executed,
and none that is stored in between can be mature for it.
-/

namespace Qfc

open StateProg StateDB

variable {H : Type} [HashScheme H] [Digest H (TrieNode H (Cell H))] {U : Undelegation → Prop}

/-! ## The columns grow -/

/-- A sound database whose pending undelegations meet a condition. -/
def SoundWith (U : Undelegation → Prop) (s : StateDB H) : Prop :=
  s.Sound ∧ ∀ u ∈ s.cols.undelegations.rows, U u

/-- What grew out of a sound database keeps its undelegations. -/
theorem SoundWith.grown {s t : StateDB H} (h : SoundWith U s) (ht : s.GrownFrom t) :
    SoundWith U t := by
  refine ⟨ht.sound, ?_⟩
  rw [ht.undelegations]
  exact h.2

/-- Whatever the executor does, the columns only grow, over any root. -/
theorem growth_coupling (iter : IterOrder) (U : Undelegation → Prop) :
    Coupling (H := H) iter (fun _ _ _ => True) U (Diagonal (SoundWith U)) := by
  have hgrown : ∀ {ε α : Type} {f : StateDB H → Except ε α × StateDB H},
      (∀ s : StateDB H, s.Sound → s.GrownFrom (f s).2) →
      Coupled (Diagonal (SoundWith U)) (Act.ofExcept f) := by
    intro ε α f hf
    refine .ofExcept ?_
    rintro s t ⟨rfl, hs⟩
    exact ⟨rfl, ⟨rfl, hs.grown (hf s hs.1)⟩, (hf s hs.1).le⟩
  exact
    { credits := fun _ _ _ _ _ => trivial
      run := fun {ε α Q p} hp cols s t hst => by
        obtain ⟨⟨rfl, hs⟩, hle⟩ := hst
        have hkeeps : Act.Keeps (fun s : StateDB H => SoundWith U s ∧ cols.Le s.cols)
            (p.run exec) := by
          refine (hp cols).run (fun c s hs hc => ?_)
          obtain ⟨hsound, hle, hU⟩ := hs.1.1.exec hs.1.2 c hc
          refine ⟨?_, ⟨hsound, hU⟩, hs.2.trans hle⟩
          cases c <;> first | trivial | exact fun _ _ => trivial
        obtain ⟨hs', hle'⟩ := hkeeps s ⟨hs, hle⟩
        exact ⟨rfl, ⟨rfl, hs'⟩, hle'⟩
      getStorage := fun a slot => hgrown (fun s hs => hs.getStorage a slot)
      getCode := fun a => hgrown (fun s hs => hs.getCode a)
      setStorage := fun a slot value _ => hgrown (fun s hs => hs.setStorage a slot value)
      setCode := fun a code _ => hgrown (fun s hs => hs.setCode a code)
      commit := fun cols s t hst => by
        obtain ⟨⟨rfl, hs⟩, hle⟩ := hst
        exact ⟨rfl, ⟨rfl, hs.grown hs.1.commit⟩, hle.trans hs.1.commit.le⟩
      snapshot := fun hst => by rw [hst.1]
      revert := fun _ hst _ => by
        obtain ⟨rfl, hs⟩ := hst
        exact ⟨rfl, hs.grown (hs.1.revert _)⟩ }

/-! ## Twins -/

/-- **Twins**: a stored database, and the same one over larger columns. -/
def Twin (s t : StateDB H) : Prop :=
  s.WellStored ∧ ∃ cols, s.cols.Le cols ∧ t = s.onto cols

/-- Twins answer a command alike. -/
theorem Twin.exec {cols : StateColumns H} (c : AccountCmd H) (s t : StateDB H)
    (h : s.StoredOver cols ∧ Twin s t) (hc : pre (fun _ acc => Closed cols acc) (fun _ => True) c) :
    (exec c s).1 = (exec c t).1 ∧
      post (fun _ acc => Closed cols acc) c (exec c s).1 ∧
      (StateDB.exec c s).2.StoredOver cols ∧ Twin (StateDB.exec c s).2 (StateDB.exec c t).2 := by
  obtain ⟨hs, hstored, cols', hle, rfl⟩ := h
  obtain ⟨hpost, hs'⟩ := hs.exec c s hc
  suffices htwin : (StateDB.exec c s).1 = (StateDB.exec c (s.onto cols')).1 ∧
      ∃ cols'', (StateDB.exec c s).2.cols.Le cols'' ∧
        (StateDB.exec c (s.onto cols')).2 = (StateDB.exec c s).2.onto cols'' by
    exact ⟨htwin.1, hpost, hs', hs'.stored, htwin.2⟩
  cases c with
  | getAccount a =>
    have hget := hstored.getAccount_onto hle a
    obtain ⟨cache, hcache, -⟩ := getAccount_snd s a
    refine ⟨(congrArg Prod.fst hget).symm, cols', ?_, congrArg Prod.snd hget⟩
    show (s.getAccount a).2.cols.Le cols'
    rw [hcache]
    exact hle
  | setAccount a acc =>
    have hset := hstored.setAccount_onto hle a acc
    refine ⟨(congrArg Prod.fst hset).symm, cols', ?_, congrArg Prod.snd hset⟩
    show (s.setAccount a acc).2.cols.Le cols'
    rw [setAccount_cols]
    exact hle
  | getTotalDelegatedTo v =>
    refine ⟨?_, cols', hle, rfl⟩
    show s.getTotalDelegatedTo v = (s.onto cols').getTotalDelegatedTo v
    unfold StateDB.getTotalDelegatedTo
    rw [hstored.accounts_onto hle]
  | getTotalStake =>
    refine ⟨?_, cols', hle, rfl⟩
    show s.getTotalStake = (s.onto cols').getTotalStake
    unfold StateDB.getTotalStake
    rw [hstored.accounts_onto hle]
  | storeUndelegation u =>
    exact ⟨rfl, { cols' with undelegations := cols'.undelegations.put u },
      ⟨hle.state, hle.code⟩, rfl⟩
  | deleteUndelegation d v t =>
    exact ⟨rfl, { cols' with undelegations := cols'.undelegations.erase (Undelegation.storageKey d v t) },
      ⟨hle.state, hle.code⟩, rfl⟩

namespace StateConfig

variable (cfg : StateConfig H) (look : H → Option (Block H))

/-- What a call leaves in the columns. -/
def executed (cols : StateColumns H) (input : BlockInput H) : StateColumns H :=
  (cfg.executeAt look input cols).1

theorem executed_eq (cols : StateColumns H) (input : BlockInput H) :
    cfg.executed look cols input
      = (cfg.transition look input (withRoot cols input.parentRoot)).2.cols := by
  unfold executed executeAt
  rcases cfg.transition look input (withRoot cols input.parentRoot) with ⟨o, s⟩
  cases o <;> rfl

variable {input : BlockInput H} {cols' : StateColumns H}

variable {cols : StateColumns H} {time : ℕ}

/-- A call lets the columns grow, whatever root it is made for, and only an
`Undelegate` stores a record. -/
theorem executed_grows (hcols : cols.Sound) (hU : ∀ u ∈ cols.undelegations.rows, U u)
    (hu : ∀ tx ∈ input.transactions, Stores (cfg.executor look input) U tx) :
    (cfg.executed look cols input).Sound ∧ cols.Le (cfg.executed look cols input) ∧
      ∀ u ∈ (cfg.executed look cols input).undelegations.rows, U u := by
  have hfree : ∀ a : Address, Free (H := H) (fun _ _ _ => True) a := fun _ _ _ _ _ _ _ => trivial
  obtain ⟨-, ⟨-, hsound, hU'⟩, hle⟩ :=
    (growth_coupling cfg.runtime.iter U).transition cfg look input
      (fun _ _ => Prog.returns_of_forall (fun _ _ _ _ => hfree _) _) (fun _ _ _ _ => hfree _) hu
      ⟨rfl, withRoot_sound hcols input.parentRoot, hU⟩ rfl
  rw [executed_eq]
  exact ⟨hsound.cols, hle, hU'⟩

section

variable (hmature : (withRoot cols input.parentRoot).getMatureUndelegations (input.timestamp / 1000)
    = (withRoot cols' input.parentRoot).getMatureUndelegations (input.timestamp / 1000))
include hmature

end

/-! ## The same call again -/

/-- No record pends that is mature at a time. -/
def NoneMature (cols : StateColumns H) (time : ℕ) : Prop :=
  ∀ u ∈ cols.undelegations.rows, ¬ u.isUnlocked time

omit [HashScheme H] [Digest H (TrieNode H (Cell H))] in
theorem NoneMature.getMatureUndelegations (h : NoneMature cols time) (root : H) :
    (withRoot cols root).getMatureUndelegations time = [] :=
  List.filter_eq_nil_iff.mpr h

/-- A delegator, and two validators. -/
def reexecutionGenesis : StateColumns CodeName × CodeName :=
  sampleState [(1, sampleAmount (10 ^ 21), sampleAmount 0),
    (2, sampleAmount 0, sampleAmount (10 ^ 22)), (3, sampleAmount 0, sampleAmount (10 ^ 23))]

/-- In the first block, at second 1000, the delegator delegates and undelegates. -/
def undelegatingBlock : BlockInput CodeName where
  parentRoot := reexecutionGenesis.2
  parentHash := 0
  number := 1
  timestamp := 1000000
  producer := sampleAddress 9
  transactions :=
    [sampleTx .delegate 1 0 (some (sampleAddress 2)) (sampleAmount (10 ^ 20)) 100000
        (sampleAmount 1),
      sampleTx .undelegate 1 1 (some (sampleAddress 2)) (sampleAmount 0) 100000 (sampleAmount 1)]

/-- **A stored state stays complete**, whatever blocks are executed, on whatever
roots and with whatever outcomes. -/
theorem holdsAccounts_run (hcols : cols.Sound) {root : H}
    (hroot : HoldsAccounts cols cols.state root) (calls : List (BlockInput H)) :
    HoldsAccounts (Run.run (cfg.executed look) cols calls)
      (Run.run (cfg.executed look) cols calls).state root := by
  refine (Run.invariant (P := fun c : StateColumns H => c.Sound ∧ HoldsAccounts c c.state root)
    ⟨hcols, hroot⟩ ?_ calls).2
  rintro c b ⟨hc, hroot⟩
  exact (cfg.executed_grows look (U := fun _ => True) hc (fun _ _ => trivial)
    (fun _ _ _ _ _ => trivial)).imp_right fun hle => hroot.mono hle.1 hle.1.state

/-- The genesis state is complete after the first block. -/
theorem holdsAccounts_run_undelegating :
    let cols := Run.run (sampleConfig.executed fun _ => none) reexecutionGenesis.1
      [undelegatingBlock]
    HoldsAccounts cols cols.state reexecutionGenesis.2 := by
  refine holdsAccounts_run _ _ ?_ ?_ _
  all_goals unfold reexecutionGenesis
  exacts [(sampleState_stored _).1, (sampleState_stored _).2]

/-- A record such as an `Undelegate` of one of the calls stores. -/
def StoredBy (calls : List (BlockInput H)) (u : Undelegation) : Prop :=
  ∃ c ∈ calls, (∃ tx ∈ c.transactions, tx.txType = .undelegate) ∧
    u.unlockAt = c.timestamp / 1000 + UNSTAKE_DELAY_SECS

/-- **Undelegated funds wait out the delay**: after any calls, what a block pays
was stored by an `Undelegate` of one of them, the delay or longer before. -/
theorem mature_storedBy (hcols : cols.Sound) (hnone : cols.undelegations.rows = [])
    (calls : List (BlockInput H)) (root : H) (time : ℕ) :
    ∀ u ∈ (withRoot (Run.run (cfg.executed look) cols calls) root).getMatureUndelegations time,
      StoredBy calls u ∧ u.unlockAt ≤ time := by
  intro u hu
  obtain ⟨hmem, hmature⟩ := List.mem_filter.mp hu
  refine ⟨(Run.invariant_along
    (P := fun c : StateColumns H => c.Sound ∧ ∀ u ∈ c.undelegations.rows, StoredBy calls u)
    ⟨hcols, by simp [hnone]⟩ ?_ (Run.along_of_forall (C := (· ∈ calls)) fun _ hb => hb)).2 u hmem,
    by simpa [Undelegation.isUnlocked] using hmature⟩
  rintro c b ⟨hc, hrows⟩ hb
  obtain ⟨hsound, -, hstored⟩ := cfg.executed_grows look hc hrows
    (fun tx htx htype u hu => ⟨b, hb, ⟨tx, htx, htype⟩, hu⟩)
  exact ⟨hsound, hstored⟩

/-- The record of the first block is mature at second 700000. -/
theorem mature_storedBy_undelegating :
    let mature := (withRoot (Run.run (sampleConfig.executed fun _ => none) reexecutionGenesis.1
      [undelegatingBlock]) 0).getMatureUndelegations 700000
    mature ≠ [] ∧ ∀ u ∈ mature, StoredBy [undelegatingBlock] u ∧ u.unlockAt ≤ 700000 :=
  ⟨by decide +kernel, mature_storedBy _ _ (sampleState_stored _).1
    (List.isEmpty_iff.mp (by decide +kernel)) _ _ _⟩

end StateConfig

end Qfc
