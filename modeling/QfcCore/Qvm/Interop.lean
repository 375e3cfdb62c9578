import QfcCore.Lib.Run
import QfcCore.Qvm.Value

/-!
# State shared by two virtual machines

`StateCoordinator` of `qfc-qvm/src/interop/state.rs` keeps the pending writes of
the QVM and of the EVM in a map each, and a read looks into the one of the QVM
first. Beside it stands the history of the writes of both, from which a revert
takes those made since the snapshot with the id, and which a commit closes. A
read finds the last write of the history as long as the EVM never writes a value
over a different pending one of the QVM.

The lists of accessed slots and accounts, which only price gas, are left out.
-/

namespace Qfc.Qvm.Interop

open Function

/-- A slot of a contract. -/
abbrev Slot := Address × H256

/-- Pending changes. -/
abbrev Changes := Slot → Option H256

/-- A state to return to. -/
structure StateSnapshot where
  id : UInt64
  qvmChanges : Changes
  evmChanges : Changes

/-- The writes of both machines. -/
structure StateCoordinator where
  qvmChanges : Changes
  evmChanges : Changes
  snapshots : List StateSnapshot
  snapshotId : UInt64

/-- What a commit hands on. -/
structure CommittedChanges where
  qvmChanges : Changes
  evmChanges : Changes

namespace StateCoordinator

/-- Nothing is written. -/
def new : StateCoordinator := ⟨fun _ => none, fun _ => none, [], 0⟩

variable (s : StateCoordinator) (slot : Slot)

/-- A write of the QVM. -/
def recordQvmWrite (value : H256) : StateCoordinator :=
  { s with qvmChanges := update s.qvmChanges slot (some value) }

/-- A write of the EVM. -/
def recordEvmWrite (value : H256) : StateCoordinator :=
  { s with evmChanges := update s.evmChanges slot (some value) }

/-- Keeps the state. -/
def snapshot : UInt64 × StateCoordinator :=
  (s.snapshotId,
    { s with
      snapshotId := s.snapshotId + 1
      snapshots := s.snapshots ++ [⟨s.snapshotId, s.qvmChanges, s.evmChanges⟩] })

/-- The place of the snapshot with an id; past the end if there is none. -/
def position (id : UInt64) : ℕ := s.snapshots.findIdx (fun x => x.id = id)

/-- `revert`: the snapshot and all later ones are removed. -/
def revert (id : UInt64) : Except String StateCoordinator :=
  match s.snapshots[s.position id]? with
  | some x =>
    .ok { s with
      qvmChanges := x.qvmChanges
      evmChanges := x.evmChanges
      snapshots := s.snapshots.take (s.position id) }
  | none => .error ("Snapshot " ++ toString id ++ " not found")

/-- Hands the writes on. -/
def commit : CommittedChanges × StateCoordinator :=
  (⟨s.qvmChanges, s.evmChanges⟩,
    { s with qvmChanges := fun _ => none, evmChanges := fun _ => none, snapshots := [] })

end StateCoordinator

/-- What is called on a coordinator. -/
inductive Op
  | qvmWrite (slot : Slot) (value : H256)
  | evmWrite (slot : Slot) (value : H256)
  | snapshot
  | revert (id : UInt64)
  | commit

variable (s : StateCoordinator) (p : StateCoordinator × History)

/-- One call; a failed revert changes nothing. -/
def StateCoordinator.perform : Op → StateCoordinator
  | .qvmWrite slot value => s.recordQvmWrite slot value
  | .evmWrite slot value => s.recordEvmWrite slot value
  | .snapshot => s.snapshot.2
  | .revert id => (s.revert id).toOption.getD s
  | .commit => s.commit.2

/-! ## One history of writes -/

/-- **The writes of both machines** since the last commit, the latest first, and
what they were at each live snapshot, under the id that `snapshot` returned. -/
structure History where
  writes : List (Slot × H256)
  marks : List (UInt64 × List (Slot × H256))

/-- What a call does to the history, where a snapshot would return `next`. -/
def History.perform (next : UInt64) (h : History) : Op → History
  | .qvmWrite slot value | .evmWrite slot value => { h with writes := (slot, value) :: h.writes }
  | .snapshot => { h with marks := h.marks ++ [(next, h.writes)] }
  | .revert id =>
    let i := h.marks.findIdx (fun mark => mark.1 = id)
    match h.marks[i]? with
    | some (_, writes) => ⟨writes, h.marks.take i⟩
    | none => h
  | .commit => ⟨[], []⟩

/-- One call on both sides. -/
def step (op : Op) : StateCoordinator × History :=
  (p.1.perform op, p.2.perform p.1.snapshot.1 op)

/-- The EVM does not write over a different pending value of the QVM. -/
def Careful : Op → Prop
  | .evmWrite slot value => ∀ pending ∈ p.1.qvmChanges slot, pending = value
  | _ => True

/-- The changes of two machines show the last writes. -/
def Shows (qvm evm : Changes) (writes : List (Slot × H256)) : Prop :=
  ∀ slot, (qvm slot).or (evm slot) = writes.lookup slot

/-- Both now and at every snapshot. -/
structure Kept : Prop where
  now : Shows p.1.qvmChanges p.1.evmChanges p.2.writes
  ids : p.1.snapshots.map StateSnapshot.id = p.2.marks.map Prod.fst
  marks : List.Forall₂ (fun x mark => Shows x.qvmChanges x.evmChanges mark.2)
    p.1.snapshots p.2.marks

variable {qvm evm : Changes} {writes : List (Slot × H256)} {slot : Slot} {value : H256}

theorem Shows.qvmWrite (h : Shows qvm evm writes) :
    Shows (update qvm slot (some value)) evm ((slot, value) :: writes) := by
  intro k
  rw [List.lookup_cons]
  obtain rfl | hk := eq_or_ne k slot
  · rw [update_self, beq_self_eq_true]
    rfl
  · rw [update_of_ne hk, beq_false_of_ne hk]
    exact h k

/-- A write of the EVM shows unless a different one of the QVM is pending. -/
theorem Shows.evmWrite_iff (h : Shows qvm evm writes) :
    Shows qvm (update evm slot (some value)) ((slot, value) :: writes) ↔
      ∀ pending ∈ qvm slot, pending = value := by
  constructor
  · intro hnew pending hpending
    have hslot := hnew slot
    rw [Option.mem_def.mp hpending, List.lookup_cons, beq_self_eq_true] at hslot
    exact Option.some.inj hslot
  · intro hpending k
    rw [List.lookup_cons]
    obtain rfl | hk := eq_or_ne k slot
    · rw [update_self, beq_self_eq_true]
      cases hq : qvm k with
      | none => rfl
      | some pending => rw [hpending pending hq]; rfl
    · rw [update_of_ne hk, beq_false_of_ne hk]
      exact h k

/-- The coordinator finds a snapshot where the history has its mark. -/
theorem Kept.position_eq {p : StateCoordinator × History} (h : Kept p) (id : UInt64) :
    p.1.position id = p.2.marks.findIdx (fun mark => mark.1 = id) := by
  have hids := congrArg (List.findIdx (· = id)) h.ids
  rwa [List.findIdx_map, List.findIdx_map] at hids

/-- A careful call is seen by all reads, now and after a revert. -/
theorem Kept.step {p : StateCoordinator × History} {op : Op} (h : Kept p) (hop : Careful p op) :
    Kept (step p op) := by
  cases op with
  | qvmWrite slot value => exact ⟨h.now.qvmWrite, h.ids, h.marks⟩
  | evmWrite slot value => exact ⟨h.now.evmWrite_iff.mpr hop, h.ids, h.marks⟩
  | snapshot =>
    refine ⟨h.now, ?_, List.rel_append h.marks (.cons h.now .nil)⟩
    show (p.1.snapshots ++ [_]).map _ = (p.2.marks ++ [_]).map _
    rw [List.map_append, List.map_append, h.ids]
    rfl
  | revert id =>
    have hlength := h.marks.length_eq
    unfold Interop.step StateCoordinator.perform StateCoordinator.revert History.perform
    dsimp only
    rw [h.position_eq]
    generalize p.2.marks.findIdx _ = i
    rcases lt_or_ge i p.1.snapshots.length with hlt | hge
    · rw [List.getElem?_eq_getElem hlt, List.getElem?_eq_getElem (hlength ▸ hlt)]
      refine ⟨h.marks.get hlt (hlength ▸ hlt), ?_, List.forall₂_take _ h.marks⟩
      show (p.1.snapshots.take i).map _ = (p.2.marks.take i).map _
      rw [List.map_take, List.map_take, h.ids]
    · rw [List.getElem?_eq_none hge, List.getElem?_eq_none (hlength ▸ hge)]
      exact h
  | commit => exact ⟨fun _ => rfl, rfl, .nil⟩

end Qfc.Qvm.Interop
