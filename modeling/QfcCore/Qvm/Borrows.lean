import QfcCore.Qvm.Instructions

/-!
# Borrows

The tracker of linear resources refuses to destroy or to transfer a resource
that is borrowed, and to borrow it for writing if there is another borrow. No
instruction gives a borrow back. `Respects` says what that comes to for a
change of the tracker, and every round of the interpreter keeps to it, however it
ends (`tracks_step`).
-/

namespace Qfc.Qvm

open ResourceTracker AList

/-! ## The tracker -/

namespace ResourceTracker

variable {t t' : ResourceTracker} {id owner : ℕ}

/-- **A sound tracker**: a borrow is kept under the resource that is borrowed,
and no id in use will be given out again. -/
structure Sound (t : ResourceTracker) : Prop where
  keyed : ∀ key info, t.borrows.lookup key = some info → info.resourceId = key ∧ key < t.nextId
  fresh : ∀ id ∈ t.resources, id < t.nextId

theorem sound_new : Sound .new where
  keyed _ _ h := by cases h
  fresh _ h := absurd h (notMem_empty _)

theorem isBorrowed_iff (h : t.Sound) : t.isBorrowed id = true ↔ id ∈ t.borrows := by
  unfold isBorrowed
  rw [List.any_eq_true, ← lookup_isSome, Option.isSome_iff_exists]
  constructor
  · rintro ⟨⟨key, info⟩, hmem, hid⟩
    have hlookup := mem_lookup_iff.mpr hmem
    obtain rfl : info.resourceId = id := of_decide_eq_true hid
    exact ⟨info, (h.keyed key info hlookup).1 ▸ hlookup⟩
  · rintro ⟨info, hlookup⟩
    exact ⟨⟨id, info⟩, mem_lookup_iff.mp hlookup, decide_eq_true (h.keyed id info hlookup).1⟩

/-- **What the tracker may become**: a resource stays where it is as long as it
is borrowed, and a borrow that excludes others comes when there is none. -/
structure Respects (t t' : ResourceTracker) : Prop where
  borrowed : ∀ id, t.isBorrowed id = true →
    t'.isBorrowed id = true ∧ t'.resources.lookup id = t.resources.lookup id
  exclusive : ∀ id info, t'.borrows.lookup id = some info → info.isMutable = true →
    t.borrows.lookup id = some info ∨ t.isBorrowed id = false

theorem Respects.refl (t : ResourceTracker) : Respects t t :=
  ⟨fun _ h => ⟨h, rfl⟩, fun _ _ h _ => .inl h⟩

theorem Respects.trans {t'' : ResourceTracker} (h : Respects t t') (h' : Respects t' t'') :
    Respects t t'' where
  borrowed id hid := by
    obtain ⟨hid', hlookup⟩ := h.borrowed id hid
    obtain ⟨hid'', hlookup'⟩ := h'.borrowed id hid'
    exact ⟨hid'', hlookup'.trans hlookup⟩
  exclusive id info hlookup hmutable := by
    obtain hsame | hnot := h'.exclusive id info hlookup hmutable
    · exact h.exclusive id info hsame hmutable
    · refine .inr (Bool.eq_false_iff.mpr fun hid => ?_)
      rw [(h.borrowed id hid).1] at hnot
      cases hnot

/-- A change of the resources that leaves those that are borrowed alone. -/
theorem respects_resources (h : t.Sound) (hborrows : t'.borrows = t.borrows)
    (hlookup : ∀ id ∈ t.borrows, t'.resources.lookup id = t.resources.lookup id) :
    Respects t t' where
  borrowed id hid := by
    refine ⟨?_, hlookup id ((isBorrowed_iff h).mp hid)⟩
    unfold isBorrowed at hid ⊢
    rwa [hborrows]
  exclusive id info hinfo _ := .inl (hborrows ▸ hinfo)

theorem sound_create (h : t.Sound) (typeName : String) (owner pc : ℕ) :
    (t.create typeName owner pc).2.Sound where
  keyed key info hinfo := by
    obtain ⟨hkey, hlt⟩ := h.keyed key info hinfo
    exact ⟨hkey, hlt.trans (Nat.lt_succ_self _)⟩
  fresh id hid := by
    obtain rfl | hid := mem_insert _ |>.mp hid
    · exact Nat.lt_succ_self _
    · exact (h.fresh id hid).trans (Nat.lt_succ_self _)

theorem respects_create (h : t.Sound) (typeName : String) (owner pc : ℕ) :
    Respects t (t.create typeName owner pc).2 := by
  refine respects_resources h rfl fun id hid => lookup_insert_ne ?_
  obtain ⟨info, hinfo⟩ := Option.isSome_iff_exists.mp (lookup_isSome.mpr hid)
  exact (h.keyed id info hinfo).2.ne

theorem destroy_eq_ok (hdestroy : t.destroy id = .ok t') :
    t.isBorrowed id = false ∧ t' = { t with resources := t.resources.erase id } := by
  unfold destroy at hdestroy
  split at hdestroy
  · cases hdestroy
  next hborrowed =>
    cases hdestroy
    exact ⟨Bool.eq_false_iff.mpr hborrowed, rfl⟩

theorem ne_of_not_isBorrowed (h : t.Sound) (hid : t.isBorrowed id = false) {other : ℕ}
    (hother : other ∈ t.borrows) : other ≠ id := by
  rintro rfl
  rw [(isBorrowed_iff h).mpr hother] at hid
  cases hid

theorem sound_destroy (h : t.Sound) (hdestroy : t.destroy id = .ok t') : t'.Sound := by
  obtain ⟨-, rfl⟩ := destroy_eq_ok hdestroy
  exact ⟨h.keyed, fun other hother => h.fresh other (mem_erase.mp hother).2⟩

theorem respects_destroy (h : t.Sound) (hdestroy : t.destroy id = .ok t') : Respects t t' := by
  obtain ⟨hborrowed, rfl⟩ := destroy_eq_ok hdestroy
  exact respects_resources h rfl fun other hother =>
    lookup_erase_ne (ne_of_not_isBorrowed h hborrowed hother)

theorem transfer_eq_ok (htransfer : t.transfer id owner = .ok t') :
    t.isBorrowed id = false ∧ ∃ info, t.resources.lookup id = some info ∧
      t' = { t with resources := t.resources.insert id { info with owner := owner } } := by
  unfold transfer at htransfer
  split at htransfer
  · cases htransfer
  next hborrowed =>
    split at htransfer
    next info hinfo =>
      cases htransfer
      exact ⟨Bool.eq_false_iff.mpr hborrowed, info, hinfo, rfl⟩
    · cases htransfer

theorem sound_transfer (h : t.Sound) (htransfer : t.transfer id owner = .ok t') : t'.Sound := by
  obtain ⟨-, info, hinfo, rfl⟩ := transfer_eq_ok htransfer
  refine ⟨h.keyed, fun other hother => ?_⟩
  obtain rfl | hother := mem_insert _ |>.mp hother
  · exact h.fresh other (lookup_isSome.mp (Option.isSome_of_eq_some hinfo))
  · exact h.fresh other hother

theorem respects_transfer (h : t.Sound) (htransfer : t.transfer id owner = .ok t') :
    Respects t t' := by
  obtain ⟨hborrowed, info, -, rfl⟩ := transfer_eq_ok htransfer
  exact respects_resources h rfl fun other hother =>
    lookup_insert_ne (ne_of_not_isBorrowed h hborrowed hother)

variable {isMutable : Bool}

theorem borrow_eq_ok (hborrow : t.borrow id owner isMutable = .ok t') :
    id ∈ t.resources ∧ t.conflicts id isMutable = false ∧
      t' = { t with borrows := t.borrows.insert id ⟨id, isMutable, owner⟩ } := by
  unfold borrow at hborrow
  split at hborrow
  · cases hborrow
  next hid =>
    split at hborrow
    · cases hborrow
    next hconflicts =>
      cases hborrow
      exact ⟨not_not.mp hid, Bool.eq_false_iff.mpr hconflicts, rfl⟩

theorem sound_borrow (h : t.Sound) (hborrow : t.borrow id owner isMutable = .ok t') : t'.Sound := by
  obtain ⟨hid, -, rfl⟩ := borrow_eq_ok hborrow
  refine ⟨fun key info hinfo => ?_, h.fresh⟩
  by_cases hkey : key = id
  · subst hkey
    rw [lookup_insert] at hinfo
    cases hinfo
    exact ⟨rfl, h.fresh key hid⟩
  · rw [lookup_insert_ne hkey] at hinfo
    exact h.keyed key info hinfo

/-- A mutable borrow is in conflict with every other one. -/
theorem conflicts_true : t.conflicts id true = t.isBorrowed id := by
  unfold conflicts isBorrowed
  simp

theorem respects_borrow (h : t.Sound) (hborrow : t.borrow id owner isMutable = .ok t') :
    Respects t t' := by
  have hsound := sound_borrow h hborrow
  obtain ⟨-, hconflicts, rfl⟩ := borrow_eq_ok hborrow
  refine ⟨fun other hother => ⟨?_, rfl⟩, fun other info hinfo hmutable => ?_⟩
  · rw [isBorrowed_iff hsound]
    exact (mem_insert _).mpr (.inr ((isBorrowed_iff h).mp hother))
  · by_cases heq : other = id
    · subst heq
      rw [lookup_insert] at hinfo
      cases hinfo
      obtain rfl : isMutable = true := hmutable
      exact .inr (conflicts_true ▸ hconflicts)
    · rw [lookup_insert_ne heq] at hinfo
      exact .inl hinfo

end ResourceTracker

namespace Executor

variable {α : Type} {blake3 : Bytes → H256} {code : List Instruction} {s t : Executor}

/-! ## Borrows in a run -/

/-- The tracker of an executor changes as it may. -/
def Tracks (s t : Executor) : Prop :=
  s.resources.Sound → t.resources.Sound ∧ s.resources.Respects t.resources

theorem tracks_of_eq (h : t.resources = s.resources) : Tracks s t := by
  intro hsound
  rw [h]
  exact ⟨hsound, .refl _⟩

theorem thorough_tracks : Thorough Tracks where
  refl _ := tracks_of_eq rfl
  trans h h' hsound := by
    obtain ⟨hsound', hrespects⟩ := h hsound
    obtain ⟨hsound'', hrespects'⟩ := h' hsound'
    exact ⟨hsound'', hrespects.trans hrespects'⟩
  stack _ _ := tracks_of_eq rfl
  memory _ _ := tracks_of_eq rfl
  storage _ _ := tracks_of_eq rfl
  logs _ _ := tracks_of_eq rfl
  gas _ _ _ := tracks_of_eq rfl
  locals _ _ _ _ _ _ _ _ := tracks_of_eq rfl
  resources s resources h hsound := by
    cases h with
    | create typeName pc =>
      exact ⟨sound_create hsound _ _ _,
        respects_create hsound _ _ _⟩
    | destroy h =>
      exact ⟨sound_destroy hsound h, respects_destroy hsound h⟩
    | transfer h =>
      exact ⟨sound_transfer hsound h, respects_transfer hsound h⟩
    | borrow h =>
      exact ⟨sound_borrow hsound h, respects_borrow hsound h⟩

theorem ends_follow (flow : ControlFlow) : Ends True Tracks ⊤ (follow flow) := by
  have h := thorough_tracks.routine
  cases flow with
  | next => exact ends_pure h trivial
  | jump target =>
    intro s
    rw [follow_jump]
    exact ⟨tracks_of_eq rfl, trivial⟩
  | ret => exact fun _ => ⟨tracks_of_eq rfl, trivial⟩
  | halt | revert => exact ends_fail h _

/-- No round touches a borrowed resource. -/
theorem tracks_step (s : Executor) : Tracks s (step blake3 code s).2 := by
  have h := thorough_tracks.routine
  cases hframes : s.frames with
  | nil => rw [step_nil hframes]; exact tracks_of_eq rfl
  | cons frame rest =>
    cases hinstr : code[frame.pc]? with
    | none => rw [step_end hframes hinstr]; exact tracks_of_eq rfl
    | some instr =>
      rw [step_some hframes hinstr]
      have hround : Ends True Tracks ⊤ (charge (fun m => m.consumeOpcode instr.opcode) >>= fun _ =>
          executeInstruction blake3 instr >>= fun flow => follow flow >>= fun _ => pure true) :=
        .bind h (ends_charge h fun m => m.advances_consume _) fun _ =>
          .bind h (ends_executeInstruction thorough_tracks blake3 fun _ => trivial) fun flow =>
            .bind h (ends_follow flow) fun _ => ends_pure h trivial
      have hpc : Tracks s { s with frames := { frame with pc := frame.pc + 1 } :: rest } :=
        tracks_of_eq rfl
      exact h.trans hpc (hround _).1

end Executor

end Qfc.Qvm
