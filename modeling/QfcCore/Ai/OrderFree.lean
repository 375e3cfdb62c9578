import QfcCore.Ai.Settlement

/-!
# Settlement and the order of its inputs

Sums and maps do not depend on the order of the records, and slashes are sorted by
all that distinguishes them. The records are sorted by everything but the estimated
work. Records with the same key and different work stay in the order in which they
came, and so the root depends on it. A settlement is a function of the two sets
exactly if no two such records are accepted (`settlement_order_free_iff`); the hash
of an update covers its work, so records of updates are never of that kind unless the
hash collides.
-/

namespace Qfc.Ai

open Ps (AcceptanceRecord EpochOutcome ParamRange toBeBytes satAdd64 toBeBytes_injective
  toBeBytes_length)
open Function

/-! ## Keys and bytes -/

theorem byteKey_injective {n : ℕ} : Injective (byteKey (n := n)) := by
  intro v w h
  refine Vector.toList_inj.mp (List.map_injective_iff.mpr ?_ h)
  exact fun a b hab => UInt8.toNat_inj.mp hab

theorem byteKey_address {a b : Address} (h : byteKey a.bytes = byteKey b.bytes) : a = b := by
  obtain ⟨v⟩ := a
  obtain ⟨w⟩ := b
  exact congrArg Address.mk (byteKey_injective h)

/-- **Records that differ in their work at most.** -/
def SameKey (r r' : AcceptanceRecord Hash) : Prop :=
  { r with flopsEstimated := r'.flopsEstimated } = r'

instance : DecidableRel SameKey := fun r r' =>
  inferInstanceAs (Decidable ({ r with flopsEstimated := r'.flopsEstimated } = r'))

variable {r r' : AcceptanceRecord Hash}

theorem recordKey_eq_iff : recordKey r = recordKey r' ↔ SameKey r r' := by
  constructor
  · intro hkey
    obtain ⟨worker, epoch, clock, ⟨start, stop⟩, ⟨hash⟩, flops⟩ := r
    obtain ⟨worker', epoch', clock', ⟨start', stop'⟩, ⟨hash'⟩, flops'⟩ := r'
    simp only [recordKey, EmbeddingLike.apply_eq_iff_eq, Prod.mk.injEq] at hkey
    obtain ⟨hworker, rfl, rfl, rfl, rfl, hhash⟩ := hkey
    obtain rfl := byteKey_address hworker
    obtain rfl := byteKey_injective hhash
    rfl
  · intro hsame
    rw [← show _ = r' from hsame]
    rfl

/-- The order of the records ties the records with the same key. -/
theorem recordLe_antisymm_iff : RecordLe r r' ∧ RecordLe r' r ↔ SameKey r r' :=
  le_antisymm_iff.symm.trans recordKey_eq_iff

/-- The numbers of a record are 64-bit numbers, as their types say. -/
structure Fits (r : AcceptanceRecord Hash) : Prop where
  epoch : r.epoch < 2 ^ 64
  clock : r.clock < 2 ^ 64
  start : r.range.start < 2 ^ 64
  stop : r.range.stop < 2 ^ 64
  flops : r.flopsEstimated < 2 ^ 64

theorem recordBytes_length (r : AcceptanceRecord Hash) : (recordBytes r).length = 92 := by
  simp [recordBytes]

/-- The bytes of a record determine it. -/
theorem recordBytes_injective (hr : Fits r) (hr' : Fits r') (h : recordBytes r = recordBytes r') :
    r = r' := by
  unfold recordBytes at h
  obtain ⟨h, hflops⟩ := List.append_inj' h rfl
  obtain ⟨h, hhash⟩ := List.append_inj' h (by simp)
  obtain ⟨h, hstop⟩ := List.append_inj' h rfl
  obtain ⟨h, hstart⟩ := List.append_inj' h rfl
  obtain ⟨h, hclock⟩ := List.append_inj' h rfl
  obtain ⟨hworker, hepoch⟩ := List.append_inj' h rfl
  obtain ⟨⟨worker⟩, epoch, clock, ⟨start, stop⟩, ⟨hash⟩, flops⟩ := r
  obtain ⟨⟨worker'⟩, epoch', clock', ⟨start', stop'⟩, ⟨hash'⟩, flops'⟩ := r'
  obtain rfl := Vector.toList_inj.mp hworker
  obtain rfl := toBeBytes_injective hr.epoch hr'.epoch hepoch
  obtain rfl := toBeBytes_injective hr.clock hr'.clock hclock
  obtain rfl := toBeBytes_injective hr.start hr'.start hstart
  obtain rfl := toBeBytes_injective hr.stop hr'.stop hstop
  obtain rfl := Vector.toList_inj.mp hhash
  obtain rfl := toBeBytes_injective hr.flops hr'.flops hflops
  rfl

/-! ## The root of the records -/

/-- **Accepted records that agree**: no two of them differ in their work alone. -/
def Agree (records : List (AcceptanceRecord Hash)) : Prop :=
  ∀ r ∈ records, ∀ r' ∈ records, SameKey r r' → r.flopsEstimated = r'.flopsEstimated

instance : DecidablePred Agree := fun records =>
  inferInstanceAs (Decidable
    (∀ r ∈ records, ∀ r' ∈ records, SameKey r r' → r.flopsEstimated = r'.flopsEstimated))

/-- Records agree if the order of records ties none of them. -/
theorem agree_iff {records : List (AcceptanceRecord Hash)} :
    Agree records ↔ ∀ r ∈ records, ∀ r' ∈ records, RecordLe r r' → RecordLe r' r → r = r' := by
  refine forall₂_congr fun r _ => forall₂_congr fun r' _ => ?_
  constructor
  · intro hagree hle hle'
    have hsame := recordLe_antisymm_iff.mp ⟨hle, hle'⟩
    rw [← show _ = r' from hsame, ← hagree hsame]
  · intro hties hsame
    obtain ⟨hle, hle'⟩ := recordLe_antisymm_iff.mpr hsame
    rw [hties hle hle']

section Root

variable {D : Type} {blake3 : Bytes → D} {l l' : List (AcceptanceRecord Hash)}

section

variable (hblake : Injective blake3) (hl : ∀ r ∈ l, Fits r) (hl' : ∀ r ∈ l', Fits r)
include hblake hl hl'

theorem recordsRoot_eq_iff :
    recordsRoot blake3 l = recordsRoot blake3 l' ↔
      l.insertionSort RecordLe = l'.insertionSort RecordLe := by
  refine hblake.eq_iff.trans ⟨fun h => ?_, fun h => by rw [h]⟩
  refine Canonical.flatMap_injective (by decide) recordBytes_length (fun r hr r' hr' => ?_) h
  exact recordBytes_injective (hl r ((List.mem_insertionSort _).mp hr))
    (hl' r' ((List.mem_insertionSort _).mp hr'))

/-- The root determines the records up to their order. -/
theorem perm_of_recordsRoot_eq (h : recordsRoot blake3 l = recordsRoot blake3 l') : l.Perm l' := by
  have hsort := (recordsRoot_eq_iff hblake hl hl').mp h
  exact (l.perm_insertionSort RecordLe).symm.trans (hsort ▸ l'.perm_insertionSort RecordLe)

end

theorem recordsRoot_eq_of_perm (hagree : Agree l) (hperm : l.Perm l') :
    recordsRoot blake3 l = recordsRoot blake3 l' := by
  unfold recordsRoot
  rw [Canonical.insertionSort_eq_of_perm hperm (agree_iff.mp hagree)]

/-- The root forgets the order exactly if the records agree. -/
theorem recordsRoot_perm_iff (hblake : Injective blake3) (hl : ∀ r ∈ l, Fits r) :
    (∀ l', l.Perm l' → recordsRoot blake3 l = recordsRoot blake3 l') ↔ Agree l := by
  refine ⟨fun h => ?_, fun hagree l' hperm => recordsRoot_eq_of_perm hagree hperm⟩
  refine agree_iff.mpr (Canonical.insertionSort_eq_iff.mp fun l' hperm => ?_)
  have hl' : ∀ r ∈ l', Fits r := fun r hr => hl r (hperm.mem_iff.mpr hr)
  exact (recordsRoot_eq_iff hblake hl hl').mp (h l' hperm)

end Root

/-! ## The work of the workers -/

namespace WorkerFlops

variable {m : WorkerFlops} {w w' : Address} {f f' : ℕ}

theorem get_eq_of_mem (h : (w, f) ∈ m.rows) : m.get w = f := by
  unfold get
  obtain ⟨row, hrow⟩ := Option.isSome_iff_exists.mp
    (List.find?_isSome (p := fun row => row.1 = w) |>.mpr ⟨_, h, by simp⟩)
  have hkey : row.1 = w := by simpa using List.find?_some hrow
  have heq : row = (w, f) := SortedRows.eq_of_key_eq (List.mem_of_find?_eq_some hrow) h
    (by rw [hkey])
  rw [hrow, heq]
  rfl

theorem get_eq_zero (h : ∀ f, (w, f) ∉ m.rows) : m.get w = 0 := by
  unfold get
  rw [List.find?_eq_none.mpr]
  · rfl
  · rintro ⟨w', f⟩ hmem hw
    obtain rfl : w' = w := by simpa using hw
    exact h f hmem

theorem mem_addFlops {x : Address × ℕ} : x ∈ (m.addFlops w f).rows ↔
    x = (w, (m.get w + f) % 2 ^ 128) ∨ (x ∈ m.rows ∧ x.1 ≠ w) := by
  unfold addFlops
  rw [SortedRows.mem_put]
  refine or_congr_right (and_congr_right fun _ => not_congr ⟨byteKey_address, fun h => ?_⟩)
  rw [h]

theorem get_addFlops_self : (m.addFlops w f).get w = (m.get w + f) % 2 ^ 128 :=
  get_eq_of_mem (mem_addFlops.mpr (.inl rfl))

theorem get_addFlops_of_ne (hne : w' ≠ w) : (m.addFlops w f).get w' = m.get w' := by
  have hrows : ∀ g, (w', g) ∈ (m.addFlops w f).rows ↔ (w', g) ∈ m.rows := by
    intro g
    rw [mem_addFlops]
    simp [hne]
  by_cases h : ∃ g, (w', g) ∈ m.rows
  · obtain ⟨g, hg⟩ := h
    rw [get_eq_of_mem hg, get_eq_of_mem ((hrows g).mpr hg)]
  · rw [get_eq_zero fun g hg => h ⟨g, hg⟩, get_eq_zero fun g hg => h ⟨g, (hrows g).mp hg⟩]

/-- Work is added in any order. -/
theorem addFlops_comm (m : WorkerFlops) (w w' : Address) (f f' : ℕ) :
    (m.addFlops w f).addFlops w' f' = (m.addFlops w' f').addFlops w f := by
  refine SortedRows.ext_mem fun x => ?_
  rw [mem_addFlops, mem_addFlops, mem_addFlops, mem_addFlops]
  by_cases hw : w' = w
  · subst hw
    rw [get_addFlops_self, get_addFlops_self, Nat.mod_add_mod, Nat.mod_add_mod, Nat.add_right_comm]
    constructor
    all_goals
      rintro (h | ⟨h | h, hne⟩)
      · exact .inl h
      · exact absurd (h ▸ rfl) hne
      · exact .inr ⟨.inr h, hne⟩
  · rw [get_addFlops_of_ne hw, get_addFlops_of_ne (Ne.symm hw)]
    constructor
    · rintro (rfl | ⟨rfl | ⟨h, hne⟩, hne'⟩)
      · exact .inr ⟨.inl rfl, hw⟩
      · exact .inl rfl
      · exact .inr ⟨.inr ⟨h, hne'⟩, hne⟩
    · rintro (rfl | ⟨rfl | ⟨h, hne⟩, hne'⟩)
      · exact .inr ⟨.inl rfl, Ne.symm hw⟩
      · exact .inl rfl
      · exact .inr ⟨.inr ⟨h, hne'⟩, hne⟩

end WorkerFlops

section Perm

variable {v : Address → Bool} {l l' : List (AcceptanceRecord Hash)}
  {penalties penalties' : List TrainingPenalty}

theorem workerFlops_eq_of_perm (hperm : l.Perm l') : workerFlops v l = workerFlops v l' :=
  (hperm.filter _).foldl_eq' (fun _ _ _ _ m => WorkerFlops.addFlops_comm m _ _ _ _) _

theorem totalFlops_eq_of_perm (hperm : l.Perm l') : totalFlops v l = totalFlops v l' := by
  refine (hperm.filter _).foldl_eq' (fun r _ r' _ total => ?_) _
  rw [Nat.mod_add_mod, Nat.mod_add_mod, Nat.add_right_comm]

theorem acceptedFlops_eq_of_perm (hperm : l.Perm l') :
    l.foldl (fun acc r => satAdd64 acc r.flopsEstimated) 0 =
      l'.foldl (fun acc r => satAdd64 acc r.flopsEstimated) 0 := by
  refine hperm.foldl_eq' (fun r _ r' _ acc => ?_) _
  unfold satAdd64
  omega

theorem voided_eq_of_perm (hperm : penalties.Perm penalties') :
    voided penalties = voided penalties' :=
  funext fun _ => hperm.any_eq

/-- Slashes are sorted by all that distinguishes them. -/
theorem slashKey_injective : Injective slashKey := by
  rintro ⟨validator, ⟨⟩, slashedAmount, jailUntil⟩ ⟨validator', ⟨⟩, slashedAmount', jailUntil'⟩ h
  simp only [slashKey, EmbeddingLike.apply_eq_iff_eq, Prod.mk.injEq] at h
  obtain ⟨hvalidator, rfl, rfl⟩ := h
  rw [byteKey_address hvalidator]

theorem slashes_eq_of_perm {nowMs : ℕ} (hperm : penalties.Perm penalties') :
    (penalties.map (fun p => penaltyToSlash p nowMs)).insertionSort SlashLe =
      (penalties'.map (fun p => penaltyToSlash p nowMs)).insertionSort SlashLe :=
  Canonical.insertionSort_eq_of_perm (hperm.map _)
    fun _ _ _ _ hab hba => slashKey_injective (le_antisymm hab hba)

theorem validate_eq_ok_iff {outcome : EpochOutcome Hash} {jobId : Hash} :
    validate outcome jobId penalties = .ok () ↔
      (∀ r ∈ outcome.accepted, r.epoch = outcome.epoch) ∧
        ∀ p ∈ penalties, p.epoch = outcome.epoch ∧ p.jobId = jobId := by
  unfold validate
  split
  next record hrecord =>
    have hmem := List.mem_of_find?_eq_some hrecord
    have hne : record.epoch ≠ outcome.epoch := by simpa using List.find?_some hrecord
    exact ⟨nofun, fun h => absurd (h.1 record hmem) hne⟩
  next hrecords =>
    have hepoch : ∀ r ∈ outcome.accepted, r.epoch = outcome.epoch := by simpa using hrecords
    split
    next p hp =>
      have hmem := List.mem_of_find?_eq_some hp
      have hne : p.epoch = outcome.epoch → p.jobId ≠ jobId := by
        simpa [← imp_iff_not_or] using List.find?_some hp
      refine ⟨?_, fun h => absurd (h.2 p hmem).2 (hne (h.2 p hmem).1)⟩
      split <;> nofun
    next hpenalties =>
      refine ⟨fun _ => ⟨hepoch, ?_⟩, fun _ => rfl⟩
      simpa using hpenalties

end Perm

/-! ## Settlements -/

section Settle

variable {D : Type} {blake3 : Bytes → D} {outcome : EpochOutcome Hash} {jobId : Hash}
  {penalties penalties' : List TrainingPenalty} {rewardPool : ℕ} {spotCheckBps : ℤ} {nowMs : ℕ}
  {settlement : EpochSettlement D} {accepted' : List (AcceptanceRecord Hash)}
  (haccepted : outcome.accepted.Perm accepted') (hpenalties : penalties.Perm penalties')
  (h : settleEpoch blake3 outcome jobId penalties rewardPool spotCheckBps nowMs = .ok settlement)
include haccepted hpenalties h

/-- A settlement keeps everything but the root when its inputs are permuted. -/
theorem settleEpoch_perm :
    settlement.commit.recordsRoot = recordsRoot blake3 outcome.accepted ∧
      settleEpoch blake3 { outcome with accepted := accepted' } jobId penalties' rewardPool
        spotCheckBps nowMs = .ok { settlement with
          commit := { settlement.commit with recordsRoot := recordsRoot blake3 accepted' } } := by
  unfold settleEpoch at h ⊢
  cases hvalid : validate outcome jobId penalties with
  | error e =>
    rw [hvalid] at h
    cases h
  | ok u =>
    obtain ⟨hrecords, hnames⟩ := validate_eq_ok_iff.mp hvalid
    have hvalid' : validate { outcome with accepted := accepted' } jobId penalties' = .ok () :=
      validate_eq_ok_iff.mpr ⟨fun r hr => hrecords r (haccepted.mem_iff.mpr hr),
        fun p hp => hnames p (hpenalties.mem_iff.mpr hp)⟩
    rw [hvalid] at h
    rw [hvalid']
    obtain rfl := Except.ok.inj h
    refine ⟨rfl, ?_⟩
    dsimp only [bind, Except.bind, pure, Except.pure]
    rw [workerFlops_eq_of_perm haccepted, totalFlops_eq_of_perm haccepted,
      acceptedFlops_eq_of_perm haccepted, voided_eq_of_perm hpenalties,
      slashes_eq_of_perm hpenalties, haccepted.length_eq]

/-- A settlement forgets the order of the records if its root does. -/
theorem settleEpoch_perm_iff :
    settleEpoch blake3 { outcome with accepted := accepted' } jobId penalties' rewardPool
      spotCheckBps nowMs = .ok settlement ↔
        recordsRoot blake3 outcome.accepted = recordsRoot blake3 accepted' := by
  obtain ⟨hroot, hsettle⟩ := settleEpoch_perm haccepted hpenalties h
  rw [hsettle, ← hroot]
  constructor
  · intro heq
    exact (congrArg (fun s => s.commit.recordsRoot) (Except.ok.inj heq)).symm
  · intro hroot
    rw [← hroot]

end Settle

/-- **A settlement is a function of the sets of records and penalties exactly if the
records agree**, and so is their root, which determines the records up to their
order. -/
theorem settlement_order_free_iff {D : Type} {blake3 : Bytes → D} (hblake : Injective blake3) :
    (∀ (outcome : EpochOutcome Hash) (jobId : Hash) (penalties : List TrainingPenalty)
      (rewardPool : ℕ) (spotCheckBps : ℤ) (nowMs : ℕ) (settlement : EpochSettlement D),
      (∀ r ∈ outcome.accepted, Fits r) →
      settleEpoch blake3 outcome jobId penalties rewardPool spotCheckBps nowMs = .ok settlement →
      ((∀ accepted', outcome.accepted.Perm accepted' → ∀ penalties', penalties.Perm penalties' →
        settleEpoch blake3 { outcome with accepted := accepted' } jobId penalties' rewardPool
          spotCheckBps nowMs = .ok settlement) ↔ Agree outcome.accepted)) ∧
    ∀ records : List (AcceptanceRecord Hash), (∀ r ∈ records, Fits r) →
      ((∀ records', (∀ r ∈ records', Fits r) →
        (recordsRoot blake3 records = recordsRoot blake3 records' ↔ records.Perm records')) ↔
          Agree records) := by
  refine ⟨fun outcome jobId penalties rewardPool spotCheckBps nowMs settlement hfits hsettle => ?_,
    fun records hfits => ?_⟩
  · rw [← recordsRoot_perm_iff hblake hfits]
    constructor
    · intro hfree accepted' haccepted
      exact (settleEpoch_perm_iff haccepted (.refl _) hsettle).mp
        (hfree accepted' haccepted penalties (.refl _))
    · intro hroot accepted' haccepted penalties' hpenalties
      exact (settleEpoch_perm_iff haccepted hpenalties hsettle).mpr (hroot accepted' haccepted)
  · rw [← recordsRoot_perm_iff hblake hfits]
    constructor
    · intro hset records' hperm
      exact (hset records' fun r hr => hfits r (hperm.mem_iff.mpr hr)).mpr hperm
    · intro hroot records' hfits'
      exact ⟨perm_of_recordsRoot_eq hblake hfits hfits', hroot records'⟩

/-- A record of worker 1 in epoch 1. -/
def recordOf (update : UInt8) (flops : ℕ) : AcceptanceRecord Hash where
  worker := ⟨Vector.replicate 20 1⟩
  epoch := 1
  clock := 0
  range := ⟨0, 4⟩
  updateHash := ⟨Vector.replicate 32 update⟩
  flopsEstimated := flops

/-- An epoch with some records. -/
def epochOf (accepted : List (AcceptanceRecord Hash)) : EpochOutcome Hash :=
  ⟨1, ⟨Vector.replicate 32 9⟩, accepted⟩

/-- A penalty of worker 1 or of worker 2. -/
def penaltyOf (worker : UInt8) : TrainingPenalty where
  worker := ⟨Vector.replicate 20 worker⟩
  jobId := ⟨Vector.replicate 32 8⟩
  epoch := 1
  slashAmount := 5
  voidEpochRecords := worker = 2
  jailDurationMs := 60

/-- Records of two updates may come in either order, and so may two penalties. -/
theorem two_updates_settle :
    ∃ settlement, settleEpoch id (epochOf [recordOf 1 10, recordOf 2 20])
        ⟨Vector.replicate 32 8⟩ [penaltyOf 1, penaltyOf 2] 1000 500 7 = .ok settlement ∧
      settleEpoch id (epochOf [recordOf 2 20, recordOf 1 10])
        ⟨Vector.replicate 32 8⟩ [penaltyOf 2, penaltyOf 1] 1000 500 7 = .ok settlement := by
  have hfits : ∀ r ∈ [recordOf 1 10, recordOf 2 20], Fits r := by
    intro r hr
    obtain rfl | rfl : r = recordOf 1 10 ∨ r = recordOf 2 20 := by simpa using hr
    all_goals constructor <;> decide
  have hagree : Agree [recordOf 1 10, recordOf 2 20] := by decide +kernel
  refine ⟨_, rfl, ?_⟩
  exact ((settlement_order_free_iff injective_id).1 (epochOf [recordOf 1 10, recordOf 2 20])
    _ _ _ _ _ _ hfits rfl).mpr hagree _ (.swap _ _ _) _ (.swap _ _ _)

/-- **Two records that differ in their work alone** give a root for either order. -/
theorem two_estimates_do_not_settle :
    [recordOf 1 10, recordOf 1 20].Perm [recordOf 1 20, recordOf 1 10] ∧
    recordsRoot id [recordOf 1 10, recordOf 1 20] ≠ recordsRoot id [recordOf 1 20, recordOf 1 10] ∧
    ∃ s s', settleEpoch id (epochOf [recordOf 1 10, recordOf 1 20]) ⟨Vector.replicate 32 8⟩ []
        1000 500 7 = .ok s ∧
      settleEpoch id (epochOf [recordOf 1 20, recordOf 1 10]) ⟨Vector.replicate 32 8⟩ []
        1000 500 7 = .ok s' ∧ s.commit.recordsRoot ≠ s'.commit.recordsRoot := by
  refine ⟨.swap _ _ _, ?root, _, _, rfl, rfl, ?root⟩
  decide +kernel

end Qfc.Ai
