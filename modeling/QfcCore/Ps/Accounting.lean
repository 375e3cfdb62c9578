import QfcCore.Ps.Barrier
import QfcCore.Ps.Buffer

/-!
# Accounting of an epoch

What a shard service has at any time is determined by the updates that it accepted
since the last barrier, in their order: the records, the clocks of the workers, and
the entries of the buffer, each of them the sum of what one worker pushed for one
range (`Accounts`). This holds after any sequence of calls, also if some of them
fail, since a push that fails changes nothing.

The barrier itself applies one difference to every registered range with enough
workers (`Settles`), if the trimmed mean leaves something of the entries of every
such range. It need not: with a trim fraction of two fifths five workers are enough,
and six are not. Then the barrier fails, after it has changed the ranges before.
-/

namespace Qfc.Ps

open List TrimmedMean

variable {V H : Type} {A : Arithmetic V} {blake3 : Bytes → H}

namespace ShardService

variable {s s' : ShardService V H} {u : ParamUpdate V} {history : List (ParamUpdate V)} {x : Unit}
  {record : AcceptanceRecord H}

/-! ## Pushes -/

theorem admits_ok (h : s.admits A u = .ok x) :
    u.epoch = s.epoch ∧ u.validate A = .ok () ∧ u.range ∈ s.ranges ∧
      (0 < s.maxStepsPerEpoch → u.clock < s.maxStepsPerEpoch) ∧
      u.clock = (s.clock.workerClock u.worker).elim 0 (· + 1) := by
  unfold admits at h
  split at h
  · cases h
  next hepoch =>
    cases hvalid : u.validate A with
    | error e => rw [hvalid] at h; cases h
    | ok y =>
      rw [hvalid] at h
      change (if u.range ∉ s.ranges then _ else _) = _ at h
      split at h
      · cases h
      next hrange =>
        split at h
        · cases h
        next hceiling =>
          dsimp only at h
          split at h
          · cases h
          next hclock =>
            exact ⟨not_not.mp hepoch, rfl, not_not.mp hrange, fun hpos => by omega,
              not_not.mp hclock⟩

/-- The clock of an admitted update is not behind. -/
theorem advance_of_admits (h : s.admits A u = .ok x) :
    s.clock.advance u.worker u.clock
      = (.ok (), { s.clock with clocks := s.clock.clocks.insert u.worker u.clock }) := by
  obtain ⟨-, -, -, -, hclock⟩ := admits_ok h
  refine if_neg ?_
  rw [hclock]
  unfold SspClock.workerClock
  cases s.clock.clocks.lookup u.worker with
  | none => exact Nat.not_lt_zero _
  | some clock => exact Nat.not_lt.mpr (Nat.le_succ clock)

theorem push_error (hcap : 0 < s.buffer.maxWorkersPerRange) {e : PsError}
    (hpush : s.push A blake3 u = (.error e, s')) : s' = s := by
  unfold push at hpush
  split at hpush
  · cases hpush
    rfl
  next hadmits =>
    dsimp only at hpush
    rw [advance_of_admits hadmits] at hpush
    split at hpush
    next buffer hadd =>
      cases hpush
      rw [UpdateBuffer.add_error hcap hadd]
    · cases hpush

theorem push_ok (hpush : s.push A blake3 u = (.ok record, s')) :
    ∃ buffer, s.admits A u = .ok () ∧ s.buffer.add A u = (.ok (), buffer) ∧
      record = .forUpdate A blake3 u ∧
      s' = { s with
        buffer := buffer
        clock := { s.clock with clocks := s.clock.clocks.insert u.worker u.clock }
        accepted := s.accepted ++ [.forUpdate A blake3 u] } := by
  unfold push at hpush
  split at hpush
  · cases hpush
  next hadmits =>
    dsimp only at hpush
    rw [advance_of_admits hadmits] at hpush
    split at hpush
    · cases hpush
    next buffer hadd =>
      cases hpush
      exact ⟨buffer, hadmits, hadd, rfl, rfl⟩

/-! ## Accounts -/

/-- The last of so many steps. -/
def lastStep : ℕ → Option ℕ
  | 0 => none
  | k + 1 => some k

/-- **The service has what the accepted updates come to.** -/
structure Accounts (A : Arithmetic V) (blake3 : Bytes → H) (s : ShardService V H)
    (history : List (ParamUpdate V)) : Prop where
  records : s.accepted = history.map (.forUpdate A blake3)
  valid : ∀ u ∈ history, u.validate A = .ok () ∧ u.range ∈ s.ranges ∧ u.clock < s.maxStepsPerEpoch
  clocks : ∀ worker, (byWorker worker history).map (fun u => u.clock)
    = range (byWorker worker history).length
  ticks : ∀ worker, s.clock.clocks.lookup worker = lastStep (byWorker worker history).length
  entry : ∀ range worker, s.buffer.entryOf range worker
    = accumulated A (pushesOn range worker history)
  capped : s.buffer.Capped

/-- The clock of an admitted update is the number of updates of its worker. -/
theorem Accounts.clock_eq (h : Accounts A blake3 s history) (hadmits : s.admits A u = .ok x) :
    u.clock = (byWorker u.worker history).length := by
  obtain ⟨-, -, -, -, hclock⟩ := admits_ok hadmits
  rw [hclock, SspClock.workerClock, h.ticks]
  cases (byWorker u.worker history).length <;> rfl

theorem Accounts.push (h : Accounts A blake3 s history) (hceiling : 0 < s.maxStepsPerEpoch)
    (hpush : s.push A blake3 u = (.ok record, s')) : Accounts A blake3 s' (history ++ [u]) := by
  obtain ⟨buffer, hadmits, hadd, rfl, rfl⟩ := push_ok hpush
  have hclock := h.clock_eq hadmits
  obtain ⟨-, hvalid, hrange, hbelow, -⟩ := admits_ok hadmits
  refine ⟨?_, fun v hv => ?_, fun worker => ?_, fun worker => ?_, fun range worker => ?_,
    h.capped.add hadd⟩
  · rw [map_append, map_singleton, ← h.records]
  · obtain hv | hv := mem_append.mp hv
    · exact h.valid v hv
    · obtain rfl := mem_singleton.mp hv
      exact ⟨hvalid, hrange, hbelow hceiling⟩
  · rw [byWorker_concat]
    split
    next hworker =>
      subst hworker
      rw [map_append, map_singleton, h.clocks, length_append, length_singleton, range_succ, hclock]
    · exact h.clocks worker
  · dsimp only
    rw [byWorker_concat]
    split
    next hworker =>
      subst hworker
      rw [AList.lookup_insert, length_append, length_singleton, hclock]
      rfl
    next hworker =>
      rw [AList.lookup_insert_ne (Ne.symm hworker)]
      exact h.ticks worker
  · dsimp only
    rw [UpdateBuffer.entryOf_add hadd, pushesOn_concat, h.entry]
    split
    · rw [accumulated_concat]
    · rfl

/-! ## New services -/

/-- A service that `new` makes, at any later time. -/
structure WellFormed (s : ShardService V H) : Prop where
  beta : s.config.trimBeta.inRange = true
  cap : s.buffer.maxWorkersPerRange = s.config.maxWorkersPerRange
  ceiling : 0 < s.maxStepsPerEpoch
  owned : ∀ range ∈ s.ranges, s.store.ownedRange.covers range = true

theorem validate_ok {c : PsConfig} (h : c.validate = .ok x) :
    c.trimBeta.inRange = true ∧ 0 < c.maxWorkersPerRange := by
  unfold PsConfig.validate TrimmedMean.new at h
  by_cases hrange : c.trimBeta.inRange = true
  · rw [if_pos hrange] at h
    dsimp only at h
    split at h
    · cases h
    next hmin =>
      exact ⟨hrange, (minUpdates_pos hrange).trans (Nat.not_lt.mp hmin)⟩
  · rw [if_neg hrange] at h
    cases h

/-- What holds of a service and the updates that it accepted. -/
structure Kept (A : Arithmetic V) (blake3 : Bytes → H) (config : PsConfig) (ceiling : ℕ)
    (ranges : List ParamRange) (s : ShardService V H) (history : List (ParamUpdate V)) :
    Prop where
  wellFormed : s.WellFormed
  accounts : Accounts A blake3 s history
  config_eq : s.config = config
  ceiling_eq : s.maxStepsPerEpoch = ceiling
  ranges_eq : s.ranges = ranges

variable {store : ShardStore V} {ceiling : ℕ} {config : PsConfig} {ranges : List ParamRange}

/-- What `new` checks, and what it returns. -/
theorem new_eq_ok {epoch : ℕ} (hnew : new store config epoch ranges ceiling = .ok s) :
    config.validate = .ok () ∧
      (∀ r ∈ sortedRanges ranges, store.ownedRange.covers r = true) ∧
      (∀ pair ∈ (sortedRanges ranges).zip (sortedRanges ranges).tail,
        pair.1.overlaps pair.2 = false) ∧
      s = ⟨store, config, epoch, .new config.stalenessBound, .new config.maxWorkersPerRange,
        sortedRanges ranges, ceiling, []⟩ := by
  unfold new at hnew
  cases hvalid : config.validate with
  | error e => rw [hvalid] at hnew; cases hnew
  | ok x =>
    rw [hvalid] at hnew
    change (if ranges = [] then _ else _) = _ at hnew
    split at hnew
    · cases hnew
    · split at hnew
      · cases hnew
      next howned =>
        split at hnew
        · cases hnew
        next hpairs =>
          cases hnew
          refine ⟨rfl, fun r hr => ?_, fun pair hpair => ?_, rfl⟩
          · simpa using find?_eq_none.mp howned r hr
          · simpa using find?_eq_none.mp hpairs pair hpair

theorem new_ok {epoch : ℕ} (hnew : new store config epoch ranges ceiling = .ok s)
    (hceiling : ceiling ≠ 0) : Kept A blake3 config ceiling s.ranges s [] := by
  obtain ⟨hvalid, howned, -, rfl⟩ := new_eq_ok hnew
  obtain ⟨hbeta, hcap⟩ := validate_ok hvalid
  exact ⟨⟨hbeta, rfl, Nat.pos_of_ne_zero hceiling, howned⟩,
    ⟨rfl, nofun, fun _ => rfl, fun _ => rfl, fun _ _ => rfl, UpdateBuffer.capped_new hcap⟩,
    rfl, rfl, rfl⟩

/-- Ranges that are not empty are apart once `new` has accepted them. -/
theorem apart_of_new {epoch : ℕ} (hnew : new store config epoch ranges ceiling = .ok s)
    (hranges : ∀ r ∈ ranges, r.start < r.stop) :
    ∀ r ∈ s.ranges, ∀ r' ∈ s.ranges, r ≠ r' → Apart r r' := by
  obtain ⟨-, -, hpairs, rfl⟩ := new_eq_ok hnew
  have hsorted : (sortedRanges ranges).Pairwise ParamRange.Le :=
    (pairwise_insertionSort _ _).sublist (destutter_sublist _ _)
  have hbefore := before_of_sorted hsorted hpairs (fun r hr => hranges r (mem_sortedRanges hr))
  have hapart : (sortedRanges ranges).Pairwise Apart := hbefore.imp apart_of_before
  exact fun r hr r' hr' hne => hapart.forall hr hr' hne

/-! ## Runs -/

/-- A range has too few workers for the rule, or something is left of them. -/
def viable (s : ShardService V H) (range : ParamRange) : Bool :=
  let n := (s.buffer.entries range).length
  n < minUpdates s.config.trimBeta || 1 ≤ kept s.config.trimBeta n

theorem length_updatesFor (b : UpdateBuffer V) (range : ParamRange) :
    (b.updatesFor range).length = (b.entries range).length :=
  length_insertionSort _ _

/-- The entry of a worker is the one that is found. -/
theorem find?_worker {l : List (ParamUpdate V)} (hl : (l.map (fun v => v.worker)).Nodup)
    (hu : u ∈ l) : l.find? (fun v => v.worker = u.worker) = some u := by
  induction l with
  | nil => cases hu
  | cons v l ih =>
    obtain ⟨hv, hl⟩ := nodup_cons.mp hl
    rw [find?_cons]
    obtain rfl | hu := mem_cons.mp hu
    · rw [decide_eq_true rfl]
    · have hne : v.worker ≠ u.worker := fun heq => hv (mem_map.mpr ⟨u, hu, heq.symm⟩)
      rw [decide_eq_false hne]
      exact ih hl hu

variable {range : ParamRange}

section

variable (h : Accounts A blake3 s history)
include h

theorem Accounts.pushesOn (range : ParamRange) (worker : Address) : ∀ u ∈ pushesOn range worker history,
      u.range = range ∧ u.worker = worker ∧ u.values.length = range.len := by
  intro u hu
  obtain ⟨hmem, hboth⟩ := mem_filter.mp hu
  obtain ⟨hrange, hworker⟩ := of_decide_eq_true hboth
  exact ⟨hrange, hworker, hrange ▸ (ParamUpdate.validate_eq_ok (h.valid u hmem).1).2⟩

/-- An entry of a range comes from updates for the range. -/
theorem Accounts.mem_entries (hu : u ∈ s.buffer.entries range) :
    u.range = range ∧ u.values.length = range.len ∧ range ∈ s.ranges := by
  have hentry : s.buffer.entryOf range u.worker = some u := find?_worker (h.capped.workers range) hu
  rw [h.entry] at hentry
  obtain ⟨hrange, -, hlength⟩ :=
    (accumulated_values (h.pushesOn range u.worker)).2 u hentry
  refine ⟨hrange, hlength, ?_⟩
  cases hpushes : Ps.pushesOn range u.worker history with
  | nil => rw [hpushes] at hentry; cases hentry
  | cons v rest =>
    have hv : v ∈ Ps.pushesOn range u.worker history := hpushes ▸ mem_cons_self
    exact (h.pushesOn range u.worker v hv).1 ▸ (h.valid v (mem_filter.mp hv).1).2.1

theorem Accounts.fits (range : ParamRange) : Fits (s.buffer.updatesFor range) range := by
  intro u hu
  obtain ⟨hrange, hlength, -⟩ := h.mem_entries ((mem_insertionSort _).mp hu)
  exact ⟨hrange, hlength⟩

omit h in
theorem mem_ranges {b : UpdateBuffer V} : range ∈ b.ranges ↔ range ∈ b.buffered :=
  (mem_insertionSort _).trans AList.mem_keys.symm

theorem Accounts.mem_ranges (hrange : range ∈ s.buffer.ranges) : range ∈ s.ranges := by
  obtain ⟨u, hu⟩ := exists_mem_of_ne_nil _
    (h.capped.keys range (ShardService.mem_ranges.mp hrange))
  exact (h.mem_entries hu).2.2

/-- **The barrier does what it is for**: it returns the records of the accepted
updates in their order, and applies one difference to every registered range. -/
def Settles (A : Arithmetic V) (blake3 : Bytes → H) (s : ShardService V H)
    (history : List (ParamUpdate V)) : Prop :=
  ∃ outcome s', s.endEpoch A blake3 = (.ok outcome, s') ∧ outcome.epoch = s.epoch ∧
    outcome.accepted = history.map (.forUpdate A blake3) ∧
    Shifts A (rule A s.config.trimBeta) s.buffer s.ranges s.store s'.store

/-- **The accounts of an epoch** between two calls. -/
structure Accounted (A : Arithmetic V) (blake3 : Bytes → H) (config : PsConfig) (ceiling : ℕ)
    (s : ShardService V H) (history : List (ParamUpdate V)) : Prop where
  unchanged : ∀ update e s', s.push A blake3 update = (.error e, s') → s' = s
  steps : ∀ worker, ∃ k ≤ ceiling,
    (s.accepted.filter (fun record => record.worker = worker)).map (fun record => record.clock)
      = List.range k
  sums : ∀ range worker, (s.buffer.entryOf range worker).map (fun entry => entry.values)
    = elementwiseSum A ((pushesOn range worker history).map (fun update => update.values))
  workers : ∀ range, ((s.buffer.entries range).map (fun entry => entry.worker)).Nodup ∧
    (s.buffer.entries range).length ≤ config.maxWorkersPerRange

theorem Accounts.accounted (hs : s.WellFormed) :
    Accounted A blake3 s.config s.maxStepsPerEpoch s history where
  unchanged _ _ _ hpush := push_error h.capped.cap hpush
  steps worker := by
    have hclocks : (s.accepted.filter (fun record => record.worker = worker)).map
        (fun record => record.clock) = (byWorker worker history).map (fun u => u.clock) := by
      rw [h.records, filter_map, map_map]
      rfl
    refine ⟨(byWorker worker history).length, ?_, hclocks.trans (h.clocks worker)⟩
    by_contra hmore
    -- the last step would be above the ceiling
    have hlast : s.maxStepsPerEpoch ∈ (byWorker worker history).map (fun u => u.clock) := by
      rw [h.clocks, mem_range]
      omega
    obtain ⟨u, hu, hclock⟩ := mem_map.mp hlast
    exact absurd (h.valid u (mem_filter.mp hu).1).2.2 (by omega)
  sums range worker := by
    rw [h.entry]
    exact (accumulated_values (h.pushesOn range worker)).1
  workers range := ⟨h.capped.workers range, hs.cap ▸ h.capped.length_le range⟩

end

section

variable (hbeta : s.config.trimBeta.inRange = true)
include hbeta

theorem computes_of_viable (hfits : Fits (s.buffer.updatesFor range) range)
    (hviable : s.viable range = true) :
    Computes (rule A s.config.trimBeta) s.buffer range := by
  intro henough
  have hmin : 1 ≤ minUpdates s.config.trimBeta := minUpdates_pos hbeta
  have hpos : ¬ (s.buffer.updatesFor range).length < minUpdates s.config.trimBeta :=
    henough
  unfold viable at hviable
  rw [← length_updatesFor, Bool.or_eq_true, decide_eq_true_iff, decide_eq_true_iff] at hviable
  refine aggregate_ok ?_ hfits (hviable.resolve_left hpos)
  rw [← length_pos_iff]
  omega

/-- The barrier of a service whose fraction is in range. -/
theorem endEpoch_eq :
    s.endEpoch A blake3
      = s.endEpochWithRule A blake3 (rule A s.config.trimBeta) := by
  unfold endEpoch TrimmedMean.new
  rw [if_pos hbeta]

/-- A barrier that succeeds has found every buffered range viable. -/
theorem viable_of_endEpoch {outcome : EpochOutcome H}
    (hend : s.endEpoch A blake3 = (.ok outcome, s')) (hrange : range ∈ s.buffer.ranges) :
    s.viable range = true := by
  rw [endEpoch_eq hbeta] at hend
  unfold endEpochWithRule at hend
  split at hend
  · cases hend
  next store hrun =>
    unfold viable
    rw [← length_updatesFor, Bool.or_eq_true, decide_eq_true_iff, decide_eq_true_iff]
    by_cases hthin : (s.buffer.updatesFor range).length < minUpdates s.config.trimBeta
    · exact .inl hthin
    · obtain ⟨delta, hdelta⟩ := aggregate_of_aggregateRanges hrun range hrange hthin
      refine .inr (Nat.one_le_iff_ne_zero.mpr fun hzero => ?_)
      exact aggregate_error hzero delta hdelta

end

section

variable (h : Accounts A blake3 s history) (hs : s.WellFormed)
  (hapart : ∀ r ∈ s.ranges, ∀ r' ∈ s.ranges, r ≠ r' → Apart r r')
include h hapart

theorem Accounts.apart_ranges : s.buffer.ranges.Pairwise Apart := by
  have hnodup : s.buffer.ranges.Nodup :=
    (perm_insertionSort _ _).nodup_iff.mpr s.buffer.buffered.keys_nodup
  exact hnodup.imp_of_mem fun hr hr' hne =>
    hapart _ (h.mem_ranges hr) _ (h.mem_ranges hr') hne

include hs

/-- A registered range without updates is not changed. -/
theorem Accounts.shifts_ranges
    (hshifts : Shifts A (rule A s.config.trimBeta) s.buffer s.buffer.ranges s.store store) :
    Shifts A (rule A s.config.trimBeta) s.buffer s.ranges s.store store where
  owned := hshifts.owned
  inside range hrange key hkey := by
    by_cases hbuffered : range ∈ s.buffer.ranges
    · exact hshifts.inside range hbuffered key hkey
    · have hsame : store.param A key = s.store.param A key :=
        hshifts.outside key fun r hr => hapart range hrange r (h.mem_ranges hr)
          (fun heq => hbuffered (heq ▸ hr)) key hkey
      have hnone : s.buffer.entries range = [] := by
        unfold UpdateBuffer.entries
        rw [AList.lookup_eq_none.mpr (fun hmem => hbuffered (ShardService.mem_ranges.mpr hmem))]
        rfl
      have hthin : (s.buffer.updatesFor range).length
          < (rule A s.config.trimBeta).minUpdates := by
        rw [length_updatesFor, hnone]
        exact minUpdates_pos hs.beta
      rw [hsame, difference, if_pos hthin]
      rfl
  outside key hkey := hshifts.outside key fun r hr => hkey r (h.mem_ranges hr)

/-- The barrier does what it is for exactly if all buffered ranges are
viable. -/
theorem Accounts.settles_iff :
    Settles A blake3 s history ↔ ∀ range ∈ s.buffer.ranges, s.viable range = true := by
  constructor
  · rintro ⟨outcome, s', hend, -⟩ range hrange
    exact viable_of_endEpoch hs.beta hend hrange
  · intro hviable
    have howned : ∀ range ∈ s.buffer.ranges, s.store.ownedRange.covers range = true :=
      fun range hrange => hs.owned range (h.mem_ranges hrange)
    obtain ⟨store, hrun, hshifts⟩ := aggregateRanges_ok (A := A)
      (fun range hrange => computes_of_viable hs.beta (h.fits range) (hviable range hrange))
      howned (h.apart_ranges hapart)
    have hend : s.endEpoch A blake3 = _ := endEpoch_eq hs.beta
    unfold endEpochWithRule at hend
    rw [hrun] at hend
    exact ⟨_, _, hend, rfl, h.records, h.shifts_ranges hs hapart hshifts⟩

end

theorem WellFormed.of_eq (hs : s.WellFormed) (hconfig : s'.config = s.config)
    (hcap : s'.buffer.maxWorkersPerRange = s.buffer.maxWorkersPerRange)
    (hceiling : s'.maxStepsPerEpoch = s.maxStepsPerEpoch) (hranges : s'.ranges = s.ranges)
    (howned : s'.store.ownedRange = s.store.ownedRange) : s'.WellFormed where
  beta := hconfig ▸ hs.beta
  cap := by rw [hcap, hconfig, hs.cap]
  ceiling := hceiling ▸ hs.ceiling
  owned range hrange := by
    rw [howned]
    exact hs.owned range (hranges ▸ hrange)

theorem ownedRange_applyDelta (store : ShardStore V) (range : ParamRange) (delta : List V) :
    (store.applyDelta A range delta).2.ownedRange = store.ownedRange := by
  unfold ShardStore.applyDelta ShardStore.modifyRange
  split
  · rfl
  · split <;> rfl

theorem ownedRange_aggregateRanges {rule : AggregationRule V} {buffer : UpdateBuffer V}
    (ranges : List ParamRange) (store : ShardStore V) :
    (aggregateRanges A rule buffer ranges store).2.ownedRange = store.ownedRange := by
  induction ranges generalizing store with
  | nil => rfl
  | cons range rest ih =>
    unfold aggregateRanges
    dsimp only
    split
    · exact ih store
    · split
      · rfl
      next delta _ =>
        have howned := ownedRange_applyDelta (A := A) store range delta
        split
        next happly =>
          rw [happly] at howned
          exact howned
        next store₁ happly =>
          rw [happly] at howned
          exact (ih store₁).trans howned

variable {config : PsConfig} {ceiling : ℕ} {ranges : List ParamRange}

section

variable (h : Kept A blake3 config ceiling ranges s history)
include h

theorem Kept.push (u : ParamUpdate V) :
    Kept A blake3 config ceiling ranges (step A blake3 (s, history) (.push u)).1
      (step A blake3 (s, history) (.push u)).2 := by
  rcases hpush : s.push A blake3 u with ⟨e | record, s'⟩
  · obtain rfl := push_error h.accounts.capped.cap hpush
    have hstep : step A blake3 (s', history) (.push u) = (s', history) := by
      unfold step
      dsimp only
      rw [hpush]
    rw [hstep]
    exact h
  · have hstep : step A blake3 (s, history) (.push u) = (s', history ++ [u]) := by
      unfold step
      dsimp only
      rw [hpush]
    have haccounts := h.accounts.push h.wellFormed.ceiling hpush
    obtain ⟨buffer, -, hadd, -, rfl⟩ := push_ok hpush
    obtain ⟨l, rfl, -⟩ := UpdateBuffer.add_ok hadd
    rw [hstep]
    exact ⟨h.wellFormed.of_eq rfl rfl rfl rfl rfl, haccounts, h.config_eq, h.ceiling_eq,
      h.ranges_eq⟩

theorem Kept.endEpoch :
    Kept A blake3 config ceiling ranges (step A blake3 (s, history) .endEpoch).1
      (step A blake3 (s, history) .endEpoch).2 := by
  have haccounts := h.accounts
  have howned : (aggregateRanges A (rule A s.config.trimBeta) s.buffer s.buffer.ranges
      s.store).2.ownedRange = s.store.ownedRange := ownedRange_aggregateRanges _ _
  unfold step ShardService.endEpoch TrimmedMean.new endEpochWithRule
  dsimp only
  rw [if_pos h.wellFormed.beta]
  dsimp only
  rcases hrun : aggregateRanges A (rule A s.config.trimBeta) s.buffer s.buffer.ranges
    s.store with ⟨_ | _, store⟩
  · -- a barrier that fails changes the store only
    rw [hrun] at howned
    exact ⟨h.wellFormed.of_eq rfl rfl rfl rfl howned, ⟨haccounts.records, haccounts.valid,
      haccounts.clocks, haccounts.ticks, haccounts.entry, haccounts.capped⟩, h.config_eq,
      h.ceiling_eq, h.ranges_eq⟩
  · rw [hrun] at howned
    exact ⟨h.wellFormed.of_eq rfl rfl rfl rfl howned, ⟨rfl, nofun, fun _ => rfl, fun _ => rfl,
      fun _ _ => rfl, UpdateBuffer.capped_new haccounts.capped.cap⟩, h.config_eq, h.ceiling_eq,
      h.ranges_eq⟩

/-- What holds of a service holds after every run of calls. -/
theorem Kept.run (calls : List (Call V)) :
    Kept A blake3 config ceiling ranges (Run.run (step A blake3) (s, history) calls).1
      (Run.run (step A blake3) (s, history) calls).2 := by
  refine Run.invariant
    (P := fun state : ShardService V H × _ => Kept A blake3 config ceiling ranges state.1 state.2)
    h (fun state call hstate => ?_) calls
  cases call with
  | push u => exact hstate.push u
  | endEpoch => exact hstate.endEpoch

end

/-- **The accounts of a service are right after all calls**, and the barrier of a
service whose ranges are apart does what it is for exactly if all buffered ranges
are viable. -/
theorem epoch_accounting (A : Arithmetic V) (blake3 : Bytes → H) {store : ShardStore V}
    {epoch : ℕ} (hnew : new store config epoch ranges ceiling = .ok s) (hceiling : ceiling ≠ 0)
    (calls : List (Call V)) :
    Accounted A blake3 config ceiling (Run.run (step A blake3) (s, []) calls).1
        (Run.run (step A blake3) (s, []) calls).2 ∧
      ((∀ r ∈ s.ranges, ∀ r' ∈ s.ranges, r ≠ r' → Apart r r') →
        (Settles A blake3 (Run.run (step A blake3) (s, []) calls).1
            (Run.run (step A blake3) (s, []) calls).2 ↔
          ∀ range ∈ (Run.run (step A blake3) (s, []) calls).1.buffer.ranges,
            (Run.run (step A blake3) (s, []) calls).1.viable range = true)) := by
  have hkept : Kept A blake3 config ceiling s.ranges (Run.run (step A blake3) (s, []) calls).1
      (Run.run (step A blake3) (s, []) calls).2 := (new_ok hnew hceiling).run calls
  have haccounted := hkept.accounts.accounted hkept.wellFormed
  rw [hkept.config_eq, hkept.ceiling_eq] at haccounted
  refine ⟨haccounted, fun hapart => hkept.accounts.settles_iff hkept.wellFormed ?_⟩
  rw [hkept.ranges_eq]
  exact hapart

/-- Natural numbers as parameters. -/
def naturals : Arithmetic ℕ where
  zero := 0
  add := (· + ·)
  isFinite _ := true
  totalLe m n := m ≤ n
  mean l n := l.sum / n
  toLeBytes n := [UInt8.ofNat n]

/-- The fraction two fifths. -/
def twoFifths : Beta where
  display := "0.4"
  inRange := true
  trim n := (2 * n + 4) / 5
  viable _ := ⟨5, by decide⟩

/-- A configuration with that fraction. -/
def trimming : PsConfig := ⟨twoFifths, 3, 40, 64⟩

/-- A service for the first keys, with some registered ranges. -/
def opened (stop : ℕ) (ranges : List ParamRange) : Except PsError (ShardService ℕ Unit) :=
  new ⟨∅, ⟨0, stop⟩⟩ trimming 0 ranges 10

/-- So many workers push ones for a range. -/
def pushing (first n : ℕ) (range : ParamRange) : List (Call ℕ) :=
  (range' first n).map fun i =>
    .push ⟨⟨Vector.replicate 20 (UInt8.ofNat i)⟩, 0, 0, range, replicate range.len 1, 1000⟩

/-- The service after some calls. -/
def after (calls : List (Call ℕ)) (s : ShardService ℕ Unit) : ShardService ℕ Unit :=
  (Run.run (step naturals (fun _ => ())) (s, []) calls).1

/-- Five workers are enough. -/
theorem five_workers_settle :
    ∃ s, opened 2 [⟨0, 1⟩, ⟨1, 2⟩] = .ok s ∧
      Settles naturals (fun _ => ()) (after (pushing 0 5 ⟨0, 1⟩) s)
        (Run.run (step naturals (fun _ => ())) (s, []) (pushing 0 5 ⟨0, 1⟩)).2 := by
  have hnew : opened 2 [⟨0, 1⟩, ⟨1, 2⟩] = .ok _ := rfl
  refine ⟨_, hnew, ((epoch_accounting naturals (fun _ => ()) hnew (by decide)
    (pushing 0 5 ⟨0, 1⟩)).2 (apart_of_new hnew (by decide))).mpr ?_⟩
  decide +kernel

/-- Six are not: the barrier fails after it has changed the first range, and
changes it again when it is called again. And a range between others that ends
before it begins hides that they overlap. -/
theorem six_workers_do_not_settle :
    (∃ s e s₁ s₂, opened 2 [⟨0, 1⟩, ⟨1, 2⟩] = .ok s ∧
      (after (pushing 0 5 ⟨0, 1⟩ ++ pushing 5 6 ⟨1, 2⟩) s).endEpoch naturals (fun _ => ())
        = (.error e, s₁) ∧
      s₁.endEpoch naturals (fun _ => ()) = (.error e, s₂) ∧
      s₁.store.param naturals 0 = 1 ∧ s₂.store.param naturals 0 = 2) ∧
    ∃ s outcome s₁, opened 3 [⟨0, 3⟩, ⟨2, 0⟩, ⟨2, 3⟩] = .ok s ∧
      (after (pushing 0 5 ⟨0, 3⟩ ++ pushing 5 5 ⟨2, 3⟩) s).endEpoch naturals (fun _ => ())
        = (.ok outcome, s₁) ∧
      s₁.store.param naturals 0 = 1 ∧ s₁.store.param naturals 2 = 2 := by
  refine ⟨⟨_, _, _, _, rfl, rfl, rfl, ?_, ?_⟩, ⟨_, _, _, rfl, rfl, ?_, ?_⟩⟩ <;> decide +kernel

end ShardService

end Qfc.Ps
