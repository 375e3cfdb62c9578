import QfcCore.Ps.Accounting

/-!
# When the barrier cannot fail

The barrier passes over a range with fewer entries than the smallest number of
which the trimmed mean leaves something, and fails if nothing is left of more
entries. With the trim fraction read as an exact rational `β`, something is left
of every larger number exactly if `β` is at most a quarter: above a quarter the
next number is already too large (`kept_succ_eq_zero`). So a configuration that
admits more workers than the smallest number has pushes after which the barrier
fails, unless `β` is at most a quarter (`barrier_reliable_iff`).
-/

namespace Qfc.Ps

open List TrimmedMean Nat

/-! ## The fraction -/

/-- **A trim fraction read as a rational number.** -/
structure Beta.Reads (beta : Beta) (β : ℚ) : Prop where
  inRange : beta.inRange = true ↔ 0 ≤ β ∧ β < 1 / 2
  trim : ∀ n : ℕ, beta.trim n = ⌈β * n⌉₊

namespace TrimmedMean

variable {beta : Beta} {β : ℚ}

/-- The smallest number is in range, leaves something, and no smaller one does. -/
theorem minUpdates_spec (h : beta.inRange = true) :
    1 ≤ kept beta (minUpdates beta) ∧ ∀ n, 1 ≤ n → n < minUpdates beta → kept beta n = 0 := by
  obtain ⟨n, hn, hlt, hkept⟩ := beta.viable h
  have hfind : ∃ m, (range' 1 (2 ^ 64 - 1)).find? (fun n => 1 ≤ kept beta n) = some m := by
    rw [← Option.isSome_iff_exists, find?_isSome]
    exact ⟨n, by rw [mem_range'_1]; omega, decide_eq_true hkept⟩
  obtain ⟨m, hm⟩ := hfind
  have hmin : minUpdates beta = m := by
    unfold minUpdates
    rw [hm]
    rfl
  rw [hmin]
  obtain ⟨hmkept, before, after, hsplit, hbefore⟩ := find?_eq_some_iff_append.mp hm
  refine ⟨of_decide_eq_true hmkept, fun i hi him => ?_⟩
  -- a smaller number comes before it in the list
  have hmem : i ∈ before := by
    have hrange : i ∈ range' 1 (2 ^ 64 - 1) := by
      have hm64 : m ∈ range' 1 (2 ^ 64 - 1) := mem_of_find?_eq_some hm
      rw [mem_range'_1] at hm64 ⊢
      omega
    have hsorted : (before ++ m :: after).Pairwise (· < ·) := hsplit ▸ pairwise_lt_range'
    rw [hsplit, mem_append, mem_cons] at hrange
    obtain hb | rfl | ha := hrange
    · exact hb
    · exact absurd him (lt_irrefl _)
    · have hma := (pairwise_cons.mp (pairwise_append.mp hsorted).2.1).1 i ha
      exact absurd him (not_lt.mpr hma.le)
  have hnot := hbefore i hmem
  simp only [Bool.not_eq_true', decide_eq_false_iff_not, not_le, lt_one_iff] at hnot
  exact hnot

section Reads

variable (hβ : beta.Reads β)

include hβ

/-- Something is left of a number exactly if the fraction of it is at most half
of the number before. -/
theorem kept_pos_iff {n : ℕ} : 1 ≤ kept beta n ↔ 2 * ⌈β * n⌉₊ + 1 ≤ n := by
  unfold kept
  rw [hβ.trim]
  omega

theorem kept_eq_zero_iff {n : ℕ} : kept beta n = 0 ↔ n ≤ 2 * ⌈β * n⌉₊ := by
  unfold kept
  rw [hβ.trim]
  omega

/-- At most a quarter: something is left of every number from the smallest
on. -/
theorem kept_pos_of_le_quarter (hrange : beta.inRange = true) (hquarter : β ≤ 1 / 4) {n : ℕ}
    (hn : minUpdates beta ≤ n) : 1 ≤ kept beta n := by
  obtain ⟨hnonneg, -⟩ := hβ.inRange.mp hrange
  have hmin := minUpdates_spec hrange
  have hpos := minUpdates_pos hrange
  obtain rfl | hβpos := hnonneg.eq_or_lt
  · rw [kept_pos_iff hβ]
    simp only [zero_mul, ceil_zero]
    omega
  · -- nothing is left of one and of two, so the number is at least three
    have hceil : ∀ m : ℕ, 1 ≤ m → 1 ≤ ⌈β * m⌉₊ := by
      intro m hm
      rw [one_le_ceil_iff]
      have hm' : (0 : ℚ) < m := by exact_mod_cast hm
      positivity
    have hthree : 3 ≤ minUpdates beta := by
      by_contra hless
      have hkept := (kept_pos_iff hβ).mp hmin.1
      have := hceil (minUpdates beta) hpos
      omega
    have htrim : ⌈β * n⌉₊ ≤ (n + 3) / 4 := by
      rw [ceil_le]
      have hdiv : n ≤ 4 * ((n + 3) / 4) := by omega
      have hdiv' : (n : ℚ) ≤ 4 * ((n + 3) / 4 : ℕ) := by exact_mod_cast hdiv
      have hn0 : (0 : ℚ) ≤ n := cast_nonneg n
      calc β * n ≤ 1 / 4 * n := mul_le_mul_of_nonneg_right hquarter hn0
        _ ≤ ((n + 3) / 4 : ℕ) := by linarith
    rw [kept_pos_iff hβ]
    omega

/-- **Above a quarter**: nothing is left of the number after the smallest. -/
theorem kept_succ_eq_zero (hrange : beta.inRange = true) (hquarter : 1 / 4 < β) :
    kept beta (minUpdates beta + 1) = 0 := by
  obtain ⟨hkept, hbefore⟩ := minUpdates_spec hrange
  set m := minUpdates beta with hm
  rw [kept_pos_iff hβ] at hkept
  rw [kept_eq_zero_iff hβ]
  by_contra hmore
  rw [not_le] at hmore
  have hmono : ∀ {i j : ℕ}, i ≤ j → ⌈β * i⌉₊ ≤ ⌈β * j⌉₊ := by
    intro i j hij
    refine ceil_mono (mul_le_mul_of_nonneg_left ?_ (by linarith))
    exact_mod_cast hij
  have hpos : 1 ≤ ⌈β * m⌉₊ := by
    rw [one_le_ceil_iff]
    have hm1 : (1 : ℚ) ≤ m := by exact_mod_cast (by omega : 1 ≤ m)
    nlinarith
  -- an even number would not be the smallest
  obtain ⟨k, hk⟩ : ∃ k, m = 2 * k + 1 := by
    refine odd_iff.mpr (mod_two_ne_zero.mp fun heven => ?_)
    have hprev := (kept_eq_zero_iff hβ).mp (hbefore (m - 1) (by omega) (by omega))
    have hle := hmono (show m - 1 ≤ m by omega)
    omega
  -- two numbers before it nothing is left, and of the number after it something
  have hlow : ((k - 1 : ℕ) : ℚ) < β * (2 * k - 1 : ℕ) := by
    have hprev := (kept_eq_zero_iff hβ).mp (hbefore (2 * k - 1) (by omega) (by omega))
    rw [← lt_ceil]
    omega
  have hhigh : β * (2 * k + 2 : ℕ) ≤ k := by
    have hceil : ⌈β * (m + 1 : ℕ)⌉₊ ≤ k := by omega
    rw [show m + 1 = 2 * k + 2 by omega] at hceil
    exact ceil_le.mp hceil
  have hk1 : 1 ≤ k := by omega
  push_cast [cast_sub hk1, cast_sub (show 1 ≤ 2 * k by omega)] at hlow hhigh
  have hk1' : (1 : ℚ) ≤ k := by exact_mod_cast hk1
  have hk2 : (k : ℚ) < 2 := by
    have hlow' := mul_lt_mul_of_pos_right hlow (show (0 : ℚ) < 2 * k + 2 by linarith)
    have hhigh' := mul_le_mul_of_nonneg_right hhigh (show (0 : ℚ) ≤ 2 * k - 1 by linarith)
    linarith [mul_comm (β * (2 * (k : ℚ) + 2)) (2 * (k : ℚ) - 1)]
  obtain rfl : k = 1 := by
    have : k < 2 := by exact_mod_cast hk2
    omega
  norm_num at hhigh
  linarith

end Reads

end TrimmedMean

/-! ## The barrier of a service -/

namespace ShardService

variable {V H : Type} {A : Arithmetic V} {blake3 : Bytes → H} {config : PsConfig}
  {s s' : ShardService V H} {u : ParamUpdate V} {ranges : List ParamRange} {store : ShardStore V}

theorem validate_min {c : PsConfig} {x : Unit} (h : c.validate = .ok x) :
    minUpdates c.trimBeta ≤ c.maxWorkersPerRange := by
  obtain ⟨hrange, -⟩ := validate_ok h
  unfold PsConfig.validate TrimmedMean.new at h
  rw [if_pos hrange] at h
  dsimp only at h
  split at h
  · cases h
  next hmin => exact not_lt.mp hmin

/-- **What holds of a service at any time**: the entries of a range are for the
range, from different workers and no more than the cap, and the range is owned. -/
structure Steady (config : PsConfig) (s : ShardService V H) : Prop where
  config_eq : s.config = config
  capped : s.buffer.Capped
  cap : s.buffer.maxWorkersPerRange = config.maxWorkersPerRange
  owned : ∀ range ∈ s.ranges, s.store.ownedRange.covers range = true
  entries : ∀ range, ∀ u ∈ s.buffer.entries range,
    u.range = range ∧ u.values.length = range.len ∧ range ∈ s.ranges

theorem steady_new {epoch ceiling : ℕ} (hnew : new store config epoch ranges ceiling = .ok s) :
    Steady config s := by
  obtain ⟨hvalid, howned, -, rfl⟩ := new_eq_ok hnew
  exact ⟨rfl, UpdateBuffer.capped_new (validate_ok hvalid).2, rfl, howned, fun _ _ => nofun⟩

theorem mem_modifyFirst {α : Type} {p : α → Bool} {f : α → α} {l : List α} {a : α}
    (h : a ∈ modifyFirst p f l) : a ∈ l ∨ ∃ b ∈ l, a = f b := by
  induction l with
  | nil => cases h
  | cons b l ih =>
    unfold modifyFirst at h
    split at h
    · obtain rfl | h := mem_cons.mp h
      · exact .inr ⟨b, mem_cons_self, rfl⟩
      · exact .inl (mem_cons_of_mem _ h)
    · obtain rfl | h := mem_cons.mp h
      · exact .inl mem_cons_self
      · obtain h | ⟨c, hc, rfl⟩ := ih h
        · exact .inl (mem_cons_of_mem _ h)
        · exact .inr ⟨c, mem_cons_of_mem _ hc, rfl⟩

theorem Steady.push (h : Steady config s) (u : ParamUpdate V) :
    Steady config (s.push A blake3 u).2 := by
  rcases hpush : s.push A blake3 u with ⟨e | record, s'⟩
  · obtain rfl := push_error h.capped.cap hpush
    exact h
  · obtain ⟨buffer, hadmits, hadd, -, rfl⟩ := push_ok hpush
    obtain ⟨-, hvalid, hrange, -, -⟩ := admits_ok hadmits
    obtain ⟨-, hlength⟩ := ParamUpdate.validate_eq_ok hvalid
    have hcapped := h.capped.add hadd
    obtain ⟨l, rfl, hl⟩ := UpdateBuffer.add_ok hadd
    refine ⟨h.config_eq, hcapped, h.cap, h.owned, fun range v hv => ?_⟩
    dsimp only at hv
    rw [UpdateBuffer.entries_setEntries] at hv
    split at hv
    next heq =>
      subst heq
      obtain ⟨existing, -, rfl⟩ | ⟨-, -, rfl⟩ := hl
      · obtain hv | ⟨w, hw, rfl⟩ := mem_modifyFirst hv
        · exact h.entries _ v hv
        · obtain ⟨hwrange, hwlength, hmem⟩ := h.entries _ w hw
          refine ⟨hwrange, ?_, hmem⟩
          show (ParamUpdate.addInto A w.values u.values).length = _
          rw [ParamUpdate.addInto, length_append, length_zipWith, length_drop, hwlength, hlength]
          omega
      · obtain hv | hv := mem_append.mp hv
        · exact h.entries _ v hv
        · obtain rfl := mem_singleton.mp hv
          exact ⟨rfl, hlength, hrange⟩
    · exact h.entries range v hv

theorem Steady.endEpoch (h : Steady config s) :
    Steady config (s.endEpoch A blake3).2 := by
  unfold ShardService.endEpoch TrimmedMean.new
  split
  · exact h
  next beta _ =>
    have howned : (aggregateRanges A (rule A beta) s.buffer s.buffer.ranges
        s.store).2.ownedRange = s.store.ownedRange := ownedRange_aggregateRanges _ _
    unfold endEpochWithRule
    rcases hrun : aggregateRanges A (rule A beta) s.buffer s.buffer.ranges
      s.store with ⟨_ | _, store⟩
    · rw [hrun] at howned
      exact ⟨h.config_eq, h.capped, h.cap, fun r hr => howned ▸ h.owned r hr, h.entries⟩
    · rw [hrun] at howned
      exact ⟨h.config_eq, UpdateBuffer.capped_new h.capped.cap, h.cap,
        fun r hr => howned ▸ h.owned r hr, fun _ _ => nofun⟩

theorem step_push_fst (state : ShardService V H × List (ParamUpdate V)) (u : ParamUpdate V) :
    (step A blake3 state (.push u)).1 = (state.1.push A blake3 u).2 := by
  unfold step
  dsimp only
  rcases state.1.push A blake3 u with ⟨_ | _, _⟩ <;> rfl

theorem step_endEpoch_fst (state : ShardService V H × List (ParamUpdate V)) :
    (step A blake3 state .endEpoch).1 = (state.1.endEpoch A blake3).2 := by
  unfold step
  dsimp only
  rcases state.1.endEpoch A blake3 with ⟨_ | _, _⟩ <;> rfl

/-- Every service that a run reaches is steady. -/
theorem Steady.run (h : Steady config s) (history : List (ParamUpdate V)) (calls : List (Call V)) :
    Steady config (Run.run (step A blake3) (s, history) calls).1 := by
  refine Run.invariant (P := fun state : ShardService V H × List (ParamUpdate V) =>
    Steady config state.1) h (fun state call hstate => ?_) calls
  cases call with
  | push u =>
    rw [step_push_fst]
    exact hstate.push u
  | endEpoch =>
    rw [step_endEpoch_fst]
    exact hstate.endEpoch

/-- The loop over the ranges comes to its end if every range can be dealt
with. -/
theorem aggregateRanges_ends {rule : AggregationRule V} {buffer : UpdateBuffer V}
    (hcomputes : ∀ range ∈ ranges, Computes rule buffer range)
    (howned : ∀ range ∈ ranges, store.ownedRange.covers range = true) :
    ∃ store', aggregateRanges A rule buffer ranges store = (.ok (), store') := by
  induction ranges generalizing store with
  | nil => exact ⟨store, rfl⟩
  | cons range rest ih =>
    have hrest : ∀ r ∈ rest, Computes rule buffer r :=
      fun r hr => hcomputes r (mem_cons_of_mem _ hr)
    unfold aggregateRanges
    dsimp only
    by_cases hthin : (buffer.updatesFor range).length < rule.minUpdates
    · rw [if_pos hthin]
      exact ih hrest fun r hr => howned r (mem_cons_of_mem _ hr)
    · obtain ⟨delta, hdelta, hlength⟩ := hcomputes range mem_cons_self hthin
      obtain ⟨store₁, happly, howned₁, -⟩ := ShardStore.param_modifyRange (A := A)
        (f := A.add) (howned range mem_cons_self) hlength
      rw [if_neg hthin, hdelta]
      dsimp only
      rw [show store.applyDelta A range delta = (.ok (), store₁) from happly]
      refine ih hrest fun r hr => ?_
      rw [howned₁]
      exact howned r (mem_cons_of_mem _ hr)

/-- The barrier succeeds exactly if every buffered range is viable. -/
theorem Steady.endEpoch_ok_iff (h : Steady config s) (hbeta : config.trimBeta.inRange = true) :
    (∃ outcome s', s.endEpoch A blake3 = (.ok outcome, s')) ↔
      ∀ range ∈ s.buffer.ranges, s.viable range = true := by
  have hbeta' : s.config.trimBeta.inRange = true := h.config_eq ▸ hbeta
  constructor
  · rintro ⟨outcome, s', hend⟩ range hrange
    exact viable_of_endEpoch hbeta' hend hrange
  · intro hviable
    have hfits : ∀ range, Fits (s.buffer.updatesFor range) range := by
      intro range u hu
      obtain ⟨hrange, hlength, -⟩ := h.entries range u ((mem_insertionSort _).mp hu)
      exact ⟨hrange, hlength⟩
    have howned : ∀ range ∈ s.buffer.ranges, s.store.ownedRange.covers range = true := by
      intro range hrange
      obtain ⟨u, hu⟩ := exists_mem_of_ne_nil _ (h.capped.keys range (mem_ranges.mp hrange))
      exact h.owned range (h.entries range u hu).2.2
    obtain ⟨store, hrun⟩ := aggregateRanges_ends (A := A)
      (fun range hrange => computes_of_viable hbeta' (hfits range) (hviable range hrange)) howned
    have hend : s.endEpoch A blake3 = _ := endEpoch_eq hbeta'
    unfold endEpochWithRule at hend
    rw [hrun] at hend
    exact ⟨_, _, hend⟩

/-- **A barrier that is reliable**: it succeeds, and if it failed it would have
changed no parameter, no entry and not the epoch. -/
structure Reliable (A : Arithmetic V) (blake3 : Bytes → H) (s : ShardService V H) : Prop where
  succeeds : ∃ outcome s', s.endEpoch A blake3 = (.ok outcome, s')
  unchanged : ∀ e s', s.endEpoch A blake3 = (.error e, s') →
    (∀ key, s'.store.param A key = s.store.param A key) ∧ s'.buffer = s.buffer ∧
      s'.epoch = s.epoch

theorem reliable_iff : Reliable A blake3 s ↔ ∃ outcome s', s.endEpoch A blake3 = (.ok outcome, s') := by
  refine ⟨fun h => h.succeeds, fun h => ⟨h, fun e s' herror => ?_⟩⟩
  obtain ⟨outcome, s'', hok⟩ := h
  cases hok.symm.trans herror

/-! ## A range with many workers -/

/-- The address of a number: its eight bytes, after twelve zeros. -/
def numbered (n : ℕ) : Address :=
  ⟨⟨(replicate 12 0 ++ toBeBytes n).toArray, rfl⟩⟩

theorem numbered_injective {m n : ℕ} (hm : m < 2 ^ 64) (hn : n < 2 ^ 64)
    (h : numbered m = numbered n) : m = n := by
  have hlist := congrArg (fun a : Address => a.bytes.toArray.toList) h
  exact toBeBytes_injective hm hn (append_cancel_left hlist)

/-- The range of the first key. -/
def firstKey : ParamRange := ⟨0, 1⟩

/-- A worker pushes a zero for the first key. -/
def zeroPush (A : Arithmetic V) (n : ℕ) : ParamUpdate V :=
  ⟨numbered n, 0, 0, firstKey, [A.zero], 0⟩

/-- So many workers have pushed for the first key, once each. -/
structure Crowded (config : PsConfig) (n : ℕ) (s : ShardService V H) : Prop where
  epoch : s.epoch = 0
  ranges : s.ranges = [firstKey]
  ceiling : s.maxStepsPerEpoch = 0
  cap : s.buffer.maxWorkersPerRange = config.maxWorkersPerRange
  clocks : ∀ entry ∈ s.clock.clocks.entries, entry.2 = 0
  unseen : ∀ i, n ≤ i → i < 2 ^ 64 → s.clock.clocks.lookup (numbered i) = none
  entries : (s.buffer.entries firstKey).map (fun u => u.worker) = (range n).map numbered

theorem foldl_max_zero {l : List ℕ} (h : ∀ n ∈ l, n = 0) : l.foldl max 0 = 0 := by
  induction l with
  | nil => rfl
  | cons n l ih =>
    rw [foldl_cons, h n mem_cons_self]
    exact ih fun m hm => h m (mem_cons_of_mem _ hm)

section Zero

variable (hzero : A.isFinite A.zero = true)
include hzero

theorem validate_zeroPush (n : ℕ) : (zeroPush A n).validate A = .ok () := by
  show (if (!([A.zero].all A.isFinite)) = true then _ else _) = _
  rw [all_cons, hzero]
  rfl

section Crowded

variable {n : ℕ} (h : Crowded config n s)
include h

theorem Crowded.admits (hn : n < 2 ^ 64) : s.admits A (zeroPush A n) = .ok () := by
  have hfastest : s.clock.fastestClock = 0 := by
    refine foldl_max_zero fun clock hclock => ?_
    obtain ⟨entry, hentry, rfl⟩ := mem_map.mp hclock
    exact h.clocks entry hentry
  have hadmission : s.clock.admission 0 = .ok () := by
    unfold SspClock.admission
    rw [hfastest]
    exact if_neg (by omega)
  have hepoch : (zeroPush A n).epoch = s.epoch := h.epoch.symm
  have hrange : (zeroPush A n).range ∈ s.ranges := by
    rw [h.ranges]
    exact mem_singleton.mpr rfl
  unfold ShardService.admits
  rw [if_neg (not_not.mpr hepoch), validate_zeroPush hzero]
  show (if (zeroPush A n).range ∉ s.ranges then _ else _) = _
  rw [if_neg (not_not.mpr hrange), h.ceiling, if_neg (fun hpos => lt_irrefl _ hpos.1)]
  unfold SspClock.workerClock
  rw [show s.clock.clocks.lookup (zeroPush A n).worker = none from h.unseen n le_rfl hn]
  exact hadmission

variable (hn : n < config.maxWorkersPerRange) (hmax : config.maxWorkersPerRange < 2 ^ 64)
include hn hmax

theorem Crowded.add :
    s.buffer.add A (zeroPush A n) =
      (.ok (), s.buffer.setEntries firstKey (s.buffer.entries firstKey ++ [zeroPush A n])) := by
  have hfind : (s.buffer.entries firstKey).find?
      (fun v => v.worker = (zeroPush A n).worker) = none := by
    rw [find?_eq_none]
    intro v hv
    have hworker : v.worker ∈ (range n).map numbered :=
      h.entries ▸ mem_map.mpr ⟨v, hv, rfl⟩
    obtain ⟨i, hi, hvi⟩ := mem_map.mp hworker
    rw [mem_range] at hi
    rw [decide_eq_true_iff, ← hvi]
    intro heq
    exact hi.ne (numbered_injective (by omega) (by omega) heq)
  have hlength : (s.buffer.entries firstKey).length = n := by
    rw [← length_map, h.entries, length_map, length_range]
  unfold UpdateBuffer.add
  rw [validate_zeroPush hzero]
  rw [show (zeroPush A n).range = firstKey from rfl]
  dsimp only
  rw [hfind]
  dsimp only
  rw [hlength, h.cap, if_neg (by omega)]

theorem Crowded.push : Crowded config (n + 1) (s.push A blake3 (zeroPush A n)).2 := by
  have hadmits := h.admits hzero (hn.trans hmax)
  have hpush : (s.push A blake3 (zeroPush A n)).2 =
      { s with
        buffer := s.buffer.setEntries firstKey (s.buffer.entries firstKey ++ [zeroPush A n])
        clock := { s.clock with clocks := s.clock.clocks.insert (numbered n) 0 }
        accepted := s.accepted ++ [.forUpdate A blake3 (zeroPush A n)] } := by
    unfold ShardService.push
    rw [hadmits]
    dsimp only
    rw [h.add hzero hn hmax, advance_of_admits hadmits]
    rfl
  rw [hpush]
  refine ⟨h.epoch, h.ranges, h.ceiling, h.cap, fun entry hentry => ?_, fun i hi hi64 => ?_, ?_⟩
  · obtain heq | hentry := mem_cons.mp (AList.entries_insert (s := s.clock.clocks) ▸ hentry)
    · rw [heq]
    · exact h.clocks entry ((kerase_sublist _ _).subset hentry)
  · dsimp only
    rw [AList.lookup_insert_ne fun heq => ?_]
    · exact h.unseen i (by omega) hi64
    · have := numbered_injective hi64 (by omega) heq
      omega
  · dsimp only
    rw [UpdateBuffer.entries_setEntries, if_pos rfl, map_append, h.entries, range_succ, map_append]
    rfl

end Crowded

/-- So many pushes for the first key. -/
def crowd (A : Arithmetic V) (n : ℕ) : List (Call V) :=
  (range n).map (fun i => .push (zeroPush A i))

theorem Crowded.run (h : Crowded config 0 s)
    (hmax : config.maxWorkersPerRange < 2 ^ 64) {n : ℕ} (hn : n ≤ config.maxWorkersPerRange) :
    Crowded config n (Run.run (step A blake3) (s, []) (crowd A n)).1 := by
  induction n with
  | zero => exact h
  | succ n ih =>
    unfold crowd
    rw [range_succ, map_append, map_singleton, Run.run_concat, step_push_fst]
    exact (ih (by omega)).push hzero (by omega) hmax

end Zero

theorem crowded_new (hvalid : config.validate = .ok ()) :
    ∃ s : ShardService V H, new ⟨∅, firstKey⟩ config 0 [firstKey] 0 = .ok s ∧
      Crowded config 0 s := by
  refine ⟨⟨⟨∅, firstKey⟩, config, 0, .new config.stalenessBound, .new config.maxWorkersPerRange,
    [firstKey], 0, []⟩, ?_, rfl, rfl, rfl, rfl, fun _ => nofun, fun _ _ _ => rfl, rfl⟩
  unfold new
  rw [hvalid]
  rfl

/-- A range with a number of entries of which nothing is left. -/
theorem Crowded.not_reliable {n : ℕ} (h : Crowded config n s) (hs : Steady config s)
    (hbeta : config.trimBeta.inRange = true) (hmin : minUpdates config.trimBeta ≤ n)
    (hkept : kept config.trimBeta n = 0) : ¬Reliable A blake3 s := by
  rw [reliable_iff, hs.endEpoch_ok_iff hbeta]
  intro hviable
  have hlength : (s.buffer.entries firstKey).length = n := by
    rw [← length_map, h.entries, length_map, length_range]
  have hpos := minUpdates_pos hbeta
  have hmem : firstKey ∈ s.buffer.ranges := by
    rw [mem_ranges, ← AList.lookup_isSome]
    unfold UpdateBuffer.entries at hlength
    cases hlookup : s.buffer.buffered.lookup firstKey with
    | none =>
      rw [hlookup] at hlength
      have : n = 0 := hlength.symm
      omega
    | some l => rfl
  have hfirst := hviable firstKey hmem
  unfold viable at hfirst
  dsimp only at hfirst
  rw [hlength, hs.config_eq, hkept, Bool.or_eq_true, decide_eq_true_iff,
    decide_eq_true_iff] at hfirst
  omega

/-- **The barrier of every service of a configuration is reliable at all times**
exactly if the trim fraction is at most a quarter or the configuration admits no
more workers than the smallest number that the rule takes. -/
theorem barrier_reliable_iff (A : Arithmetic V) (blake3 : Bytes → H) {config : PsConfig} {β : ℚ}
    (hβ : config.trimBeta.Reads β) (hvalid : config.validate = .ok ())
    (hmax : config.maxWorkersPerRange < 2 ^ 64) (hzero : A.isFinite A.zero = true) :
    (∀ store epoch ranges ceiling (s : ShardService V H),
      new store config epoch ranges ceiling = .ok s → ∀ calls,
        Reliable A blake3 (Run.run (step A blake3) (s, []) calls).1) ↔
      β ≤ 1 / 4 ∨ config.maxWorkersPerRange = minUpdates config.trimBeta := by
  obtain ⟨hbeta, -⟩ := validate_ok hvalid
  have hmin := validate_min hvalid
  constructor
  · intro hreliable
    by_contra hnot
    obtain ⟨hquarter, hmore⟩ := not_or.mp hnot
    obtain ⟨s, hnew, hcrowded⟩ := crowded_new (V := V) (H := H) hvalid
    have hmany : minUpdates config.trimBeta + 1 ≤ config.maxWorkersPerRange := by omega
    have hrun : Crowded config _ (Run.run (step A blake3) (s, []) _).1 :=
      hcrowded.run hzero hmax hmany
    exact hrun.not_reliable ((steady_new hnew).run [] _) hbeta (le_succ _)
      (kept_succ_eq_zero hβ hbeta (not_le.mp hquarter)) (hreliable _ _ _ _ s hnew _)
  · intro hfraction store epoch ranges ceiling s hnew calls
    have hsteady : Steady config (Run.run (step A blake3) (s, []) calls).1 :=
      (steady_new hnew).run [] calls
    rw [reliable_iff, hsteady.endEpoch_ok_iff hbeta]
    intro range _
    have hcap := hsteady.capped.length_le range
    rw [hsteady.cap] at hcap
    unfold viable
    rw [hsteady.config_eq, Bool.or_eq_true, decide_eq_true_iff, decide_eq_true_iff]
    refine (lt_or_ge _ _).imp_right fun henough => ?_
    obtain hquarter | hequal := hfraction
    · exact kept_pos_of_le_quarter hβ hbeta hquarter henough
    · rw [le_antisymm (hequal ▸ hcap) henough]
      exact (minUpdates_spec hbeta).1

/-- The fraction one fifth, which is the default. -/
def oneFifth : Beta where
  display := "0.2"
  inRange := true
  trim n := (n + 4) / 5
  viable _ := ⟨3, by decide⟩

/-- The default configuration. -/
def defaultTrimming : PsConfig := ⟨oneFifth, 3, 40, 64⟩

theorem ceil_div {p q : ℕ} (hq : 0 < q) (n : ℕ) :
    ⌈((p : ℚ) / q) * n⌉₊ = (p * n + (q - 1)) / q := by
  have hq' : (0 : ℚ) < q := by exact_mod_cast hq
  refine eq_of_forall_ge_iff fun k => ?_
  rw [ceil_le, div_mul_eq_mul_div, div_le_iff₀ hq', div_le_iff_le_mul_add_pred hq,
    add_le_add_iff_right, mul_comm q k]
  exact_mod_cast Iff.rfl

/-- With the default configuration the barrier never fails. -/
theorem default_reliable :
    defaultTrimming.trimBeta.Reads (1 / 5) ∧
      ∀ store epoch ranges ceiling (s : ShardService ℕ Unit),
        new store defaultTrimming epoch ranges ceiling = .ok s → ∀ calls,
          Reliable naturals (fun _ => ())
            (Run.run (step naturals (fun _ => ())) (s, []) calls).1 := by
  have hreads : defaultTrimming.trimBeta.Reads (1 / 5) := by
    refine ⟨⟨fun _ => by norm_num, fun _ => rfl⟩, fun n => ?_⟩
    have hceil := ceil_div (p := 1) (q := 5) (by decide) n
    push_cast at hceil
    rw [hceil, one_mul]
    rfl
  refine ⟨hreads, ?_⟩
  exact (barrier_reliable_iff naturals (fun _ => ()) hreads (by decide +kernel) (by decide)
    rfl).mpr (.inl (by norm_num))

/-- The fraction three tenths. -/
def threeTenths : Beta where
  display := "0.3"
  inRange := true
  trim n := (3 * n + 9) / 10
  viable _ := ⟨3, by decide⟩

/-- Three workers push for the first key and four for the second one: the barrier
fails after it has changed the first key. -/
theorem four_workers_fail :
    threeTenths.Reads (3 / 10) ∧
    ∃ s e s₁, new ⟨∅, ⟨0, 2⟩⟩ ⟨threeTenths, 3, 40, 64⟩ 0 [⟨0, 1⟩, ⟨1, 2⟩] 10 = .ok s ∧
      (after (pushing 0 3 ⟨0, 1⟩ ++ pushing 3 4 ⟨1, 2⟩) s).endEpoch naturals (fun _ => ())
        = (.error e, s₁) ∧
      (after (pushing 0 3 ⟨0, 1⟩ ++ pushing 3 4 ⟨1, 2⟩) s).store.param naturals 0 = 0 ∧
      s₁.store.param naturals 0 = 1 := by
  refine ⟨⟨⟨fun _ => by norm_num, fun _ => rfl⟩, fun n => ?_⟩, _, _, _, rfl, rfl, ?_, ?_⟩
  · have hceil := ceil_div (p := 3) (q := 10) (by decide) n
    push_cast at hceil
    rw [hceil]
    rfl
  · decide +kernel
  · decide +kernel

end ShardService

end Qfc.Ps
