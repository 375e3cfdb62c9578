import Mathlib

/-!
# A space-saving sketch

The heavy hitters of `qfc-storage/src/hotkeys.rs`. The sketch has a counter for at most
so many keys; a key that is new when it is full takes over the entry with the smallest
count. Everything it promises follows from a number, `low`, that no count of an entry
is below: no error is above it, and no key without an entry was offered more often.
-/

namespace Qfc.Storage

open Function List

/-- `SsCounter`. -/
structure SsCounter where
  count : ℕ
  error : ℕ
deriving DecidableEq

/-- One more, of 64 bits. -/
def bump (count : ℕ) : ℕ := (count + 1) % 2 ^ 64

/-- The counters, with the place of each key among them. -/
structure SpaceSaving (K : Type) where
  capacity : ℕ
  index : K → Option ℕ
  entries : List (K × SsCounter)

namespace SpaceSaving

variable {K : Type}

/-- A sketch without entries, for at least one. -/
def new (capacity : ℕ) : SpaceSaving K := ⟨max capacity 1, fun _ => none, []⟩

section

variable (s : SpaceSaving K)

/-- `min_by_key`: the first entry with the smallest count. -/
def minIdx : ℕ := s.entries.findIdx fun e => s.entries.all fun f => e.2.count ≤ f.2.count

/-- The order of `top`: descending by the counts. -/
abbrev Heavier (e f : K × SsCounter) : Prop := f.2.count ≤ e.2.count

/-- The heaviest entries. -/
def top (n : ℕ) : List (K × SsCounter) := (s.entries.insertionSort Heavier).take n

theorem minIdx_spec (hne : s.entries ≠ []) :
    ∃ k c, s.entries[s.minIdx]? = some (k, c) ∧ ∀ e ∈ s.entries, c.count ≤ e.2.count := by
  obtain ⟨e, he, hmin⟩ := (measure fun e : K × SsCounter => e.2.count).wf.has_min
    {e | e ∈ s.entries} (exists_mem_of_ne_nil _ hne)
  have hlt : s.minIdx < s.entries.length := findIdx_lt_length.mpr ⟨e, he, by
    simpa using fun k c hf => not_lt.mp (hmin (k, c) hf)⟩
  have hall := findIdx_getElem (w := hlt)
  simp only [all_eq_true, decide_eq_true_eq] at hall
  exact ⟨_, _, getElem?_eq_getElem hlt, hall⟩

end

variable [DecidableEq K] (s : SpaceSaving K) (key : K)

/-- An entry for a new key, in the place of the lightest if there is no room. -/
def insertNew : SpaceSaving K :=
  if s.entries.length < s.capacity then
    { s with
      index := update s.index key (some s.entries.length)
      entries := s.entries ++ [(key, ⟨1, 0⟩)] }
  else
    match s.entries[s.minIdx]? with
    -- a full sketch has an entry
    | none => s
    | some (oldKey, c) =>
      { s with
        index := update (update s.index oldKey none) key (some s.minIdx)
        entries := s.entries.set s.minIdx (key, ⟨bump c.count, c.count⟩) }

/-- A key is seen. -/
def offer : SpaceSaving K :=
  match s.index key with
  | some i =>
    { s with entries := s.entries.modify i fun e => (e.1, { e.2 with count := bump e.2.count }) }
  | none => s.insertNew key

variable (C : ℕ) (stream : List K)

/-- The entries are those of the index, and count the stream. -/
structure Tracks : Prop where
  capacity : s.capacity = max C 1
  index : ∀ k i, s.index k = some i ↔ s.entries[i]?.map Prod.fst = some k
  total : (s.entries.map fun e => e.2.count).sum = stream.length
  size : s.entries.length ≤ s.capacity

/-- **What a sketch says about a stream**: an estimate is off by at most the error, which is
at most `S / C`; a key that was offered more often than that has an entry; and `top` gives
the first entries in descending order. -/
structure Sketches : Prop extends s.Tracks C stream where
  bounds : ∀ k c, (k, c) ∈ s.entries → c.count - c.error ≤ stream.count k ∧
    stream.count k ≤ c.count ∧ c.error ≤ stream.length / s.capacity
  frequent : ∀ k, stream.length / s.capacity < stream.count k → ∃ c, (k, c) ∈ s.entries
  top : ∀ n, ∃ rest, (s.top n ++ rest).Perm s.entries ∧
    (s.top n).length = min n s.entries.length ∧ (s.top n ++ rest).Pairwise Heavier

/-- **What every offer keeps**, with a number that no count is below. -/
structure Kept (low : ℕ) : Prop extends s.Tracks C stream where
  room : s.entries.length < s.capacity → low = 0
  entry : ∀ {i : ℕ} {k : K} {c : SsCounter}, s.entries[i]? = some (k, c) →
    c.count ≤ stream.count k + c.error ∧ stream.count k ≤ c.count ∧ c.error ≤ low ∧ low ≤ c.count
  untracked : ∀ {k : K}, s.index k = none → stream.count k ≤ low

variable {s key C stream} {low : ℕ}

theorem count_concat (k : K) :
    (stream ++ [key]).count k = stream.count k + if key = k then 1 else 0 := by
  simp only [count_append, count_singleton, beq_iff_eq]

namespace Kept

variable (h : s.Kept C stream low)
include h

theorem pos : 0 < s.capacity := h.capacity ▸ lt_max_of_lt_right one_pos

/-- An entry counts one more, for the key that it has or for a new one. -/
theorem replace {i error low' : ℕ} {k : K} {c : SsCounter}
    (hi : s.entries[i]? = some (k, c)) (hkey : key = k ∨ s.index key = none)
    (hold : k = key ∨ stream.count k ≤ low') (hle : low ≤ low')
    (hlow : ∀ {j : ℕ} {k : K} {c : SsCounter}, s.entries[j]? = some (k, c) → low' ≤ c.count)
    (herror : error ≤ low') (hcount : c.count ≤ stream.count key + error)
    (hkeyle : stream.count key ≤ c.count) (hroom : s.entries.length < s.capacity → low' = 0) :
    Kept { s with
      index := update (update s.index k none) key (some i)
      entries := s.entries.set i (key, ⟨c.count + 1, error⟩) } C (stream ++ [key]) low' := by
  obtain ⟨hlt, hget⟩ := List.getElem?_eq_some_iff.mp hi
  -- no other entry has the key of this one
  have hk := h.index k i
  refine ⟨⟨h.capacity, fun k' j => ?_, ?_, by simpa using h.size⟩, by simpa using hroom,
    fun {j k' c'} hj => ?_, fun {k'} hk' => ?_⟩
  · have := h.index k' j
    simp only [update_apply, getElem?_set]
    grind
  · obtain ⟨l₁, l₂, hl, -, hset⟩ := @exists_of_set _ i (key, ⟨c.count + 1, error⟩) _ hlt
    have htotal := h.total
    rw [hl, hget] at htotal
    simp only [hset, map_append, map_cons, sum_append, sum_cons, length_append] at htotal ⊢
    simp only [length_singleton]
    omega
  · rw [count_concat]
    have hentry : s.entries[j]? = some (k', c') → _ := h.entry
    have := h.index k' j
    simp only [getElem?_set] at hj
    grind
  · rw [count_concat]
    have := h.untracked (k := k')
    simp only [update_apply] at hk'
    grind

/-- No count is above the number of offers. -/
theorem bump_eq (hlen : stream.length + 1 < 2 ^ 64) {i : ℕ} {k : K} {c : SsCounter}
    (hi : s.entries[i]? = some (k, c)) : bump c.count = c.count + 1 := by
  have hle : c.count ≤ (s.entries.map fun e => e.2.count).sum :=
    le_sum_of_mem (mem_map_of_mem (mem_of_getElem? hi))
  exact Nat.mod_eq_of_lt (by rw [h.total] at hle; omega)

/-- An offer keeps what the sketch has to keep. -/
theorem offer (hlen : stream.length + 1 < 2 ^ 64) :
    ∃ low', (s.offer key).Kept C (stream ++ [key]) low' := by
  unfold SpaceSaving.offer
  cases hkey : s.index key with
  | some i =>
    obtain ⟨⟨key, c⟩, hi, rfl⟩ := Option.map_eq_some_iff.mp ((h.index key i).mp hkey)
    obtain ⟨hcount, hle, herror, -⟩ := h.entry hi
    have hnext := h.replace hi (.inl rfl) (.inl rfl) le_rfl (fun hj => (h.entry hj).2.2.2) herror
      hcount hle h.room
    rw [update_idem, ← hkey, update_eq_self, ← h.bump_eq hlen hi] at hnext
    simp only [modify_eq_set_getElem?, hi]
    exact ⟨low, hnext⟩
  | none =>
    have hnone := h.untracked hkey
    unfold insertNew
    split_ifs with hroom
    · obtain rfl := h.room hroom
      refine ⟨0, ⟨h.capacity, fun k i => ?_, ?_, ?_⟩, fun _ => rfl, fun {i k c} hi => ?_,
        fun {k} hk => ?_⟩
      · have := h.index k i
        simp only [update_apply]
        grind
      · simp [h.total]
      · simpa using hroom
      · have hentry : s.entries[i]? = some (k, c) → _ := h.entry
        have := h.index k i
        grind
      · have := h.untracked (k := k)
        simp only [update_apply] at hk
        grind
    · obtain ⟨k, c, hi, hmin⟩ := s.minIdx_spec (length_pos_iff.mp (h.pos.trans_le (not_lt.mp hroom)))
      obtain ⟨-, hle, -, hlow⟩ := h.entry hi
      simp only [hi, h.bump_eq hlen hi]
      exact ⟨c.count, h.replace hi (.inr hkey) (.inr hle) hlow
        (fun hj => hmin _ (mem_of_getElem? hj)) le_rfl (Nat.le_add_left _ _) (hnone.trans hlow)
        fun h => absurd h hroom⟩

/-- The counts of a full sketch sum up to the length of the stream, so the smallest is at most
`S / C`. -/
theorem low_le : low ≤ stream.length / s.capacity := by
  rw [Nat.le_div_iff_mul_le h.pos, ← h.total, mul_comm]
  rcases h.size.lt_or_eq with hroom | hfull
  · rw [h.room hroom, mul_zero]
    exact Nat.zero_le _
  · have hsum := (s.entries.map fun e => e.2.count).card_nsmul_le_sum low fun n hn => by
      obtain ⟨e, he, rfl⟩ := mem_map.mp hn
      obtain ⟨i, hi⟩ := mem_iff_getElem?.mp he
      exact (h.entry hi).2.2.2
    rwa [length_map, hfull] at hsum

theorem sketches : s.Sketches C stream := by
  refine ⟨h.toTracks, fun k c hmem => ?_, fun k hk => ?_, fun n => ?_⟩
  · obtain ⟨i, hi⟩ := mem_iff_getElem?.mp hmem
    obtain ⟨hcount, hle, herror, -⟩ := h.entry hi
    exact ⟨Nat.sub_le_iff_le_add.mpr hcount, hle, herror.trans h.low_le⟩
  · cases hi : s.index k with
    | none => exact absurd (h.untracked hi) (not_le.mpr (h.low_le.trans_lt hk))
    | some i =>
      obtain ⟨⟨k, c⟩, hc, rfl⟩ := Option.map_eq_some_iff.mp ((h.index k i).mp hi)
      exact ⟨c, mem_of_getElem? hc⟩
  · have : Std.Total (Heavier (K := K)) := ⟨fun _ _ => le_total _ _⟩
    have : IsTrans _ (Heavier (K := K)) := ⟨fun _ _ _ h₁ h₂ => h₂.trans h₁⟩
    refine ⟨(s.entries.insertionSort Heavier).drop n, ?_⟩
    rw [SpaceSaving.top, take_append_drop, length_take, length_insertionSort]
    exact ⟨perm_insertionSort _ _, rfl, pairwise_insertionSort _ _⟩

end Kept

/-- **The sketch of a stream keeps its promises**, as long as the number of offers fits the
counters. -/
theorem sketches_offers (C : ℕ) (stream : List K) (hlen : stream.length < 2 ^ 64) :
    (stream.foldl offer (new C)).Sketches C stream := by
  have hrun : ∃ low, (stream.foldl offer (new C)).Kept C stream low := by
    induction stream using List.reverseRecOn with
    | nil => exact ⟨0, ⟨rfl, by simp [new], rfl, Nat.zero_le _⟩, fun _ => rfl, by simp [new],
        fun _ => Nat.zero_le _⟩
    | append_singleton stream key ih =>
      rw [length_append, length_singleton] at hlen
      obtain ⟨low, h⟩ := ih (Nat.lt_of_succ_lt hlen)
      rw [foldl_append]
      exact h.offer hlen
  obtain ⟨low, h⟩ := hrun
  exact h.sketches

/-- Four offers to a sketch of two counters: the third key takes over the entry of the
second. -/
theorem sketches_takeover :
    ([1, 1, 2, 3].foldl offer (new 2)).Sketches 2 [1, 1, 2, 3] ∧
      ([1, 1, 2, 3].foldl offer (new 2)).entries = [(1, ⟨2, 0⟩), (3, ⟨2, 1⟩)] :=
  ⟨sketches_offers 2 [1, 1, 2, 3] (by decide), by decide⟩

end SpaceSaving

end Qfc.Storage
