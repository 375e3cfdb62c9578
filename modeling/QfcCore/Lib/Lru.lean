import Mathlib

/-!
# Least-recently-used caches

A cache of at most `cap` entries, the most recently used one first. Its keys
are distinct and there are never more than `cap` of them, both carried by the
type. Storing a key moves it to the front and drops what no longer fits;
looking a key up moves it to the front as well.

What a cache answers is determined by its entries as a set (`find_eq_some`),
so a permutation of the entries answers alike: rebuilding a cache from its own
entries in any order forgets the order of use and nothing else
(`find_rebuild`).
-/

section Lookup

variable {K V : Type} [DecidableEq K]

/-- In a list without repeated keys a lookup finds exactly the members. -/
theorem lookup_eq_some_iff_mem {l : List (K × V)} (hl : (l.map Prod.fst).Nodup) {k : K} {v : V} :
    l.lookup k = some v ↔ (k, v) ∈ l := by
  induction l with
  | nil => simp
  | cons p l ih =>
    obtain ⟨k', v'⟩ := p
    rw [List.map_cons, List.nodup_cons] at hl
    obtain rfl | hk := eq_or_ne k k'
    · have hnot : (k, v) ∉ l := fun h => hl.1 (List.mem_map.mpr ⟨_, h, rfl⟩)
      simp [hnot, eq_comm]
    · rw [List.lookup_cons, beq_false_of_ne hk, List.mem_cons]
      simp [hk, ih hl.2]

end Lookup

/-- **A cache of at most `cap` entries**, the most recently used one first. -/
structure Lru (K V : Type) (cap : ℕ) where
  entries : List (K × V)
  /-- No key is there twice. -/
  nodup : (entries.map Prod.fst).Nodup
  /-- The capacity is kept. -/
  length_le : entries.length ≤ cap

namespace Lru

variable {K V : Type} [DecidableEq K] {cap : ℕ}

/-- The empty cache. -/
def empty : Lru K V cap := ⟨[], List.nodup_nil, Nat.zero_le _⟩

/-- The value of a key, the order of use left as it is. -/
def find (c : Lru K V cap) (k : K) : Option V := c.entries.lookup k

variable {c : Lru K V cap}

theorem find_eq_some {k : K} {v : V} : c.find k = some v ↔ (k, v) ∈ c.entries :=
  lookup_eq_some_iff_mem c.nodup

/-- The entries of the other keys. -/
def others (c : Lru K V cap) (k : K) : List (K × V) := c.entries.filter (fun p => p.1 ≠ k)

theorem mem_others {k : K} {p : K × V} : p ∈ c.others k ↔ p ∈ c.entries ∧ p.1 ≠ k := by
  simp [others]

/-- Drops the entries of some keys. -/
def retain (c : Lru K V cap) (keep : K → Bool) : Lru K V cap where
  entries := c.entries.filter (fun p => keep p.1)
  nodup := c.nodup.sublist (List.filter_sublist.map _)
  length_le := (List.length_filter_le _ _).trans c.length_le

theorem find_of_find_retain {keep : K → Bool} {k : K} {v : V}
    (h : (c.retain keep).find k = some v) : c.find k = some v := by
  rw [find_eq_some] at h ⊢
  exact List.mem_of_mem_filter h

variable [NeZero cap]

/-- Stores a value: the key moves to the front, and what no longer fits is
dropped at the end. -/
def put (c : Lru K V cap) (k : K) (v : V) : Lru K V cap where
  entries := (k, v) :: (c.others k).take (cap - 1)
  nodup := by
    rw [List.map_cons, List.nodup_cons]
    refine ⟨fun h => ?_, ?_⟩
    · obtain ⟨p, hp, rfl⟩ := List.mem_map.mp h
      exact (mem_others.mp (List.mem_of_mem_take hp)).2 rfl
    · exact c.nodup.sublist (((List.take_sublist _ _).trans List.filter_sublist).map _)
  length_le := by
    have hcap : 0 < cap := Nat.pos_of_neZero cap
    have htake : ((c.others k).take (cap - 1)).length ≤ cap - 1 := List.length_take_le _ _
    rw [List.length_cons]
    exact le_trans (Nat.succ_le_succ htake) (by omega)

/-- Marks a key as just used. -/
def touch (c : Lru K V cap) (k : K) : Lru K V cap :=
  match c.find k with
  | some v => c.put k v
  | none => c

@[simp] theorem find_put_self (c : Lru K V cap) (k : K) (v : V) :
    (c.put k v).find k = some v :=
  find_eq_some.mpr (List.mem_cons_self ..)

/-- What a cache answers after a store, it answered before: a store can only
forget other keys. -/
theorem find_of_find_put {k k' : K} {v w : V} (hk : k' ≠ k) (h : (c.put k v).find k' = some w) :
    c.find k' = some w := by
  rw [find_eq_some] at h ⊢
  obtain h | h := List.mem_cons.mp h
  · exact absurd (congrArg Prod.fst h) hk
  · exact (mem_others.mp (List.mem_of_mem_take h)).1

omit [NeZero cap] in
/-- The other entries of a key that is there leave one place. -/
theorem length_others_lt {k : K} {v : V} (h : c.find k = some v) :
    (c.others k).length < c.entries.length := by
  refine lt_of_le_of_ne (List.length_filter_le _ _) (fun heq => ?_)
  have hall := List.length_filter_eq_length_iff.mp heq (k, v) (find_eq_some.mp h)
  simp at hall

/-- There is room for a key: it is there already, or the cache is not full. -/
def Room (c : Lru K V cap) (k : K) : Prop := (c.find k).isSome ∨ c.entries.length < cap

/-- With room for the key, a store forgets nothing. -/
theorem find_put_of_room {k k' : K} (v : V) (hroom : c.Room k) (hk : k' ≠ k) :
    (c.put k v).find k' = c.find k' := by
  have hfit : (c.others k).length ≤ cap - 1 := by
    obtain h | h := hroom
    · obtain ⟨w, hw⟩ := Option.isSome_iff_exists.mp h
      have := length_others_lt hw
      have := c.length_le
      omega
    · have : (c.others k).length ≤ c.entries.length := List.length_filter_le _ _
      omega
  refine Option.ext (fun w => ⟨find_of_find_put hk, fun h => ?_⟩)
  rw [find_eq_some] at h ⊢
  refine List.mem_cons_of_mem _ ?_
  rw [List.take_of_length_le hfit]
  exact mem_others.mpr ⟨h, hk⟩

/-- A use changes no answer. -/
@[simp] theorem find_touch (c : Lru K V cap) (k k' : K) : (c.touch k).find k' = c.find k' := by
  unfold touch
  cases h : c.find k with
  | none => rfl
  | some v =>
    obtain rfl | hk := eq_or_ne k' k
    · rw [find_put_self, h]
    · exact find_put_of_room v (.inl (by rw [h]; rfl)) hk

/-- With room for the key, a store needs one more place at most. -/
theorem length_put_le (c : Lru K V cap) (k : K) (v : V) :
    (c.put k v).entries.length ≤ c.entries.length + 1 := by
  have hothers : (c.others k).length ≤ c.entries.length := List.length_filter_le _ _
  show ((c.others k).take (cap - 1)).length + 1 ≤ _
  exact Nat.succ_le_succ ((List.length_take_le' _ _).trans hothers)

/-! ## Rebuilding a cache -/

/-- The cache of a list of entries, stored one after the other. -/
def rebuild (l : List (K × V)) : Lru K V cap := l.foldl (fun c p => c.put p.1 p.2) empty

/-- A list of new keys that fits is stored without loss. -/
theorem mem_foldl_put {l : List (K × V)} (hnodup : (l.map Prod.fst).Nodup)
    (hnew : ∀ p ∈ l, c.find p.1 = none) (hfit : c.entries.length + l.length ≤ cap) (p : K × V) :
    p ∈ (l.foldl (fun c p => c.put p.1 p.2) c).entries ↔ p ∈ l ∨ p ∈ c.entries := by
  induction l generalizing c with
  | nil => simp
  | cons q l ih =>
    obtain ⟨k, v⟩ := q
    rw [List.map_cons, List.nodup_cons] at hnodup
    rw [List.length_cons] at hfit
    have hroom : c.Room k := .inr (by omega)
    have hfind : ∀ k', k' ≠ k → (c.put k v).find k' = c.find k' :=
      fun k' hk' => find_put_of_room v hroom hk'
    have hput : ∀ r, r ∈ (c.put k v).entries ↔ r = (k, v) ∨ r ∈ c.entries := by
      rintro ⟨k', w⟩
      rw [← find_eq_some, ← find_eq_some]
      obtain rfl | hk := eq_or_ne k' k
      · rw [find_put_self, hnew (k', v) (List.mem_cons_self ..)]
        simp [eq_comm]
      · rw [hfind k' hk]
        simp [hk]
    have hnew' : ∀ r ∈ l, (c.put k v).find r.1 = none := by
      intro r hr
      have hrk : r.1 ≠ k := fun h => hnodup.1 (List.mem_map.mpr ⟨r, hr, h⟩)
      rw [hfind r.1 hrk]
      exact hnew r (List.mem_cons_of_mem _ hr)
    have hlen := length_put_le c k v
    show p ∈ (l.foldl _ (c.put k v)).entries ↔ _
    rw [ih hnodup.2 hnew' (by omega), hput, List.mem_cons]
    tauto

/-- Rebuilding a cache from its entries, in any order, keeps every answer. -/
theorem find_rebuild {l : List (K × V)} (h : l.Perm c.entries) (k : K) :
    (rebuild l : Lru K V cap).find k = c.find k := by
  have hnodup : (l.map Prod.fst).Nodup := (h.map _).nodup_iff.mpr c.nodup
  have hfit : (empty : Lru K V cap).entries.length + l.length ≤ cap := by
    rw [h.length_eq]
    simpa [empty] using c.length_le
  refine Option.ext (fun v => ?_)
  rw [find_eq_some, find_eq_some, rebuild, mem_foldl_put hnodup (fun _ _ => rfl) hfit, h.mem_iff]
  simp [empty]

end Lru
