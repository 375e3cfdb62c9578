import Mathlib

/-!
# Partial maps over paths

A partial map from paths over an alphabet is built from three pieces: one entry
(`single`), a map moved below a path (`under`), and a map for each first letter
(`fork`). Updating one entry commutes with all three, which is what an
insertion into a compressed tree relies on: a path can be cut anywhere, and the
parts put together again.
-/

namespace PathMap

open Function List

variable {A V : Type*} [DecidableEq A]

/-- The map without entries. -/
def empty : List A → Option V := fun _ => none

/-- The map with the one entry `v` at `k`. -/
def single (k : List A) (v : V) : List A → Option V := update empty k (some v)

/-- The map that goes on as `g a` after the letter `a`. -/
def fork (g : A → List A → Option V) : List A → Option V
  | [] => none
  | a :: k => g a k

/-- The map `f` below the path `p`. -/
def under : List A → (List A → Option V) → List A → Option V
  | [], f => f
  | a :: p, f => fork (update (fun _ => empty) a (under p f))

omit [DecidableEq A] in
@[simp] theorem empty_apply (k : List A) : (empty : List A → Option V) k = none := rfl

@[simp] theorem under_nil (f : List A → Option V) : under [] f = f := rfl

theorem under_cons (a : A) (p : List A) (f : List A → Option V) :
    under (a :: p) f = fork (update (fun _ => empty) a (under p f)) := rfl

theorem under_append (p q : List A) (f : List A → Option V) :
    under (p ++ q) f = under p (under q f) := by
  induction p with
  | nil => rfl
  | cons a p ih => rw [cons_append, under_cons, under_cons, ih]

/-- Only paths that start with `p` have an entry below `p`. -/
theorem under_apply (p : List A) (f : List A → Option V) (k : List A) :
    under p f k = if p <+: k then f (k.drop p.length) else none := by
  induction p generalizing k with
  | nil => simp
  | cons a p ih =>
    rw [under_cons]
    cases k with
    | nil => simp [fork]
    | cons b k =>
      show update (fun _ => empty) a (under p f) b k = _
      by_cases hb : b = a
      · subst hb
        rw [update_self, ih]
        simp [cons_prefix_cons]
      · rw [update_of_ne hb]
        simp [cons_prefix_cons, Ne.symm hb]

/-- The map with the entry `v` at the end of the path, that goes on as `g a`
after the letter `a`. -/
def node (v : Option V) (g : A → List A → Option V) : List A → Option V
  | [] => v
  | a :: k => g a k

omit [DecidableEq A] in
theorem fork_eq_node (g : A → List A → Option V) : fork g = node none g := by
  funext k
  cases k with
  | nil | cons a k => rfl

/-- Updating an entry after a first letter, beside an entry at the end. -/
theorem node_update (v : Option V) (g : A → List A → Option V) (a : A) (k : List A) (w : Option V) :
    node v (update g a (update (g a) k w))
      = update (node v g) (a :: k) w := by
  funext j
  cases j with
  | nil => rw [update_of_ne (by simp)]; rfl
  | cons b j =>
    show update g a _ b j = _
    by_cases hb : b = a
    · subst hb
      rw [update_self]
      by_cases hj : j = k
      · rw [hj, update_self, update_self]
      · rw [update_of_ne hj, update_of_ne (by simpa using hj)]
        rfl
    · rw [update_of_ne hb, update_of_ne (by simp [hb])]
      rfl

theorem update_node_nil (v w : Option V) (g : A → List A → Option V) :
    update (node v g) [] w = node w g := by
  funext j
  cases j with
  | nil => rw [update_self]; rfl
  | cons b j => rw [update_of_ne (by simp)]; rfl

theorem fork_update (g : A → List A → Option V) (a : A) (k : List A) (v : Option V) :
    fork (update g a (update (g a) k v))
      = update (fork g) (a :: k) v := by
  rw [fork_eq_node, fork_eq_node, node_update]

theorem under_update (p : List A) (f : List A → Option V) (k : List A) (v : Option V) :
    under p (update f k v) = update (under p f) (p ++ k) v := by
  induction p with
  | nil => rfl
  | cons a p ih =>
    rw [under_cons, ih, under_cons, cons_append, ← fork_update, update_self, update_idem]

omit [DecidableEq A] in
@[simp] theorem fork_empty : fork (fun _ => empty) = (empty : List A → Option V) := by
  funext k
  cases k with
  | nil | cons a k => rfl

@[simp] theorem under_empty (p : List A) : under p empty = (empty : List A → Option V) := by
  induction p with
  | nil => rfl
  | cons a p ih =>
    have hself : update (fun _ => empty) a empty
        = (fun _ => empty : A → List A → Option V) := update_eq_self a _
    rw [under_cons, ih, hself, fork_empty]

theorem under_single (p k : List A) (v : V) : under p (single k v) = single (p ++ k) v := by
  unfold single
  rw [under_update, under_empty]

theorem single_apply (k j : List A) (v : V) :
    single k v j = if j = k then some v else none := by
  unfold single
  by_cases hj : j = k
  · rw [hj, update_self, if_pos rfl]
  · rw [update_of_ne hj, if_neg hj]
    rfl

/-! ## The values of a map -/

section Values

variable (letters : List A)

/-- The paths of one length, in the order of the letters. -/
def paths : ℕ → List (List A)
  | 0 => [[]]
  | n + 1 => letters.flatMap (fun a => (paths n).map (fun k => a :: k))

/-- The values of a map at the paths of one length, in their order. -/
def values (n : ℕ) (f : List A → Option V) : List V := (paths letters n).filterMap f

omit [DecidableEq A] in
theorem values_empty (n : ℕ) : values letters n (empty : List A → Option V) = [] := by
  unfold values
  rw [filterMap_eq_nil_iff]
  exact fun _ _ => rfl

omit [DecidableEq A] in
/-- The values of a fork, one first letter after the other. -/
theorem values_fork (n : ℕ) (g : A → List A → Option V) :
    values letters (n + 1) (fork g) = letters.flatMap (fun a => values letters n (g a)) := by
  show (letters.flatMap _).filterMap (fork g) = _
  rw [filterMap_flatMap]
  congr 1
  funext a
  rw [filterMap_map]
  rfl

variable {letters}

theorem flatMap_update_empty (hnodup : letters.Nodup) (n : ℕ) (a : A) (f : List A → Option V) :
    letters.flatMap (fun b => values letters n (update (fun _ => empty) a f b))
      = if a ∈ letters then values letters n f else [] := by
  have hval : ∀ b, values letters n (update (fun _ => empty) a f b)
      = if b = a then values letters n f else [] := by
    intro b
    by_cases hb : b = a
    · rw [hb, update_self, if_pos rfl]
    · rw [update_of_ne hb, if_neg hb, values_empty]
  simp only [hval]
  generalize values letters n f = vs
  clear hval
  induction letters with
  | nil => simp
  | cons b l ih =>
    obtain ⟨hb, hl⟩ := nodup_cons.mp hnodup
    rw [flatMap_cons, ih hl]
    by_cases hba : b = a
    · subst hba
      simp [hb]
    · simp [hba, Ne.symm hba]

theorem values_under (hnodup : letters.Nodup) (hall : ∀ a, a ∈ letters) (p : List A) (n : ℕ)
    (f : List A → Option V) : values letters (p.length + n) (under p f) = values letters n f := by
  induction p with
  | nil => rw [length_nil, Nat.zero_add, under_nil]
  | cons a p ih =>
    rw [length_cons, Nat.add_right_comm, under_cons, values_fork,
      flatMap_update_empty hnodup, if_pos (hall a), ih]

theorem values_single (hnodup : letters.Nodup) (hall : ∀ a, a ∈ letters) (k : List A) (v : V) :
    values letters k.length (single k v) = [v] := by
  have h := values_under hnodup hall k 0 (single [] v)
  rw [under_single, append_nil, Nat.add_zero] at h
  rw [h]
  rfl

omit [DecidableEq A] in
theorem mem_paths (hall : ∀ a, a ∈ letters) {n : ℕ} {k : List A} :
    k ∈ paths letters n ↔ k.length = n := by
  induction n generalizing k with
  | zero => simp [paths]
  | succ n ih =>
    cases k with
    | nil => simp [paths]
    | cons a k => simp [paths, hall, ih]

omit [DecidableEq A] in
theorem paths_nodup (hnodup : letters.Nodup) (n : ℕ) : (paths letters n).Nodup := by
  induction n with
  | zero => exact nodup_singleton _
  | succ n ih =>
    refine nodup_flatMap.mpr ⟨fun a _ => ih.map (fun k k' h => (cons_inj_right a).mp h), ?_⟩
    refine hnodup.imp (fun hab k hk hk' => ?_)
    obtain ⟨k₁, -, rfl⟩ := mem_map.mp hk
    obtain ⟨k₂, -, h⟩ := mem_map.mp hk'
    exact hab (cons.inj h).1.symm

end Values

/-! ## Maps renamed along an injection -/

section Rename

variable {K L : Type*} {e : K → L}

/-- **The map `m` with its keys renamed**; names outside the range have no
entry. -/
noncomputable def rename (e : K → L) (m : K → Option V) : L → Option V :=
  extend e m (fun _ => none)

theorem rename_apply (he : Injective e) (m : K → Option V) (k : K) :
    rename e m (e k) = m k :=
  he.extend_apply m _ k

theorem exists_of_rename {m : K → Option V} {l : L} (hl : (rename e m l).isSome) :
    ∃ k, e k = l := by
  by_contra hnone
  rw [rename, extend_apply' m _ l hnone] at hl
  cases hl

theorem rename_update [DecidableEq K] [DecidableEq L] (he : Injective e) (m : K → Option V) (k : K)
    (v : Option V) : rename e (update m k v) = update (rename e m) (e k) v := by
  funext l
  by_cases hl : ∃ j, e j = l
  · obtain ⟨j, rfl⟩ := hl
    rw [rename_apply he]
    by_cases hj : j = k
    · rw [hj, update_self, update_self]
    · rw [update_of_ne hj, update_of_ne (he.ne hj), rename_apply he]
  · have hne : l ≠ e k := fun h => hl ⟨k, h.symm⟩
    rw [update_of_ne hne, rename, rename, extend_apply' _ _ _ hl, extend_apply' _ _ _ hl]

theorem rename_none (e : K → L) : rename e (fun _ => none : K → Option V) = fun _ => none := by
  funext l
  by_cases hl : ∃ j, e j = l
  · unfold rename extend
    rw [dif_pos hl]
  · rw [rename, extend_apply' _ _ _ hl]

theorem rename_injective (he : Injective e) :
    Injective (rename (V := V) e) := by
  intro m m' h
  funext k
  rw [← rename_apply he m, h, rename_apply he]

end Rename

/-! ## Listing the values of a map with finitely many entries -/

section Lists

/-- **The list `vs` holds the values of `f`**, one for each entry. -/
def Lists {K : Type*} (f : K → Option V) (vs : List V) : Prop :=
  ∃ keys : List K, keys.Nodup ∧ (∀ k, k ∈ keys ↔ (f k).isSome) ∧ keys.filterMap f = vs

omit [DecidableEq A] in
theorem lists_empty : Lists (empty : List A → Option V) [] :=
  ⟨[], nodup_nil, fun k => by simp, rfl⟩

theorem lists_single (k : List A) (v : V) : Lists (single k v) [v] := by
  refine ⟨[k], nodup_singleton k, fun j => ?_, ?_⟩
  · rw [mem_singleton, single_apply]
    by_cases hj : j = k
    · simp [hj]
    · simp [hj]
  · rw [filterMap_cons_some (by rw [single_apply, if_pos rfl])]
    rfl

/-- A map renamed along an injection has the same values. -/
theorem Lists.rename {K L : Type*} {e : K → L} (he : Injective e) {f : K → Option V}
    {f' : L → Option V} (hf : ∀ k, f' (e k) = f k) (hrange : ∀ l, (f' l).isSome → ∃ k, e k = l)
    {vs : List V} : Lists f vs ↔ Lists f' vs := by
  constructor
  · rintro ⟨keys, hnodup, hmem, rfl⟩
    refine ⟨keys.map e, hnodup.map he, fun l => ?_, ?_⟩
    · rw [mem_map]
      constructor
      · rintro ⟨k, hk, rfl⟩
        rw [hf]
        exact (hmem k).mp hk
      · intro hl
        obtain ⟨k, rfl⟩ := hrange l hl
        rw [hf] at hl
        exact ⟨k, (hmem k).mpr hl, rfl⟩
    · rw [filterMap_map]
      exact congrArg (fun h => filterMap h keys) (funext hf)
  · rintro ⟨keys, hnodup, hmem, rfl⟩
    -- every listed key is the image of one
    obtain ⟨keys, rfl⟩ : keys ∈ Set.range (map e) := by
      rw [Set.range_list_map]
      exact fun l hl => hrange l ((hmem l).mp hl)
    refine ⟨keys, hnodup.of_map e, fun k => ?_, ?_⟩
    · rw [← hf, ← hmem, mem_map_of_injective he]
    · rw [filterMap_map]
      exact congrArg (fun h => filterMap h keys) (funext hf).symm

theorem Lists.under {f : List A → Option V} {vs : List V} (h : Lists f vs) (p : List A) :
    Lists (under p f) vs := by
  refine (Lists.rename (append_right_injective p) ?_ ?_).mp h
  · intro k
    rw [under_apply, if_pos (prefix_append _ _), drop_left]
  · intro l hl
    rw [under_apply] at hl
    by_cases hp : p <+: l
    · obtain ⟨k, hk⟩ := hp
      exact ⟨k, hk⟩
    · rw [if_neg hp] at hl
      cases hl

omit [DecidableEq A] in
/-- The values of a node: its own, then those after each letter. -/
theorem lists_node {letters : List A} (hnodup : letters.Nodup) (hall : ∀ a, a ∈ letters)
    {v : Option V} {g : A → List A → Option V} {vals : A → List V}
    (h : ∀ a, Lists (g a) (vals a)) : Lists (node v g) (v.toList ++ letters.flatMap vals) := by
  choose keys hkeys hmem hvals using h
  refine ⟨v.toList.map (fun _ => []) ++ letters.flatMap (fun a => (keys a).map (cons a)),
    ?_, fun k => ?_, ?_⟩
  · refine nodup_append.mpr ⟨?_, ?_, ?_⟩
    · cases v with
      | none => exact nodup_nil
      | some v => exact nodup_singleton _
    · refine nodup_flatMap.mpr
        ⟨fun a _ => (hkeys a).map (fun k k' hk => (cons_inj_right a).mp hk), ?_⟩
      refine hnodup.imp (fun hab k hk hk' => ?_)
      obtain ⟨k₁, -, rfl⟩ := mem_map.mp hk
      obtain ⟨k₂, -, hk₂⟩ := mem_map.mp hk'
      exact hab (cons.inj hk₂).1.symm
    · intro k hk k' hk' heq
      obtain ⟨-, -, rfl⟩ := mem_map.mp hk
      obtain ⟨a, -, hk'⟩ := mem_flatMap.mp hk'
      obtain ⟨k₂, -, rfl⟩ := mem_map.mp hk'
      cases heq
  · cases k with
    | nil => cases v <;> simp [node]
    | cons a k => simp [node, hall, hmem]
  · rw [filterMap_append, filterMap_flatMap]
    congr 1
    · cases v <;> rfl
    · refine congrArg (fun h => flatMap h letters) (funext fun a => ?_)
      rw [filterMap_map, ← hvals a]
      rfl

end Lists

end PathMap
