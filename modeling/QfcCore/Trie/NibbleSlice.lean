import QfcCore.Trie.Node

/-!
# Slices of nibbles

The paths of `nibbles.rs`, which the trie's functions read as lists of nibbles. A slice is
a window of the nibbles of a byte string. That the lists stand for the slices is one
equation (`toNibbles_eq`), from which each operation is the one of lists.
-/

namespace Qfc

open List

theorem getElem?_nibblesOfBytes (l : List UInt8) (i : ℕ) :
    (nibblesOfBytes l)[i]? = l[i / 2]?.map fun b =>
      if i % 2 = 0 then Nibble.ofNat (b.toNat / 16) else Nibble.ofNat b.toNat := by
  induction l generalizing i with
  | nil => rfl
  | cons b l ih =>
    match i with
    | 0 => rfl
    | 1 => rfl
    | i + 2 =>
      rw [nibblesOfBytes_cons, getElem?_cons_succ, getElem?_cons_succ, ih, Nat.add_mod_right,
        Nat.add_div_right i two_pos, getElem?_cons_succ]

/-- `NibbleSlice`. The fields are private, and what makes a slice keeps it inside its bytes. -/
structure NibbleSlice where
  data : List UInt8
  start : ℕ
  len : ℕ
  inside : start + len ≤ 2 * data.length

namespace NibbleSlice

/-- A slice of nibbles. -/
def fromNibbles (nibbles : List Nibble) : NibbleSlice where
  data := packNibbles nibbles
  start := 0
  len := nibbles.length
  inside := by
    rw [← nibblesOfBytes_length, nibblesOfBytes_packNibbles, length_append]
    omega

variable (s t : NibbleSlice)

/-- `at`, for an index below the length. -/
def nibbleAt (index : ℕ) : Nibble :=
  let actualIndex := s.start + index
  let byte := s.data.getD (actualIndex / 2) 0
  if actualIndex % 2 = 0 then Nibble.ofNat (byte.toNat / 16) else Nibble.ofNat byte.toNat

/-- The nibbles of a slice. -/
def toNibbles : List Nibble := (range s.len).map s.nibbleAt

/-- The slice from a position on. -/
def offset (offset : ℕ) (h : offset ≤ s.len) : NibbleSlice :=
  ⟨s.data, s.start + offset, s.len - offset, by have := s.inside; omega⟩

/-- `prefix`. -/
def firstNibbles (count : ℕ) (h : count ≤ s.len) : NibbleSlice :=
  ⟨s.data, s.start, count, by have := s.inside; omega⟩

/-- How far two slices agree. -/
def commonPrefixLen : ℕ :=
  let maxLen := min s.len t.len
  ((range maxLen).find? fun i => s.nibbleAt i ≠ t.nibbleAt i).getD maxLen

/-- `encode_compact`. The loop of the odd case starts at the second nibble. -/
def encodeCompact (isLeaf : Bool) : List UInt8 :=
  let flag := (if isLeaf then 2 else 0) + if s.len % 2 = 1 then 1 else 0
  if s.len % 2 = 1 then
    UInt8.ofNat (16 * flag + (s.nibbleAt 0).val) :: packNibbles (s.toNibbles.drop 1)
  else
    UInt8.ofNat (16 * flag) :: packNibbles s.toNibbles

/-- Reads the compact encoding. -/
def decodeCompact : List UInt8 → Option (NibbleSlice × Bool)
  | [] => none
  | b :: data =>
    let flag := b.toNat / 16
    let first := if flag &&& 1 ≠ 0 then [Nibble.ofNat b.toNat] else []
    some (fromNibbles (first ++ nibblesOfBytes data), flag &&& 2 ≠ 0)

/-- A slice is a window of the nibbles of its bytes. -/
theorem toNibbles_eq : s.toNibbles = ((nibblesOfBytes s.data).drop s.start).take s.len := by
  refine ext_getElem? fun i => ?_
  rw [toNibbles, getElem?_map, getElem?_take, getElem?_drop, getElem?_nibblesOfBytes]
  by_cases hi : i < s.len
  · have hbyte : (s.start + i) / 2 < s.data.length := by
      have := s.inside
      omega
    rw [if_pos hi, getElem?_range hi, getElem?_eq_getElem hbyte]
    simp only [Option.map_some, nibbleAt, getD_eq_getElem _ _ hbyte]
  · rw [if_neg hi, getElem?_eq_none (by simpa using hi)]
    rfl

theorem toNibbles_fromNibbles (l : List Nibble) : (fromNibbles l).toNibbles = l := by
  rw [toNibbles_eq]
  show ((nibblesOfBytes (packNibbles l)).drop 0).take l.length = l
  rw [nibblesOfBytes_packNibbles, drop_zero, take_left]

theorem length_toNibbles : s.toNibbles.length = s.len := by
  rw [toNibbles, length_map, length_range]

/-- Two slices start with the same nibbles just up to their common prefix length. -/
theorem le_commonPrefixLen (m : ℕ) :
    m ≤ s.commonPrefixLen t ↔ m ≤ min s.len t.len ∧ s.toNibbles.take m = t.toNibbles.take m := by
  have htake (hm : m ≤ min s.len t.len) : s.toNibbles.take m = t.toNibbles.take m ↔
      ∀ i ∈ range m, s.nibbleAt i = t.nibbleAt i := by
    rw [toNibbles, toNibbles, ← map_take, ← map_take, take_range, take_range,
      min_eq_left (hm.trans (min_le_left _ _)), min_eq_left (hm.trans (min_le_right _ _)),
      map_inj_left]
  rw [and_congr_right htake]
  simp only [commonPrefixLen]
  cases hfind : (range (min s.len t.len)).find? fun i => s.nibbleAt i ≠ t.nibbleAt i with
  | none =>
    rw [find?_range_eq_none] at hfind
    refine ⟨fun hm => ⟨hm, fun i hi => ?_⟩, And.left⟩
    simpa using hfind i ((mem_range.mp hi).trans_le hm)
  | some n =>
    obtain ⟨hdiffers, hn, hbefore⟩ := find?_range_eq_some.mp hfind
    refine ⟨fun hle => ⟨hle.trans (mem_range.mp hn).le, fun i hi => ?_⟩, fun h => not_lt.mp fun hlt =>
      of_decide_eq_true hdiffers (h.2 n (mem_range.mpr hlt))⟩
    simpa using hbefore i ((mem_range.mp hi).trans_le hle)

theorem decodeCompact_cons {flag : ℕ} (hflag : flag < 16) (first : Nibble) (data : List UInt8) :
    decodeCompact (UInt8.ofNat (16 * flag + first.val) :: data)
      = some (fromNibbles ((if flag &&& 1 ≠ 0 then [first] else []) ++ nibblesOfBytes data),
          decide (flag &&& 2 ≠ 0)) := by
  have hhigh : (16 * flag + first.val) / 16 = flag := by omega
  have hlow : Nibble.ofNat (16 * flag + first.val) = first := by
    refine Fin.ext ?_
    show (16 * flag + first.val) % 16 = first.val
    omega
  simp only [decodeCompact, toNat_pair hflag first.isLt, hhigh, hlow]

/-- Decoding gives the nibbles and the kind back. -/
theorem decodeCompact_encodeCompact (isLeaf : Bool) :
    decodeCompact (s.encodeCompact isLeaf) = some (fromNibbles s.toNibbles, isLeaf) := by
  have hlength := s.length_toNibbles
  by_cases hodd : s.len % 2 = 1
  · have hcons : s.nibbleAt 0 :: s.toNibbles.drop 1 = s.toNibbles := by
      obtain ⟨n, hn⟩ : ∃ n, s.len = n + 1 := ⟨s.len - 1, by omega⟩
      rw [toNibbles, hn, range_succ_eq_map]
      rfl
    have hrest := packNibbles_even (l := s.toNibbles.drop 1) (by rw [length_drop]; omega)
    simp only [encodeCompact, if_pos hodd]
    rw [decodeCompact_cons (by cases isLeaf <;> decide), hrest]
    cases isLeaf <;> exact congrArg (fun l => some (fromNibbles l, _)) hcons
  · have hrest := packNibbles_even (l := s.toNibbles) (by omega)
    simp only [encodeCompact, if_neg hodd]
    -- the low half of the first byte is not used
    show decodeCompact (UInt8.ofNat (16 * _ + (Nibble.ofNat 0).val) :: _) = _
    rw [decodeCompact_cons (by cases isLeaf <;> decide), hrest]
    cases isLeaf <;> rfl

/-- **Compact paths and slices are what they are for lists**: decoding an encoded path gives its
nibbles and its kind back, an encoding belongs to one list of nibbles and one kind, and the
operations on slices are those on lists. -/
theorem compact_paths (isLeaf isLeaf' : Bool) :
    (∃ u, decodeCompact (s.encodeCompact isLeaf) = some (u, isLeaf) ∧ u.toNibbles = s.toNibbles) ∧
    (s.encodeCompact isLeaf = t.encodeCompact isLeaf' →
      s.toNibbles = t.toNibbles ∧ isLeaf = isLeaf') ∧
    (∀ l, (fromNibbles l).toNibbles = l) ∧
    (∀ n h, (s.offset n h).toNibbles = s.toNibbles.drop n) ∧
    (∀ n h, (s.firstNibbles n h).toNibbles = s.toNibbles.take n) ∧
    ∀ m, m ≤ s.commonPrefixLen t ↔
      m ≤ min s.len t.len ∧ s.toNibbles.take m = t.toNibbles.take m := by
  refine ⟨⟨_, s.decodeCompact_encodeCompact isLeaf, toNibbles_fromNibbles _⟩, fun h => ?_,
    toNibbles_fromNibbles, fun n h => ?_, fun n h => ?_, s.le_commonPrefixLen t⟩
  · have hdecode := congrArg decodeCompact h
    rw [decodeCompact_encodeCompact, decodeCompact_encodeCompact, Option.some_inj,
      Prod.mk.injEq] at hdecode
    obtain ⟨hnibbles, hleaf⟩ := hdecode
    have := congrArg toNibbles hnibbles
    rw [toNibbles_fromNibbles, toNibbles_fromNibbles] at this
    exact ⟨this, hleaf⟩
  · rw [toNibbles_eq, toNibbles_eq, drop_take, drop_drop]
    rfl
  · rw [toNibbles_eq, toNibbles_eq, take_take, min_eq_left h]
    rfl

end NibbleSlice

end Qfc
