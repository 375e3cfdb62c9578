import QfcCore.Mempool.Pool

/-!
# Selecting the transactions of a block

`select_with_nonce` of `qfc-mempool/src/pool.rs` walks the price index from the
highest price and takes what fits: a running total of gas limits and the next
nonce of each sender, both 64 bits wide. `planOne` is a turn of that walk with
exact numbers, which gives what a block needs (`Executable`); the code gives it
unless a total or a nonce leaves the 64 bits on the way (`select_executable_iff`).

The clock is read once for each entry, so it is a function of the entry. The
sender of a transaction is recorded in the pool only, and the selection is
described by the pooled transactions.
-/

namespace Qfc

open Function List

/-- Older than the lifetime. -/
def PooledTransaction.isExpired {H : Type} (p : PooledTransaction H) (lifetime now : ℕ) : Bool :=
  lifetime < now - p.addedAt

/-- The nonce a sender starts with; a lookup that fails counts as 0. -/
def firstNonce (lookup : NonceLookup) (sender : Address) : UInt64 :=
  match lookup sender with
  | .ok nonce => nonce
  | .error _ => 0

/-- The variables of the loop of `select_with_nonce`. -/
structure Selection (H : Type) where
  selected : List (PooledTransaction H)
  gasUsed : UInt64
  nextNonce : Address → Option UInt64

namespace Selection

variable {H : Type}

/-- Before the loop. -/
def start : Selection H := ⟨[], 0, fun _ => none⟩

/-- Takes a transaction. -/
def take (s : Selection H) (p : PooledTransaction H) : Selection H :=
  { s with selected := s.selected ++ [p], gasUsed := s.gasUsed + p.tx.gasLimit }

/-- The end of a turn with a nonce lookup: the next nonce of the sender is
looked up when the sender is first met. -/
def takeInSequence (lookup : NonceLookup) (s : Selection H) (p : PooledTransaction H) :
    Selection H :=
  let expected := (s.nextNonce p.sender).getD (firstNonce lookup p.sender)
  if p.tx.nonce ≠ expected then
    { s with nextNonce := update s.nextNonce p.sender (some expected) }
  else
    { s with nextNonce := update s.nextNonce p.sender (some (expected + 1)) }.take p

/-- One turn of the loop, at a transaction of the pool. -/
def visit (lifetime now : ℕ) (maxGas : UInt64) (lookup : Option NonceLookup) (s : Selection H)
    (p : PooledTransaction H) : Selection H :=
  if maxGas < s.gasUsed + p.tx.gasLimit then s
  else if p.isExpired lifetime now then s
  else
    match lookup with
    | some lookup => s.takeInSequence lookup p
    | none => s.take p

end Selection

namespace Mempool

variable {H : Type} [HashScheme H]

section

variable (cfg : MempoolConfig) (m : Mempool H) (now : H → ℕ) (maxGas : UInt64) (maxCount : ℕ)

/-- The loop of `select_with_nonce` over the entries of the price index. -/
def selectFrom (lookup : Option NonceLookup) : List (U256 × H) → Selection H → Selection H
  | [], s => s
  | (_, hash) :: entries, s =>
    if maxCount ≤ s.selected.length then s
    else
      match m.get hash with
      | some p =>
        selectFrom lookup entries (s.visit cfg.txLifetime (now hash) maxGas lookup p)
      | none => selectFrom lookup entries s

/-- The pooled transactions that `select_with_nonce` selects. -/
def selectPooled (lookup : Option NonceLookup) : List (PooledTransaction H) :=
  (selectFrom cfg m now maxGas maxCount lookup m.byPrice.rows.reverse .start).selected

/-- **`select_with_nonce`.** -/
def selectWithNonce (lookup : Option NonceLookup) : List Transaction :=
  (selectPooled cfg m now maxGas maxCount lookup).map PooledTransaction.tx

/-! ## What a block needs -/

variable (lookup : NonceLookup) (chosen : List (PooledTransaction H))

/-- The sum of the gas limits. -/
def totalGas : ℕ := (chosen.map (fun p => p.tx.gasLimit.toNat)).sum

/-- The transactions of a sender. -/
def ofSender (sender : Address) : List (PooledTransaction H) :=
  chosen.filter (fun p => p.sender = sender)

/-- **A list of transactions that a block can execute**: within the two limits,
and the nonces of each sender are those that come next, in order. -/
structure Executable : Prop where
  count_le : chosen.length ≤ maxCount
  gas_le : totalGas chosen ≤ maxGas.toNat
  nonces : ∀ sender, (ofSender chosen sender).map (fun p => p.tx.nonce.toNat) =
    range' (firstNonce lookup sender).toNat (ofSender chosen sender).length

/-- The nonce that comes next, after some transactions of the sender. -/
def dueNonce (sender : Address) : ℕ :=
  (firstNonce lookup sender).toNat + (ofSender chosen sender).length

variable (p : PooledTransaction H)

/-- Whether the walk with exact numbers takes a transaction. -/
def Fits : Prop :=
  chosen.length < maxCount ∧ p.isExpired cfg.txLifetime (now p.hash) = false ∧
    totalGas chosen + p.tx.gasLimit.toNat ≤ maxGas.toNat ∧
    p.tx.nonce.toNat = dueNonce lookup chosen p.sender

/-- Whether it takes the transaction with numbers of 64 bits. -/
def FitsWrapped : Prop :=
  chosen.length < maxCount ∧ p.isExpired cfg.txLifetime (now p.hash) = false ∧
    (totalGas chosen + p.tx.gasLimit.toNat) % 2 ^ 64 ≤ maxGas.toNat ∧
    p.tx.nonce.toNat = dueNonce lookup chosen p.sender % 2 ^ 64

instance : Decidable (Fits cfg now maxGas maxCount lookup chosen p) :=
  inferInstanceAs (Decidable (_ ∧ _ ∧ _ ∧ _))

instance : Decidable (FitsWrapped cfg now maxGas maxCount lookup chosen p) :=
  inferInstanceAs (Decidable (_ ∧ _ ∧ _ ∧ _))

/-- One step of the walk with exact numbers. -/
def planOne (e : U256 × H) : List (PooledTransaction H) :=
  match m.get e.2 with
  | some p => if Fits cfg now maxGas maxCount lookup chosen p then chosen ++ [p] else chosen
  | none => chosen

/-- **No overflow at an entry**: if its transaction fits in 64 bits it fits. -/
def NoOverflow (e : U256 × H) : Prop :=
  ∀ p, m.get e.2 = some p → FitsWrapped cfg now maxGas maxCount lookup chosen p →
    totalGas chosen + p.tx.gasLimit.toNat < 2 ^ 64 ∧ dueNonce lookup chosen p.sender < 2 ^ 64

end

/-! ## The walk with exact numbers -/

variable {chosen : List (PooledTransaction H)} {p : PooledTransaction H}

section Plan

variable {maxGas : UInt64} {maxCount : ℕ} {lookup : NonceLookup}
omit [HashScheme H]

theorem totalGas_append (chosen rest : List (PooledTransaction H)) :
    totalGas (chosen ++ rest) = totalGas chosen + totalGas rest := by
  simp [totalGas]

theorem ofSender_append (chosen rest : List (PooledTransaction H)) (sender : Address) :
    ofSender (chosen ++ rest) sender = ofSender chosen sender ++ ofSender rest sender :=
  filter_append ..

theorem ofSender_singleton_self (p : PooledTransaction H) : ofSender [p] p.sender = [p] := by
  simp [ofSender]

theorem ofSender_singleton_of_ne {sender : Address} (h : sender ≠ p.sender) :
    ofSender [p] sender = [] := by
  simp [ofSender, h.symm]

/-- The first transactions of an executable list are executable. -/
theorem Executable.of_append {rest : List (PooledTransaction H)}
    (h : Executable maxGas maxCount lookup (chosen ++ rest)) :
    Executable maxGas maxCount lookup chosen where
  count_le := (length_append ▸ Nat.le_add_right _ _).trans h.count_le
  gas_le := (totalGas_append chosen rest ▸ Nat.le_add_right _ _).trans h.gas_le
  nonces sender := by
    have hnonces := h.nonces sender
    rw [ofSender_append, map_append, length_append, ← range'_append_1] at hnonces
    exact (append_inj hnonces (by simp)).1

/-- One more transaction of an executable list fits exactly if the longer
list is executable. -/
theorem Executable.concat_iff (h : Executable maxGas maxCount lookup chosen) :
    Executable maxGas maxCount lookup (chosen ++ [p]) ↔
      chosen.length < maxCount ∧ totalGas chosen + p.tx.gasLimit.toNat ≤ maxGas.toNat ∧
        p.tx.nonce.toNat = dueNonce lookup chosen p.sender := by
  have hgas : totalGas (chosen ++ [p]) = totalGas chosen + p.tx.gasLimit.toNat := by
    simp [totalGas]
  have hself : (ofSender (chosen ++ [p]) p.sender).map (fun p => p.tx.nonce.toNat) =
      range' (firstNonce lookup p.sender).toNat (ofSender (chosen ++ [p]) p.sender).length ↔
      p.tx.nonce.toNat = dueNonce lookup chosen p.sender := by
    rw [ofSender_append, ofSender_singleton_self, map_append, h.nonces, length_append,
      length_singleton, ← range'_append_1]
    simp [dueNonce]
  constructor
  · intro hlong
    refine ⟨?_, hgas ▸ hlong.gas_le, hself.mp (hlong.nonces p.sender)⟩
    have hcount := hlong.count_le
    rwa [length_append] at hcount
  · rintro ⟨hcount, hfits, hnonce⟩
    refine ⟨?_, hgas ▸ hfits, fun sender => ?_⟩
    · rwa [length_append]
    · by_cases hsender : sender = p.sender
      · subst hsender
        exact hself.mpr hnonce
      · rw [ofSender_append, ofSender_singleton_of_ne hsender, append_nil]
        exact h.nonces sender

theorem executable_nil (maxGas : UInt64) (maxCount : ℕ) (lookup : NonceLookup) :
    Executable maxGas maxCount lookup ([] : List (PooledTransaction H)) :=
  ⟨Nat.zero_le _, Nat.zero_le _, fun _ => rfl⟩

end Plan

/-! ## The loop against the walk -/

/-- The variables of the loop hold the exact numbers, up to the width. -/
structure Tracks (maxGas : UInt64) (maxCount : ℕ) (lookup : NonceLookup) (s : Selection H)
    (chosen : List (PooledTransaction H)) : Prop where
  selected : s.selected = chosen
  gasUsed : s.gasUsed.toNat = totalGas chosen
  nextNonce : ∀ sender, ((s.nextNonce sender).getD (firstNonce lookup sender)).toNat =
    dueNonce lookup chosen sender % 2 ^ 64
  executable : Executable maxGas maxCount lookup chosen

section Loop

variable {cfg : MempoolConfig} {m : Mempool H} {now : H → ℕ} {maxGas : UInt64} {maxCount : ℕ}
  {lookup : NonceLookup} {s : Selection H}

section

omit [HashScheme H]

theorem tracks_start : Tracks maxGas maxCount lookup (Selection.start : Selection H) [] where
  selected := rfl
  gasUsed := rfl
  nextNonce _ := (Nat.mod_eq_of_lt (UInt64.toNat_lt _)).symm
  executable := executable_nil maxGas maxCount lookup

section

variable (h : Tracks maxGas maxCount lookup s chosen)
include h

/-- The check of the gas limit and the check of the nonce, in 64 bits. -/
theorem Tracks.gas_lt :
    maxGas < s.gasUsed + p.tx.gasLimit ↔
      maxGas.toNat < (totalGas chosen + p.tx.gasLimit.toNat) % 2 ^ 64 := by
  rw [UInt64.lt_iff_toNat_lt, UInt64.toNat_add, h.gasUsed]

theorem Tracks.nonce_eq :
    p.tx.nonce = (s.nextNonce p.sender).getD (firstNonce lookup p.sender) ↔
      p.tx.nonce.toNat = dueNonce lookup chosen p.sender % 2 ^ 64 := by
  rw [← UInt64.toNat_inj, h.nextNonce]

/-- A turn that takes nothing: the transaction does not fit. -/
theorem Tracks.visit_of_not (hcount : chosen.length < maxCount)
    (hfits : ¬FitsWrapped cfg now maxGas maxCount lookup chosen p) :
    Tracks maxGas maxCount lookup
      (s.visit cfg.txLifetime (now p.hash) maxGas (some lookup) p) chosen := by
  unfold Selection.visit
  split
  · exact h
  · rename_i hgas
    split
    · exact h
    · rename_i hexpired
      have hnonce : p.tx.nonce ≠ (s.nextNonce p.sender).getD (firstNonce lookup p.sender) := by
        intro hnonce
        exact hfits ⟨hcount, by simpa using hexpired, not_lt.mp (h.gas_lt.not.mp hgas),
          h.nonce_eq.mp hnonce⟩
      show Tracks maxGas maxCount lookup (s.takeInSequence lookup p) chosen
      unfold Selection.takeInSequence
      rw [if_pos hnonce]
      refine { h with nextNonce := fun sender => ?_ }
      rw [← h.nextNonce sender]
      dsimp only
      by_cases hsender : sender = p.sender
      · subst hsender
        rw [update_self]
        rfl
      · rw [update_of_ne hsender]

theorem Tracks.visit_eq (hfits : FitsWrapped cfg now maxGas maxCount lookup chosen p) :
    s.visit cfg.txLifetime (now p.hash) maxGas (some lookup) p =
      Selection.take ⟨s.selected, s.gasUsed, update s.nextNonce p.sender
        (some ((s.nextNonce p.sender).getD (firstNonce lookup p.sender) + 1))⟩ p := by
  obtain ⟨-, hexpired, hgas, hnonce⟩ := hfits
  unfold Selection.visit
  rw [if_neg (h.gas_lt.not.mpr (not_lt.mpr hgas)), hexpired]
  show s.takeInSequence lookup p = _
  unfold Selection.takeInSequence
  rw [if_neg (not_not.mpr (h.nonce_eq.mpr hnonce))]

end

/-- A transaction that fits with exact numbers fits in 64 bits. -/
theorem Tracks.wrapped_of_fits (hfits : Fits cfg now maxGas maxCount lookup chosen p) :
    FitsWrapped cfg now maxGas maxCount lookup chosen p := by
  obtain ⟨hcount, hexpired, hgas, hnonce⟩ := hfits
  refine ⟨hcount, hexpired, (Nat.mod_le _ _).trans hgas, ?_⟩
  rw [← hnonce, Nat.mod_eq_of_lt (UInt64.toNat_lt _)]

theorem Tracks.visit_of_fits (h : Tracks maxGas maxCount lookup s chosen)
    (hfits : Fits cfg now maxGas maxCount lookup chosen p) :
    Tracks maxGas maxCount lookup
      (s.visit cfg.txLifetime (now p.hash) maxGas (some lookup) p) (chosen ++ [p]) := by
  rw [h.visit_eq (wrapped_of_fits hfits)]
  obtain ⟨hcount, -, hgas, hnonce⟩ := hfits
  refine ⟨congrArg (· ++ [p]) h.selected, ?_, fun sender => ?_,
    h.executable.concat_iff.mpr ⟨hcount, hgas, hnonce⟩⟩
  · show (s.gasUsed + p.tx.gasLimit).toNat = _
    rw [UInt64.toNat_add, h.gasUsed, Nat.mod_eq_of_lt (hgas.trans_lt (UInt64.toNat_lt _))]
    simp [totalGas]
  · show ((update s.nextNonce p.sender (some _) sender).getD _).toNat = _
    unfold dueNonce
    rw [ofSender_append]
    by_cases hsender : sender = p.sender
    · subst hsender
      rw [update_self, Option.getD_some, UInt64.toNat_add, h.nextNonce,
        ofSender_singleton_self, length_append, ← Nat.add_assoc]
      show (_ % 2 ^ 64 + 1) % 2 ^ 64 = _
      rw [Nat.mod_add_mod]
      rfl
    · rw [update_of_ne hsender, h.nextNonce, ofSender_singleton_of_ne hsender, append_nil]
      rfl

end

variable (cfg m now maxGas maxCount lookup) in
theorem selected_extends (entries : List (U256 × H)) (s : Selection H) :
    ∃ rest, (selectFrom cfg m now maxGas maxCount (some lookup) entries s).selected =
      s.selected ++ rest := by
  induction entries generalizing s with
  | nil => exact ⟨[], (append_nil _).symm⟩
  | cons e entries ih =>
    unfold selectFrom
    split
    · exact ⟨[], (append_nil _).symm⟩
    · cases m.get e.2 with
      | none => exact ih s
      | some p =>
        obtain ⟨rest, hrest⟩ := ih (s.visit cfg.txLifetime (now e.2) maxGas (some lookup) p)
        have hvisit : ∃ one, (s.visit cfg.txLifetime (now e.2) maxGas (some lookup) p).selected =
            s.selected ++ one := by
          unfold Selection.visit Selection.takeInSequence
          split
          · exact ⟨[], (append_nil _).symm⟩
          · split
            · exact ⟨[], (append_nil _).symm⟩
            · dsimp only
              split
              · exact ⟨[], (append_nil _).symm⟩
              · exact ⟨[p], rfl⟩
        obtain ⟨one, hone⟩ := hvisit
        exact ⟨one ++ rest, by rw [hrest, hone, append_assoc]⟩

/-- A full selection takes nothing more, and nothing overflows. -/
theorem along_of_full (hcount : maxCount ≤ chosen.length) (entries : List (U256 × H)) :
    Run.Along (planOne cfg m now maxGas maxCount lookup)
      (NoOverflow cfg m now maxGas maxCount lookup) chosen entries := by
  induction entries with
  | nil => trivial
  | cons e entries ih =>
    have hplan : planOne cfg m now maxGas maxCount lookup chosen e = chosen := by
      unfold planOne
      cases m.get e.2 with
      | none => rfl
      | some p => exact if_neg fun hfits => absurd hfits.1 (not_lt.mpr hcount)
    refine ⟨fun p _ hfits => absurd hfits.1 (not_lt.mpr hcount), ?_⟩
    rw [hplan]
    exact ih

/-- The loop gives an executable list exactly if nothing overflows in the
entries that are left. -/
theorem Tracks.executable_iff (h : Tracks maxGas maxCount lookup s chosen)
    (entries : List (U256 × H)) :
    Executable maxGas maxCount lookup
        (selectFrom cfg m now maxGas maxCount (some lookup) entries s).selected ↔
      Run.Along (planOne cfg m now maxGas maxCount lookup)
        (NoOverflow cfg m now maxGas maxCount lookup) chosen entries := by
  induction entries generalizing s chosen with
  | nil => exact ⟨fun _ => trivial, fun _ => h.selected.symm ▸ h.executable⟩
  | cons e entries ih =>
    unfold selectFrom
    rw [h.selected]
    split
    · rename_i hfull
      refine ⟨fun _ => along_of_full hfull _, fun _ => ?_⟩
      rw [h.selected]
      exact h.executable
    · rename_i hcount
      cases hget : m.get e.2 with
      | none =>
        have hplan : planOne cfg m now maxGas maxCount lookup chosen e = chosen := by
          unfold planOne
          rw [hget]
        show Executable _ _ _ (selectFrom cfg m now maxGas maxCount (some lookup) entries s).selected
          ↔ NoOverflow cfg m now maxGas maxCount lookup chosen e ∧ Run.Along _ _ _ entries
        rw [ih h, hplan]
        exact ⟨fun hrest => ⟨fun p hp => (nomatch hget.symm.trans hp), hrest⟩, fun hall => hall.2⟩
      | some p =>
        obtain ⟨-, hhash⟩ := get_eq_some.mp hget
        show Executable _ _ _ (selectFrom cfg m now maxGas maxCount (some lookup) entries
            (s.visit cfg.txLifetime (now e.2) maxGas (some lookup) p)).selected
          ↔ NoOverflow cfg m now maxGas maxCount lookup chosen e ∧ Run.Along _ _ _ entries
        rw [← hhash]
        have hoverflow : NoOverflow cfg m now maxGas maxCount lookup chosen e ↔
            (FitsWrapped cfg now maxGas maxCount lookup chosen p →
              totalGas chosen + p.tx.gasLimit.toNat < 2 ^ 64 ∧
                dueNonce lookup chosen p.sender < 2 ^ 64) := by
          unfold NoOverflow
          simp [hget]
        have hplan : planOne cfg m now maxGas maxCount lookup chosen e =
            if Fits cfg now maxGas maxCount lookup chosen p then chosen ++ [p] else chosen := by
          unfold planOne
          rw [hget]
        rw [hoverflow, hplan]
        by_cases hwrapped : FitsWrapped cfg now maxGas maxCount lookup chosen p
        · by_cases hfits : Fits cfg now maxGas maxCount lookup chosen p
          · -- taken, and rightly
            rw [if_pos hfits, ih (h.visit_of_fits hfits)]
            refine ⟨fun hrest => ⟨fun _ => ⟨?_, ?_⟩, hrest⟩, fun hall => hall.2⟩
            · exact hfits.2.2.1.trans_lt (UInt64.toNat_lt _)
            · rw [← hfits.2.2.2]
              exact UInt64.toNat_lt _
          · -- taken only because of an overflow: the list is not executable
            have hnot : ¬(totalGas chosen + p.tx.gasLimit.toNat < 2 ^ 64 ∧
                dueNonce lookup chosen p.sender < 2 ^ 64) := by
              rintro ⟨hgas, hnonce⟩
              obtain ⟨hc, hexpired, hg, hn⟩ := hwrapped
              rw [Nat.mod_eq_of_lt hgas] at hg
              rw [Nat.mod_eq_of_lt hnonce] at hn
              exact hfits ⟨hc, hexpired, hg, hn⟩
            refine ⟨fun hexec => ?_, fun hall => absurd (hall.1 hwrapped) hnot⟩
            obtain ⟨rest, hrest⟩ := selected_extends cfg m now maxGas maxCount lookup entries
              (s.visit cfg.txLifetime (now p.hash) maxGas (some lookup) p)
            rw [hrest, h.visit_eq hwrapped] at hexec
            have hlong : Executable maxGas maxCount lookup (chosen ++ [p]) := by
              rw [← h.selected]
              exact hexec.of_append
            obtain ⟨hc, hg, hn⟩ := h.executable.concat_iff.mp hlong
            exact absurd ⟨hc, hwrapped.2.1, hg, hn⟩ hfits
        · have hfits : ¬Fits cfg now maxGas maxCount lookup chosen p :=
            fun hfits => hwrapped (wrapped_of_fits hfits)
          rw [if_neg hfits, ih (h.visit_of_not (not_le.mp hcount) hwrapped)]
          exact ⟨fun hrest => ⟨fun hw => absurd hw hwrapped, hrest⟩, fun hall => hall.2⟩

end Loop

/-- **Block selection is executable** exactly if, on the walk with exact
numbers, no transaction fits only because a total of gas limits or a nonce has
left the 64 bits. -/
theorem select_executable_iff (cfg : MempoolConfig) (m : Mempool H) (now : H → ℕ)
    (maxGas : UInt64) (maxCount : ℕ) (lookup : NonceLookup) :
    Executable maxGas maxCount lookup (selectPooled cfg m now maxGas maxCount (some lookup)) ↔
      Run.Along (planOne cfg m now maxGas maxCount lookup)
        (NoOverflow cfg m now maxGas maxCount lookup) [] m.byPrice.rows.reverse :=
  tracks_start.executable_iff m.byPrice.rows.reverse

/-! ## A gas limit near the end of the range -/

/-- A pool of two transfers, the cheaper one with the largest gas limit. -/
def hugeLimitPool : Mempool CodeName :=
  Run.run (step MempoolConfig.default) new
    [.add 0 (poolTx 0 2000000000) Address.zero none,
      .add 0 { poolTx 1 1000000000 with gasLimit := 18446744073709551615 } Address.zero none]

/-- Both are selected for a block of thirty million gas: the second one brings
the running total from 21000 to 20999. -/
theorem select_huge_limit :
    selectWithNonce .default hugeLimitPool (fun _ => 0) 30000000 500 (some (fun _ => .ok 0)) =
        [poolTx 0 2000000000,
          { poolTx 1 1000000000 with gasLimit := 18446744073709551615 }] ∧
      ¬Executable 30000000 500 (fun _ => .ok 0)
        (selectPooled .default hugeLimitPool (fun _ => 0) 30000000 500
          (some (fun _ => .ok 0))) := by
  refine ⟨by decide +kernel, fun hexecutable => ?_⟩
  exact absurd hexecutable.gas_le (by decide +kernel)

end Mempool

end Qfc
