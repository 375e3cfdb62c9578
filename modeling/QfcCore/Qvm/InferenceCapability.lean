import QfcCore.Lib.Run
import QfcCore.Qvm.Value

/-!
# Inference capabilities

The store of `qfc-qvm/src/stdlib/inference_capability.rs`. A capability is a budget that
its owner tops up and that is spent on inference, so what was put in should be what is
left and what was spent. A call is about one id, and is given by what it makes of the
entry there. A new capability replaces one that has its id, and sums wrap; in a run
whose calls do neither (`fits`) the budgets are conserved.
-/

namespace Qfc.Qvm

open Function Run

/-- The error codes, from `E_INSUFFICIENT_BUDGET = 100` to `E_NOT_AUTHORIZED = 107`. -/
inductive CapabilityError
  | insufficientBudget | modelNotAllowed | capabilityExpired | capabilityFrozen | notOwner
  | zeroBudget | notFound | notAuthorized

/-- `InferenceCapability`. The numbers are `u64`s. -/
structure InferenceCapability where
  id : H256
  owner : Address
  remainingBudget : ℕ
  allowedModels : List String
  expiresAt : ℕ
  frozen : Bool
  totalSpent : ℕ
  totalTasks : ℕ
  createdAt : ℕ

/-- A call for the capability with an id. -/
inductive CapabilityCall
  | create (owner : Address) (budget : ℕ) (allowedModels : List String) (expiresAt : ℕ)
  | useForInference (modelId : String) (fee : ℕ)
  | topUp (caller : Address) (amount : ℕ)
  | freeze (caller : Address) (isGovernance : Bool)
  | unfreeze (caller : Address) (isGovernance : Bool)
  | destroy (caller : Address)

namespace InferenceCapability

variable (now : ℕ) (key : H256) (cap : InferenceCapability) (caller : Address)

/-- A capability with a budget. -/
def create (owner : Address) (budget : ℕ) (allowedModels : List String) (expiresAt : ℕ) :
    Except CapabilityError InferenceCapability :=
  if budget = 0 then .error .zeroBudget
  else .ok ⟨key, owner, budget, allowedModels, expiresAt, false, 0, 0, now⟩

/-- Pays a fee from the budget. -/
def useForInference (modelId : String) (fee : ℕ) : Except CapabilityError InferenceCapability :=
  if cap.frozen then .error .capabilityFrozen
  else if cap.expiresAt ≠ 0 ∧ cap.expiresAt ≤ now then .error .capabilityExpired
  else if cap.allowedModels ≠ [] ∧ modelId ∉ cap.allowedModels then .error .modelNotAllowed
  else if cap.remainingBudget < fee then .error .insufficientBudget
  else .ok { cap with
    remainingBudget := cap.remainingBudget - fee
    totalSpent := (cap.totalSpent + fee) % 2 ^ 64
    totalTasks := (cap.totalTasks + 1) % 2 ^ 64 }

/-- Adds to the budget. -/
def topUp (amount : ℕ) : Except CapabilityError InferenceCapability :=
  if cap.owner ≠ caller then .error .notOwner
  else .ok { cap with remainingBudget := (cap.remainingBudget + amount) % 2 ^ 64 }

/-- `freeze` and `unfreeze`. -/
def setFrozen (isGovernance frozen : Bool) : Except CapabilityError InferenceCapability :=
  if cap.owner ≠ caller ∧ !isGovernance then .error .notAuthorized
  else .ok { cap with frozen := frozen }

/-- `destroy`: the refund. -/
def destroy : Except CapabilityError ℕ :=
  if cap.owner ≠ caller then .error .notOwner else .ok cap.remainingBudget

/-- What a call makes of the entry of its id. -/
def perform : Option InferenceCapability → CapabilityCall →
    Except CapabilityError (Option InferenceCapability)
  | _, .create owner budget allowedModels expiresAt =>
    (create now key owner budget allowedModels expiresAt).map some
  | none, _ => .error .notFound
  | some cap, .useForInference modelId fee => (cap.useForInference now modelId fee).map some
  | some cap, .topUp caller amount => (cap.topUp caller amount).map some
  | some cap, .freeze caller isGovernance => (cap.setFrozen caller isGovernance true).map some
  | some cap, .unfreeze caller isGovernance => (cap.setFrozen caller isGovernance false).map some
  | some cap, .destroy caller => (cap.destroy caller).map fun _ => none

/-- **Nothing is replaced and nothing wraps.** -/
def fits : Option InferenceCapability → CapabilityCall → Bool
  | some _, .create .. => false
  | some cap, .topUp _ amount => cap.remainingBudget + amount < 2 ^ 64
  | some cap, .useForInference _ fee => cap.totalSpent + fee < 2 ^ 64
  | _, _ => true

/-- What has been put into a capability after a call. -/
def paidAfter (paid : ℕ) : CapabilityCall → ℕ
  | .create _ budget _ _ => budget
  | .topUp _ amount => paid + amount
  | _ => paid

end InferenceCapability

open InferenceCapability

/-- An entry of the store, with what has been put into it. -/
abbrev CapabilityEntry := Option InferenceCapability × ℕ

namespace CapabilityEntry

variable (now : ℕ) (key : H256) (call : CapabilityCall)

/-- A call, if it succeeds. -/
def step (e : CapabilityEntry) : CapabilityEntry :=
  match perform now key e.1 call with
  | .error _ => e
  | .ok entry => (entry, paidAfter e.2 call)

/-- What was put in is what is left and what was spent. -/
def Balanced : CapabilityEntry → Prop
  | (some cap, paid) => paid = cap.remainingBudget + cap.totalSpent
  | (none, _) => True

/-- **A capability stays**, with less only by the fee of a use, unless its owner destroys it
and is refunded what was put in and not spent. -/
def Kept : CapabilityEntry → CapabilityEntry → Prop
  | (some cap, _), (some cap', _) =>
    cap'.owner = cap.owner ∧ (cap.remainingBudget ≤ cap'.remainingBudget ∨ ∃ modelId fee,
      call = .useForInference modelId fee ∧ cap.remainingBudget = cap'.remainingBudget + fee)
  | (some cap, paid), (none, _) => ∃ refund, call = .destroy cap.owner ∧
    cap.destroy cap.owner = .ok refund ∧ paid = cap.totalSpent + refund
  | (none, _), _ => True

variable {now key call} {e : CapabilityEntry}

/-- A call that fits, if it succeeds, conserves the budget. -/
theorem Balanced.conserves (h : e.Balanced)
    (hfits : (perform now key e.1 call).isOk = true → fits e.1 call = true) :
    (e.step now key call).Balanced ∧ Kept call e (e.step now key call) := by
  cases hperform : perform now key e.1 call with
  | error _ =>
    have hstep : e.step now key call = e := by rw [step, hperform]
    rw [hstep]
    obtain ⟨_ | cap, paid⟩ := e
    · exact ⟨h, trivial⟩
    · exact ⟨h, rfl, .inl le_rfl⟩
  | ok _ => ?_
  replace hfits := hfits (by rw [hperform]; rfl)
  clear hperform
  obtain ⟨_ | cap, paid⟩ := e
  · cases call with
    | create =>
      simp only [step, perform, create]
      split_ifs
      · exact ⟨h, trivial⟩
      · exact ⟨rfl, trivial⟩
    | _ => exact ⟨h, trivial⟩
  have hpaid : paid = cap.remainingBudget + cap.totalSpent := h
  have hsame : Balanced (some cap, paid) ∧ Kept call (some cap, paid) (some cap, paid) :=
    ⟨h, rfl, .inl le_rfl⟩
  cases call with
  | create => cases hfits
  | useForInference modelId fee =>
    have hfits := of_decide_eq_true hfits
    simp only [step, perform, useForInference]
    split_ifs with _ _ _ hfee
    any_goals exact hsame
    refine ⟨?_, rfl, .inr ⟨modelId, fee, rfl, (Nat.sub_add_cancel (not_lt.mp hfee)).symm⟩⟩
    show paid = cap.remainingBudget - fee + (cap.totalSpent + fee) % 2 ^ 64
    omega
  | topUp caller amount =>
    have hsum := Nat.mod_eq_of_lt (of_decide_eq_true hfits)
    simp only [step, perform, topUp, hsum]
    split_ifs
    · exact hsame
    · refine ⟨?_, rfl, .inl (Nat.le_add_right _ _)⟩
      show paid + amount = cap.remainingBudget + amount + cap.totalSpent
      omega
  | freeze | unfreeze =>
    simp only [step, perform, setFrozen]
    split_ifs
    · exact hsame
    · exact ⟨h, rfl, .inl le_rfl⟩
  | destroy caller =>
    simp only [step, perform, destroy]
    split_ifs with howner
    · exact hsame
    · obtain rfl := not_not.mp howner
      exact ⟨trivial, _, rfl, if_neg howner, hpaid.trans (add_comm _ _)⟩

end CapabilityEntry

/-- The capabilities by key. -/
abbrev CapabilityStore := H256 → CapabilityEntry

/-- A call at a time, for the capability of an id. -/
structure CapabilityRequest where
  now : ℕ
  id : H256
  call : CapabilityCall

namespace CapabilityStore

open CapabilityEntry (Kept)

/-- No capability. -/
def new : CapabilityStore := fun _ => (none, 0)

/-- A request to one capability. -/
def step (s : CapabilityStore) (r : CapabilityRequest) : CapabilityStore :=
  update s r.id ((s r.id).step r.now r.id r.call)

/-- **Budgets are conserved** in every run in which no call replaces anything and none
wraps. -/
theorem budgets_conserved (r : CapabilityRequest) (requests : List CapabilityRequest)
    (h : Along step (fun s r => (perform r.now r.id (s r.id).1 r.call).isOk = true →
      fits (s r.id).1 r.call = true) new (requests ++ [r])) :
    (run step new (requests ++ [r]) r.id).Balanced ∧
      Kept r.call (run step new requests r.id) (run step new (requests ++ [r]) r.id) ∧
      ∀ id, id ≠ r.id → run step new (requests ++ [r]) id = run step new requests id := by
  obtain ⟨hrun, hlast, -⟩ := along_append.mp h
  have hbalanced : ∀ id, (run step new requests id).Balanced := by
    refine invariant_along (P := fun s : CapabilityStore => ∀ id, (s id).Balanced)
      (fun _ => trivial) (fun s r hs hr id => ?_) hrun
    obtain rfl | hid := eq_or_ne id r.id
    · rw [step, update_self]
      exact ((hs r.id).conserves hr).1
    · rw [step, update_of_ne hid]
      exact hs id
  rw [run_concat, step, update_self]
  obtain ⟨hnext, hkept⟩ := (hbalanced r.id).conserves hlast
  exact ⟨hnext, hkept, fun id hid => update_of_ne hid _ _⟩

/-- A budget of five. -/
def opened : CapabilityRequest := ⟨0, .zero, .create .zero 5 [] 0⟩

/-- A second capability of the id is refused, as it has no budget, and the first is used. -/
theorem budgets_conserved_used :
    Kept (.useForInference "m" 3) (run step new [opened, ⟨0, .zero, .create .zero 0 [] 0⟩] .zero)
      (run step new [opened, ⟨0, .zero, .create .zero 0 [] 0⟩,
        ⟨0, .zero, .useForInference "m" 3⟩] .zero) :=
  (budgets_conserved ⟨0, .zero, .useForInference "m" 3⟩
    [opened, ⟨0, .zero, .create .zero 0 [] 0⟩] (by decide +kernel)).2.1

/-- Somebody else creates a capability with the same id, and the five are gone. -/
theorem replaced_not_kept :
    ¬ Kept (.create ⟨.replicate 20 1⟩ 1 [] 0) (run step new [opened] .zero)
      (run step new [opened, ⟨0, .zero, .create ⟨.replicate 20 1⟩ 1 [] 0⟩] .zero) :=
  fun h => absurd h.1 (by decide +kernel)

end CapabilityStore

end Qfc.Qvm
