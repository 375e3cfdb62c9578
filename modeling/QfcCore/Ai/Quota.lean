import QfcCore.Ai.Tasks

/-!
# Quotas of the task pool

`QuotaEnforcer` of `qfc-ai-coordinator/src/quota.rs`. The token bucket counts in
64-bit floating-point numbers, and what the code does with them is kept abstract
(`Rates`). The tenants of a configuration are taken as parsed.
-/

namespace Qfc.Ai

open Ps (satAdd64)
open Function

/-- `saturating_mul` of 64-bit numbers. -/
def satMul64 (a b : ℕ) : ℕ := min (a * b) (2 ^ 64 - 1)

/-- **What the token bucket does with numbers** (`f64`). -/
structure Rates (F : Type) where
  /-- The default of `max_qps`. -/
  ten : F
  /-- `max_qps > 0.0`. -/
  limits : F → Bool
  /-- The capacity for a burst and a rate. -/
  capacity : Option ℕ → F → F
  /-- The tokens after some milliseconds at a rate, up to the capacity. -/
  refill : F → ℕ → F → F → F
  /-- `tokens < 1.0`. -/
  short : F → Bool
  /-- The milliseconds until there is a token, for the tokens and the rate. -/
  retryAfterMs : F → F → ℕ
  /-- `tokens - 1.0`. -/
  spend : F → F

/-- The quota of a tier. -/
structure TierQuota (F : Type) where
  maxQps : F
  burst : Option ℕ
  maxInflight : ℕ
  flopsPerWindow : ℕ
  priority : ℕ

namespace TierQuota

variable {F : Type}

/-- The quota of a tenant without a tier. -/
def default (R : Rates F) : TierQuota F := ⟨R.ten, none, 100, 0, 1⟩

/-- The most tokens a tenant can hold. -/
def capacity (R : Rates F) (q : TierQuota F) : F := R.capacity q.burst q.maxQps

/-- Priorities are 0, 1 and 2. -/
def clampedPriority (q : TierQuota F) : ℕ := min q.priority 2

end TierQuota

/-- The quotas of a deployment. -/
structure QuotaConfig (F : Type) where
  windowSecs : ℕ
  maxPending : ℕ
  defaultTier : TierQuota F
  tenants : Address → Option (TierQuota F)

namespace QuotaConfig

variable {F : Type}

/-- The tier of a tenant. -/
def tierFor (c : QuotaConfig F) (tenant : Address) : TierQuota F :=
  (c.tenants tenant).getD c.defaultTier

/-- From how many pending tasks on a priority is shed. -/
def shedThreshold (c : QuotaConfig F) : ℕ → ℕ
  | 0 => c.maxPending / 2
  | 1 => c.maxPending * 3 % 2 ^ 64 / 4
  | _ => c.maxPending

end QuotaConfig

/-- Why a submission is refused. -/
inductive QuotaError (F : Type)
  | poolPressure (tenant : Address) (priority pending threshold retryAfterMs : ℕ)
  | qpsExceeded (tenant : Address) (limit : F) (retryAfterMs : ℕ)
  | inFlightExceeded (tenant : Address) (limit inFlight retryAfterMs : ℕ)
  | flopsBudgetExceeded (tenant : Address) (budget used requested windowSecs retryAfterMs : ℕ)

/-- The bucket of a tenant. -/
structure TenantState (F : Type) where
  tokens : F
  lastRefillMs : ℕ
  inFlight : ℕ
  windowStartMs : ℕ
  flopsUsed : ℕ

/-- A full bucket. -/
def TenantState.new {F : Type} (nowMs : ℕ) (capacity : F) : TenantState F :=
  ⟨capacity, nowMs, 0, nowMs, 0⟩

/-- The quotas with the state of every tenant. -/
structure QuotaEnforcer (F : Type) where
  config : Option (QuotaConfig F)
  tenants : Address → Option (TenantState F)

namespace QuotaEnforcer

variable {F : Type} (R : Rates F) (q : QuotaEnforcer F) (tenant : Address)

/-- The priority of a tenant. -/
def priorityFor : ℕ :=
  match q.config with
  | some c => (c.tierFor tenant).clampedPriority
  | none => 1

/-- How many tasks of a tenant run. -/
def inflightFor : ℕ :=
  match q.tenants tenant with
  | some s => s.inFlight
  | none => 0

/-- The state of a tenant with its bucket refilled. -/
def refilled (tier : TierQuota F) (s : TenantState F) (nowMs : ℕ) : TenantState F :=
  if R.limits tier.maxQps then
    { s with
      tokens := R.refill s.tokens (nowMs - s.lastRefillMs) tier.maxQps (tier.capacity R)
      lastRefillMs := nowMs }
  else s

/-- The state of a tenant with a new window, if the old one has elapsed. -/
def rolled (windowMs : ℕ) (s : TenantState F) (nowMs : ℕ) : TenantState F :=
  if 0 < windowMs ∧ windowMs ≤ nowMs - s.windowStartMs then
    { s with windowStartMs := nowMs, flopsUsed := 0 }
  else s

/-- `admit`: the answer, and the tenants after it. -/
def admits (estimatedFlops pending nowMs : ℕ) : Option (QuotaError F) × QuotaEnforcer F :=
  match q.config with
  | none => (none, q)
  | some c =>
    let tier := c.tierFor tenant
    let priority := tier.clampedPriority
    let threshold := c.shedThreshold priority
    if threshold ≤ pending then
      (some (.poolPressure tenant priority pending threshold 1000), q)
    else
      let windowMs := satMul64 c.windowSecs 1000
      let entry := (q.tenants tenant).getD (.new nowMs (tier.capacity R))
      let s := rolled windowMs (refilled R tier entry nowMs) nowMs
      let keep (s : TenantState F) : QuotaEnforcer F :=
        { q with tenants := update q.tenants tenant (some s) }
      if R.limits tier.maxQps ∧ R.short s.tokens then
        (some (.qpsExceeded tenant tier.maxQps (R.retryAfterMs s.tokens tier.maxQps)), keep s)
      else if 0 < tier.maxInflight ∧ tier.maxInflight ≤ s.inFlight then
        (some (.inFlightExceeded tenant tier.maxInflight s.inFlight 1000), keep s)
      else if 0 < tier.flopsPerWindow ∧
          tier.flopsPerWindow < satAdd64 s.flopsUsed estimatedFlops then
        let windowEnd := (s.windowStartMs + windowMs) % 2 ^ 64
        (some (.flopsBudgetExceeded tenant tier.flopsPerWindow s.flopsUsed estimatedFlops
          c.windowSecs (max (windowEnd - nowMs) 1)), keep s)
      else
        let tokens := if R.limits tier.maxQps then R.spend s.tokens else s.tokens
        (none, keep { s with
          tokens := tokens
          flopsUsed := satAdd64 s.flopsUsed estimatedFlops })

/-- A task of the tenant starts. -/
def taskStarted (nowMs : ℕ) : QuotaEnforcer F :=
  let capacity :=
    match q.config with
    | some c => (c.tierFor tenant).capacity R
    | none => (TierQuota.default R).capacity R
  let s := (q.tenants tenant).getD (.new nowMs capacity)
  { q with
    tenants := update q.tenants tenant (some { s with inFlight := satAdd64 s.inFlight 1 }) }

/-- A task of the tenant ends. -/
def taskFinished : QuotaEnforcer F :=
  match q.tenants tenant with
  | none => q
  | some s =>
    { q with
      tenants := update q.tenants tenant (some { s with inFlight := s.inFlight - 1 }) }

/-! ## What is in flight -/

variable {R : Rates F} {q : QuotaEnforcer F} {tenant : Address}

@[simp] theorem taskFinished_config : (q.taskFinished tenant).config = q.config := by
  unfold taskFinished
  split <;> rfl

theorem inflightFor_update (s : TenantState F) (u : Address) :
    inflightFor { q with tenants := update q.tenants tenant (some s) } u =
      if u = tenant then s.inFlight else q.inflightFor u := by
  unfold inflightFor
  dsimp only
  split_ifs with hu
  · rw [hu, update_self]
  · rw [update_of_ne hu]

/-- The entry of a tenant has the tasks in flight that the tenant has. -/
theorem inFlight_getD {s : TenantState F} (hs : s.inFlight = 0) :
    ((q.tenants tenant).getD s).inFlight = q.inflightFor tenant := by
  unfold inflightFor
  cases q.tenants tenant with
  | none => exact hs
  | some s => rfl

theorem inflightFor_taskStarted (nowMs : ℕ) (u : Address) :
    (q.taskStarted R tenant nowMs).inflightFor u =
      if u = tenant then satAdd64 (q.inflightFor tenant) 1 else q.inflightFor u := by
  unfold taskStarted
  rw [inflightFor_update, inFlight_getD rfl]

theorem inflightFor_taskFinished (u : Address) :
    (q.taskFinished tenant).inflightFor u =
      if u = tenant then q.inflightFor tenant - 1 else q.inflightFor u := by
  unfold taskFinished
  cases hs : q.tenants tenant with
  | none =>
    have hzero : q.inflightFor tenant = 0 := by
      unfold inflightFor
      rw [hs]
    split_ifs with hu
    · rw [hu, hzero]
    · rfl
  | some s =>
    dsimp only
    rw [inflightFor_update]
    split_ifs with hu
    · unfold inflightFor
      rw [hs]
    · rfl

/-- The bookkeeping of the bucket and the window leaves the tasks in flight. -/
theorem inFlight_rolled (tier : TierQuota F) (s : TenantState F) (windowMs nowMs : ℕ) :
    (rolled windowMs (refilled R tier s nowMs) nowMs).inFlight = s.inFlight := by
  unfold rolled refilled
  split_ifs <;> rfl

/-- What an admission does: the configuration and the tasks in flight stay, and
a tenant that is admitted has room for one more task. -/
theorem admits_spec (R : Rates F) (q : QuotaEnforcer F) (tenant : Address)
    (estimatedFlops pending nowMs : ℕ) :
    (q.admits R tenant estimatedFlops pending nowMs).2.config = q.config ∧
      (∀ u, (q.admits R tenant estimatedFlops pending nowMs).2.inflightFor u = q.inflightFor u) ∧
      ((q.admits R tenant estimatedFlops pending nowMs).1 = none → ∀ c ∈ q.config,
        0 < (c.tierFor tenant).maxInflight →
          q.inflightFor tenant < (c.tierFor tenant).maxInflight) := by
  obtain ⟨config, tenants⟩ := q
  unfold admits
  cases config with
  | none => exact ⟨rfl, fun _ => rfl, nofun⟩
  | some c =>
    dsimp only
    set s := rolled (satMul64 c.windowSecs 1000) (refilled R (c.tierFor tenant)
      ((tenants tenant).getD (.new nowMs ((c.tierFor tenant).capacity R))) nowMs) nowMs
    have hinFlight : s.inFlight = inflightFor ⟨some c, tenants⟩ tenant :=
      (inFlight_rolled _ _ _ _).trans (inFlight_getD (q := ⟨some c, tenants⟩) rfl)
    have hkeep {s' : TenantState F} (hs' : s'.inFlight = s.inFlight) (u : Address) :
        inflightFor ⟨some c, update tenants tenant (some s')⟩ u =
          inflightFor ⟨some c, tenants⟩ u := by
      refine (inflightFor_update (q := ⟨some c, tenants⟩) s' u).trans ?_
      split_ifs with hu
      · rw [hu, hs', hinFlight]
      · rfl
    split_ifs with hpressure hqps hflight hflops
    · exact ⟨rfl, fun _ => rfl, nofun⟩
    · exact ⟨rfl, hkeep rfl, nofun⟩
    · exact ⟨rfl, hkeep rfl, nofun⟩
    · exact ⟨rfl, hkeep rfl, nofun⟩
    all_goals
      refine ⟨rfl, hkeep rfl, fun _ c' hc hpos => ?_⟩
      obtain rfl := Option.mem_some_iff.mp hc
      rw [← hinFlight]
      exact not_le.mp fun hle => hflight ⟨hpos, hle⟩

end QuotaEnforcer

end Qfc.Ai
