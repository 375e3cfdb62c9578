import QfcCore.Ai.StakeCover

/-!
# The life of a training job

A job of the pool is pending, is assigned one epoch after the other, and comes to
an end. `Moves` says how one job changes, and every call of the pool moves one job
or none (`step_cases`). What a status says of the epochs then holds in every run,
and so does the order of the epochs (`training_life_cycle`).
-/

namespace Qfc.Ai.TrainingPool

variable {blake3 : Bytes → Hash} {pool : TrainingPool} {op : Op} {id : Hash} {job : TrainingJob}

/-- The epoch that a call assigns. -/
def assigned (blake3 : Bytes → Hash) (pool : TrainingPool) : Op → List (Hash × ℕ)
  | .assignEpoch jobId epoch registry currentTime =>
    match (pool.assignEpoch blake3 jobId epoch registry currentTime).1 with
    | .ok _ => [(jobId, epoch)]
    | .error _ => []
  | _ => []

/-- The pool after a call, and the epochs that were assigned so far. -/
def record (blake3 : Bytes → Hash) (s : TrainingPool × List (Hash × ℕ)) (op : Op) :
    TrainingPool × List (Hash × ℕ) :=
  (s.1.step blake3 op, s.2 ++ s.1.assigned blake3 op)

/-- **A move of a job**: what it was, what it becomes, and the epochs it is assigned. -/
inductive Moves : Option TrainingJob → TrainingJob → List ℕ → Prop
  | submit (spec : TrainingJobSpec) (createdAt : ℕ) : Moves none ⟨spec, .pending, 0, createdAt⟩ []
  | suspend (job : TrainingJob) (h : job.status.terminal = false) (reason : String) :
    Moves (some job) { job with status := .suspended reason } []
  | assign (job : TrainingJob) (h : job.status.terminal = false)
      (hnext : job.nextEpoch < job.spec.epochs) :
    Moves (some job)
      { job with status := .active job.nextEpoch, nextEpoch := (job.nextEpoch + 1) % 2 ^ 64 }
      [job.nextEpoch]
  | complete (job : TrainingJob) (epoch : ℕ) (h : job.status = .active epoch)
      (hnext : job.nextEpoch = job.spec.epochs) :
    Moves (some job) { job with status := .completed } []
  | fail (job : TrainingJob) (h : job.status.terminal = false) (reason : String) :
    Moves (some job) { job with status := .failed reason } []

/-- **A call moves one job or none**, and a new one only where there is room. -/
theorem step_cases (blake3 : Bytes → Hash) (pool : TrainingPool) (op : Op) :
    pool.step blake3 op = pool ∧ pool.assigned blake3 op = [] ∨
      ∃ id job epochs, pool.step blake3 op = { pool with jobs := pool.jobs.insert id job } ∧
        pool.assigned blake3 op = epochs.map (Prod.mk id) ∧ Moves (pool.jobs.lookup id) job epochs ∧
        (pool.jobs.lookup id = none → pool.jobs.entries.length < maxJobs ∧
          ∃ createdAt, op = .submit job.spec createdAt) := by
  cases op with
  | submit spec createdAt =>
    dsimp only [step, assigned, submit]
    split_ifs with hfull hdup
    · exact .inl ⟨rfl, rfl⟩
    · cases spec.validate pool.psConfig <;> exact .inl ⟨rfl, rfl⟩
    · cases spec.validate pool.psConfig with
      | error e => exact .inl ⟨rfl, rfl⟩
      | ok =>
        refine .inr ⟨spec.jobId, _, [], rfl, rfl, ?_, fun _ => ⟨Nat.lt_of_not_le hfull, _, rfl⟩⟩
        rw [Option.not_isSome_iff_eq_none.mp hdup]
        exact .submit spec createdAt
  | assignEpoch jobId epoch registry currentTime =>
    dsimp only [step, assigned, assignEpoch]
    cases hjob : pool.jobs.lookup jobId with
    | none => exact .inl ⟨rfl, rfl⟩
    | some job =>
      dsimp only
      split_ifs with hterminal hexhausted horder
      · exact .inl ⟨rfl, rfl⟩
      · exact .inl ⟨rfl, rfl⟩
      · exact .inl ⟨rfl, rfl⟩
      obtain rfl := not_not.mp horder
      cases Ps.TrimmedMean.new pool.psConfig.trimBeta with
      | error e => exact .inl ⟨rfl, rfl⟩
      | ok rule =>
        dsimp only
        split_ifs
        · refine .inr ⟨jobId, _, [], rfl, rfl, hjob ▸ .suspend job ?_ _, by simp [hjob]⟩
          exact Bool.eq_false_iff.mpr hterminal
        · refine .inr ⟨jobId, _, [job.nextEpoch], rfl, rfl, hjob ▸ .assign job ?_ ?_, by simp [hjob]⟩
          · exact Bool.eq_false_iff.mpr hterminal
          · exact Nat.lt_of_not_le hexhausted
  | completeJob jobId =>
    dsimp only [step, assigned, completeJob]
    cases hjob : pool.jobs.lookup jobId with
    | none => exact .inl ⟨rfl, rfl⟩
    | some job =>
      dsimp only
      cases hstatus : job.status with
      | active epoch =>
        dsimp only
        split_ifs with hnext
        · exact .inl ⟨rfl, rfl⟩
        · exact .inr ⟨jobId, _, [], rfl, rfl, hjob ▸ .complete job epoch hstatus (not_not.mp hnext),
            by simp [hjob]⟩
      | _ => exact .inl ⟨rfl, rfl⟩
  | failJob jobId reason =>
    dsimp only [step, assigned, failJob]
    cases hjob : pool.jobs.lookup jobId with
    | none => exact .inl ⟨rfl, rfl⟩
    | some job =>
      dsimp only
      split_ifs with hterminal
      · exact .inl ⟨rfl, rfl⟩
      · refine .inr ⟨jobId, _, [], rfl, rfl, hjob ▸ .fail job ?_ reason, by simp [hjob]⟩
        exact Bool.eq_false_iff.mpr hterminal

/-- A job in order: its status tells the epochs it has been assigned. -/
structure Regular (job : TrainingJob) : Prop where
  bound : job.nextEpoch ≤ job.spec.epochs
  active : ∀ epoch, job.status = .active epoch → job.nextEpoch = epoch + 1
  completed : job.status = .completed → job.nextEpoch = job.spec.epochs

/-- How many epochs of a job are assigned, if there is one. -/
def nextEpoch (pool : TrainingPool) (id : Hash) : ℕ :=
  ((pool.jobs.lookup id).map TrainingJob.nextEpoch).getD 0

/-- **The pool is in order**: the jobs are, there are at most `MAX_JOBS`, and the
epochs of each have been assigned one after the other. -/
structure Orderly (s : TrainingPool × List (Hash × ℕ)) : Prop where
  room : s.1.jobs.entries.length ≤ maxJobs
  regular : ∀ id, ∀ job ∈ s.1.jobs.lookup id, Regular job ∧ job.spec.epochs < 2 ^ 64
  epochs : ∀ id, (s.2.filter (fun row => row.1 = id)).map Prod.snd = List.range (s.1.nextEpoch id)

/-- The count of epochs is a `u64`. -/
def Op.Fits : Op → Prop
  | .submit spec _ => spec.epochs < 2 ^ 64
  | _ => True

variable {old : Option TrainingJob} {epochs : List ℕ}

theorem Moves.regular (h : Moves old job epochs)
    (hold : ∀ job ∈ old, Regular job ∧ job.spec.epochs < 2 ^ 64) :
    Regular job ∧ List.range ((old.map TrainingJob.nextEpoch).getD 0) ++ epochs
      = List.range job.nextEpoch := by
  cases h with
  | submit spec createdAt => exact ⟨⟨Nat.zero_le _, by simp, by simp⟩, rfl⟩
  | suspend job h reason
  | fail job h reason => exact ⟨⟨(hold job rfl).1.bound, by simp, by simp⟩, by simp⟩
  | assign job h hnext =>
    have hmod : (job.nextEpoch + 1) % 2 ^ 64 = job.nextEpoch + 1 :=
      Nat.mod_eq_of_lt (Nat.lt_of_le_of_lt hnext (hold job rfl).2)
    rw [hmod]
    exact ⟨⟨hnext, by simp, by simp⟩, by simp [List.range_succ]⟩
  | complete job epoch h hnext => exact ⟨⟨hnext.le, by simp, by simp [hnext]⟩, by simp⟩

/-- A job that has come to an end does not move, and only an assignment moves the
epoch on. -/
theorem Moves.next {job' : TrainingJob} (h : Moves (some job) job' epochs) :
    job.status.terminal = false ∧ job'.spec = job.spec ∧
      (epochs = [] → job'.nextEpoch = job.nextEpoch) := by
  cases h with
  | suspend _ h | fail _ h => exact ⟨h, rfl, fun _ => rfl⟩
  | assign _ h => exact ⟨h, rfl, by simp⟩
  | complete _ epoch h => exact ⟨by rw [h]; rfl, rfl, fun _ => rfl⟩

theorem length_insert_le (h : pool.jobs.entries.length ≤ maxJobs)
    (hroom : pool.jobs.lookup id = none → pool.jobs.entries.length < maxJobs) :
    (pool.jobs.insert id job).entries.length ≤ maxJobs := by
  by_cases hmem : id ∈ pool.jobs
  · obtain ⟨_, l, l', -, hentries, hkerase⟩ := List.exists_of_kerase hmem
    rw [AList.entries_insert, hkerase]
    rw [hentries] at h
    simpa [Nat.add_assoc] using h
  · rw [AList.entries_insert_of_notMem hmem]
    exact hroom (AList.lookup_eq_none.mpr hmem)

theorem Orderly.step {s : TrainingPool × List (Hash × ℕ)} (h : Orderly s) (hop : op.Fits) :
    Orderly (record blake3 s op) := by
  unfold record
  obtain ⟨hstep, hassigned⟩ | ⟨id, job, epochs, hstep, hassigned, hmoves, hnew⟩ :=
    step_cases blake3 s.1 op
  · rw [hstep, hassigned, List.append_nil]
    exact h
  rw [hstep, hassigned]
  obtain ⟨hregular, hrange⟩ := hmoves.regular (h.regular id)
  have hfits : job.spec.epochs < 2 ^ 64 := by
    cases hold : s.1.jobs.lookup id with
    | none =>
      obtain ⟨createdAt, rfl⟩ := (hnew hold).2
      exact hop
    | some old =>
      rw [hold] at hmoves
      rw [hmoves.next.2.1]
      exact (h.regular id old hold).2
  refine ⟨length_insert_le h.room fun hnone => (hnew hnone).1, fun key => ?_, fun key => ?_⟩
  · obtain rfl | hkey := eq_or_ne key id
    · rw [AList.lookup_insert]
      rintro _ ⟨⟩
      exact ⟨hregular, hfits⟩
    · rw [AList.lookup_insert_ne hkey]
      exact h.regular key
  · rw [List.filter_append, List.map_append, h.epochs]
    unfold nextEpoch
    dsimp only
    obtain rfl | hkey := eq_or_ne key id
    · rw [AList.lookup_insert, List.filter_eq_self.mpr (by simp), List.map_map]
      simpa [Function.comp_def] using hrange
    · rw [AList.lookup_insert_ne hkey, List.filter_eq_nil_iff.mpr (by simp [hkey.symm])]
      simp

/-- **The life of a job**: in every run the pool is in order; a job that has come to an
end does not change, and no job comes to its next epoch but by an assignment. -/
theorem training_life_cycle (blake3 : Bytes → Hash) {config : Ps.PsConfig}
    (hnew : new config = .ok pool) {ops : List Op} (hfits : ∀ op ∈ ops, op.Fits) :
    let s := Run.run (record blake3) (pool, []) ops
    Orderly s ∧ ∀ op id, ∀ job ∈ s.1.jobs.lookup id,
      ∃ job' ∈ (s.1.step blake3 op).jobs.lookup id, (job.status.terminal = true → job' = job) ∧
        (s.1.assigned blake3 op = [] → job'.nextEpoch = job.nextEpoch) := by
  have h0 : pool.jobs = ∅ := by
    unfold new at hnew
    split at hnew
    · cases hnew
    · cases hnew
      rfl
  have hrun : Orderly (Run.run (record blake3) (pool, []) ops) :=
    Run.invariant_along ⟨by simp [h0], by simp [h0], by simp [nextEpoch, h0]⟩
      (fun _ _ h => h.step) (Run.along_of_forall hfits)
  refine ⟨hrun, fun op id job hjob => ?_⟩
  obtain ⟨hstep, -⟩ | ⟨id', job', epochs, hstep, hassigned, hmoves, -⟩ :=
    step_cases blake3 (Run.run (record blake3) (pool, []) ops).1 op
  · rw [hstep]
    exact ⟨job, hjob, fun _ => rfl, fun _ => rfl⟩
  rw [hstep, hassigned]
  obtain rfl | hid := eq_or_ne id id'
  · rw [hjob] at hmoves
    obtain ⟨hterminal, -, hnext⟩ := hmoves.next
    exact ⟨job', AList.lookup_insert _, fun h => absurd h (by simp [hterminal]),
      fun h => hnext (List.map_eq_nil_iff.mp h)⟩
  · exact ⟨job, (AList.lookup_insert_ne hid).trans hjob, fun _ => rfl, fun _ => rfl⟩

/-- A job is submitted, assigned its only epoch, completed, and failed in vain. -/
def smallLife : List Op :=
  [.submit smallJob 0, .assignEpoch smallJob.jobId 0 ⟨[minerOf 7 400]⟩ 1000,
    .completeJob smallJob.jobId, .failJob smallJob.jobId "late"]

theorem training_life_cycle_small :
    ((Run.run (record checksum) (⟨∅, fortyfold⟩, []) smallLife).1.jobs.lookup smallJob.jobId).map
        TrainingJob.status = some .completed ∧
      Orderly (Run.run (record checksum) (⟨∅, fortyfold⟩, []) smallLife) :=
  ⟨by decide +kernel, (training_life_cycle checksum (show new fortyfold = _ from rfl)
    (by simp [smallLife, Op.Fits, smallJob])).1⟩

end Qfc.Ai.TrainingPool
