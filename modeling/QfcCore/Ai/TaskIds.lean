import QfcCore.Ai.PoolCoherence

/-!
# The ids of public tasks

`submit_public_task` of `qfc-rpc/src/server.rs` hashes the millisecond and the number of
pending tasks to the id of a task. A fetch takes a task off the queue, so that the next
submission of the millisecond finds the number of an earlier one, and its task replaces
the other (`id_given_twice`). Where no task leaves the queue in a millisecond in which one
was submitted, every id is new (`accepted_id_new`).
-/

namespace Qfc.Ai

open Ps (toBeBytes toBeBytes_injective)
open Function List TaskPool

variable {F : Type} (R : Rates F) (blake3 : Bytes → Hash)

/-- The id of a task, of the two numbers in little endian. -/
def publicTaskId (now pendingCount : ℕ) : Hash :=
  blake3 ((toBeBytes now).reverse ++ (toBeBytes pendingCount).reverse)

/-- The task as the server makes it. -/
def TaskPool.publicTask (p : TaskPool F) (now : ℕ) (task : InferenceTask) : InferenceTask :=
  { task with
    taskId := publicTaskId blake3 now p.queue.length
    createdAt := now
    deadline := (now + 60000) % 2 ^ 64 }

/-- What a request asks of the pool. -/
def TaskPool.request (p : TaskPool F) (now : ℕ) : Op → Op
  | .trySubmit submitter task maxFee _ =>
    .trySubmit submitter (p.publicTask blake3 now task) maxFee now
  | op => op

/-- The pool, the millisecond of the last request, and the ids that were given, with
their milliseconds. -/
structure Served (F : Type) where
  pool : TaskPool F
  clock : ℕ
  given : List (ℕ × Hash)

/-- A request is served. -/
def serve (s : Served F) (e : Timed) : Served F :=
  let r := s.pool.perform R e.now (s.pool.request blake3 e.now e.op)
  ⟨r.1, e.now, s.given ++ (submittedIds r.2).map (e.now, ·)⟩

/-- **A request for which the ids are made**: not before the last one, no submission with
an id of its own, and one that takes tasks off the queue only if no task was submitted in
the millisecond. -/
def Apart (s : Served F) (e : Timed) : Prop :=
  s.clock ≤ e.now ∧ e.now < 2 ^ 64 ∧ s.pool.queue.length < 2 ^ 64 ∧
    (match e.op with
    | .submit .. => False
    | _ => True) ∧
    ((serve R blake3 s e).pool.queue.length < s.pool.queue.length → ∀ g ∈ s.given, g.1 < e.now)

/-- **The ids are those of earlier submissions**: of an earlier millisecond, or of a
smaller number of pending tasks. -/
structure Past (s : Served F) : Prop where
  made : ∀ g ∈ s.given, g.1 ≤ s.clock ∧ g.1 < 2 ^ 64 ∧ ∃ count < 2 ^ 64,
    g.2 = publicTaskId blake3 g.1 count ∧ (g.1 = s.clock → count < s.pool.queue.length)
  held : ∀ id, s.pool.publicTasks id ≠ none → id ∈ s.given.map Prod.snd

variable {p p' : TaskPool F} {s : Served F} {e : Timed}

theorem TaskPool.Settles.submits_none {l : List PoolEvent} (h : Settles p l p') :
    submittedIds l = [] ∧ ∀ id, p'.publicTasks id ≠ none → p.publicTasks id ≠ none := by
  have hgone {p : TaskPool F} (id id' : Hash) :
      update p.publicTasks id none id' ≠ none → p.publicTasks id' ≠ none :=
    mt fun hnone => by rw [update_apply, hnone, ite_self]
  induction h with
  | quiet hq ids =>
    refine ⟨?_, fun id => mt fun hnone => ?_⟩
    · rw [submittedIds, filterMap_map]
      exact filterMap_eq_nil_iff.mpr fun _ _ => rfl
    · simpa [hnone] using hq.kept id
  | charge ht =>
    rw [completePublicTask_of_some ht]
    exact ⟨rfl, hgone _⟩
  | refund ht =>
    rw [expire_of_some ht]
    exact ⟨rfl, hgone _⟩
  | trans _ _ ih ih' =>
    exact ⟨by rw [submittedIds_append, ih.1, ih'.1]; rfl, fun id h => ih.2 id (ih'.2 id h)⟩

/-- What a request does: it gives an id and adds a task, or gives none. The queue gets
shorter only in a millisecond without an id. -/
theorem serve_spec (he : Apart R blake3 s e) : let s' := serve R blake3 s e
    (∀ g ∈ s.given, g.1 = e.now → s.pool.queue.length ≤ s'.pool.queue.length) ∧
    (s'.given = s.given ∨ s'.given = s.given ++
        [(e.now, publicTaskId blake3 e.now s.pool.queue.length)] ∧
      s.pool.queue.length < s'.pool.queue.length) ∧
    ∀ id, s'.pool.publicTasks id ≠ none → s.pool.publicTasks id ≠ none ∨ (e.now, id) ∈ s'.given := by
  obtain ⟨-, -, -, hop, hshorter⟩ := he
  refine ⟨fun g hg hnow => le_of_not_gt fun hlt => (hshorter hlt g hg).ne hnow, ?_⟩
  clear hshorter
  obtain ⟨now, op⟩ := e
  unfold serve
  cases hsub : op.submission with
  | none =>
    have hsame : s.pool.request blake3 now op = op := by
      cases op with
      | trySubmit => cases hsub
      | _ => rfl
    obtain ⟨hids, hpublic⟩ := (perform_settles R s.pool now hsub).submits_none
    dsimp only
    rw [hsame, hids, map_nil, append_nil]
    exact ⟨.inl rfl, fun id hid => .inl (hpublic id hid)⟩
  | some _ =>
    cases op with
    | trySubmit submitter task maxFee =>
      simp only [request, perform]
      obtain ⟨quota, -, -, ⟨_, htry⟩ | ⟨htry, -⟩⟩ := trySubmitPublicTask_cases R s.pool submitter
        (s.pool.publicTask blake3 now task) maxFee now now <;> rw [htry]
      · exact ⟨.inl (append_nil _), fun _ hid => .inl hid⟩
      · have hmore (t : InferenceTask) : s.pool.queue.length < (s.pool.queue ++ [t]).length := by simp
        refine ⟨.inr ⟨rfl, hmore _⟩, fun id hid => ?_⟩
        obtain rfl | hne := eq_or_ne id (publicTaskId blake3 now s.pool.queue.length)
        · exact .inr (mem_append_right _ mem_cons_self)
        · exact .inl ((update_of_ne hne _ _).symm.trans_ne hid)
    | submit => exact hop.elim
    | _ => cases hsub

variable {R blake3}

theorem Past.serve (hs : Past blake3 s) (he : Apart R blake3 s e) : Past blake3 (serve R blake3 s e) := by
  obtain ⟨hqueue, hgiven, hpublic⟩ := serve_spec R blake3 he
  have hold : ∀ g ∈ s.given, g.1 ≤ e.now ∧ g.1 < 2 ^ 64 ∧ ∃ count < 2 ^ 64,
      g.2 = publicTaskId blake3 g.1 count ∧
        (g.1 = e.now → count < (Ai.serve R blake3 s e).pool.queue.length) := by
    intro g hg
    obtain ⟨hle, hlt, count, hcount, hmade, hless⟩ := hs.made g hg
    refine ⟨hle.trans he.1, hlt, count, hcount, hmade, fun hnow => ?_⟩
    exact (hless (hle.antisymm (hnow ▸ he.1))).trans_le (hqueue g hg hnow)
  refine ⟨fun g hg => ?_, fun id hid => ?_⟩
  · obtain hsame | ⟨hmore, hlt⟩ := hgiven
    · exact hold g (hsame ▸ hg)
    · rw [hmore] at hg
      obtain hg | hg := mem_append.mp hg
      · exact hold g hg
      · obtain rfl := mem_singleton.mp hg
        exact ⟨le_rfl, he.2.1, _, he.2.2.1, rfl, fun _ => hlt⟩
  · obtain hid | hid := hpublic id hid
    · obtain ⟨g, hg, rfl⟩ := mem_map.mp (hs.held id hid)
      exact mem_map_of_mem (mem_append_left _ hg)
    · exact mem_map_of_mem hid

section Collisions

variable (hblake3 : ∀ a b : Bytes, a.length = 16 → b.length = 16 → blake3 a = blake3 b → a = b)
include hblake3

/-- An id is new where the ids are those of earlier submissions. -/
theorem Past.id_new (hs : Past blake3 s) (he : Apart R blake3 s e) :
    publicTaskId blake3 e.now s.pool.queue.length ∉ s.given.map Prod.snd := by
  intro hid
  obtain ⟨g, hg, hsame⟩ := mem_map.mp hid
  obtain ⟨hclock, hlt, count, hcount, hmade, hless⟩ := hs.made g hg
  obtain ⟨hle, hnow_lt, hlength, -⟩ := he
  rw [hmade] at hsame
  obtain ⟨hnow, hnumber⟩ := append_inj (hblake3 _ _ rfl rfl hsame) rfl
  have hnow := toBeBytes_injective hlt hnow_lt (reverse_injective hnow)
  have hnumber := toBeBytes_injective hcount hlength (reverse_injective hnumber)
  exact (hless (hclock.antisymm (hnow ▸ hle))).ne hnumber

/-- **Every accepted task gets an id of its own**, and takes the place of no other one in
the pool, if in no millisecond a task leaves the queue after one was submitted. -/
theorem accepted_id_new {config : Option (QuotaConfig F)} {requests : List Timed}
    (hapart : Run.Along (serve R blake3) (Apart R blake3) ⟨new config, 0, []⟩ (requests ++ [e])) :
    let s := Run.run (serve R blake3) ⟨new config, 0, []⟩ requests
    (serve R blake3 s e).given = s.given ∨
      ∃ id, (serve R blake3 s e).given = s.given ++ [(e.now, id)] ∧
        id ∉ s.given.map Prod.snd ∧ s.pool.publicTasks id = none := by
  obtain ⟨hbefore, he, -⟩ := Run.along_append.mp hapart
  have hpast : Past blake3 (Run.run (serve R blake3) ⟨new config, 0, []⟩ requests) :=
    Run.invariant_along ⟨nofun, fun _ hid => absurd rfl hid⟩ (fun _ _ hs => hs.serve) hbefore
  have hnew := hpast.id_new hblake3 he
  refine (serve_spec R blake3 he).2.1.imp id fun hgiven => ⟨_, hgiven.1, hnew, ?_⟩
  exact by_contra fun hheld => hnew (hpast.held _ hheld)

end Collisions

instance (s : Served F) (e : Timed) : Decidable (Apart R blake3 s e) := by
  unfold Apart
  split <;> infer_instance

/-- The bytes, and zeros after them. -/
def paddedHash (bytes : Bytes) : Hash := ⟨Vector.ofFn fun i => bytes.getD i 0⟩

theorem paddedHash_inj (a b : Bytes) (ha : a.length = 16) (hb : b.length = 16)
    (h : paddedHash a = paddedHash b) : a = b := by
  refine ext_getElem (ha.trans hb.symm) fun i hi hi' => ?_
  have hbyte := congrArg (fun hash : Hash => hash.bytes.get ⟨i, by omega⟩) h
  simpa [paddedHash, hi, hi'] using hbyte

/-- A submission, whose times and id the server makes. -/
def submission (now : ℕ) (byte : UInt8) : Timed :=
  ⟨now, .trySubmit (partyOf byte) (smallTask byte 0) 5 0⟩

/-- A party fetches a task. -/
def fetching (now : ℕ) : Timed := ⟨now, .fetch .cold 4000 (some (partyOf 8))⟩

/-- Two tasks in one millisecond, and in the next one is fetched before a third comes. -/
theorem third_id_new :
    let s := Run.run (serve wholeRates paddedHash) ⟨new none, 0, []⟩
      [submission 1000 1, submission 1000 2, fetching 1001]
    s.pool.queue.length = 1 ∧
    ∃ id, (serve wholeRates paddedHash s (submission 1001 3)).given = s.given ++ [(1001, id)] ∧
      id ∉ s.given.map Prod.snd ∧ s.pool.publicTasks id = none :=
  ⟨by decide +kernel, (accepted_id_new paddedHash_inj
    (show Run.Along _ _ _ ([_, _, _] ++ [_]) by decide +kernel)).resolve_left (by decide +kernel)⟩

/-- **A task is fetched in the millisecond of its submission, and the next one replaces it.** -/
theorem id_given_twice :
    let s := Run.run (serve wholeRates paddedHash) ⟨new none, 0, []⟩
      [submission 1000 1, fetching 1000, submission 1000 2]
    s.given.map Prod.snd = [publicTaskId paddedHash 1000 0, publicTaskId paddedHash 1000 0] ∧
      (s.pool.publicTasks (publicTaskId paddedHash 1000 0)).map PublicTask.submitter =
        some (partyOf 2) := by
  decide +kernel

end Qfc.Ai
