import QfcCore.Chain.Database
import QfcCore.Lib.Run

/-!
# The hashes that a contract may ask for

`block_hash_lookup` resolves a height on the branch of the executing block: it walks
parent hashes through the hash-keyed store and keeps every height it has come by, until
it is asked about another start. The heights that are kept belong to ancestors of the
start, so that what an earlier walk has left is what a new walk would find.
-/

namespace Qfc.Chain

open Function

variable {H : Type}

/-- What the resolver keeps: the start, and a hash for each height it has come by. -/
structure Visited (H : Type) where
  start : Option H
  heights : ℕ → Option H

/-- A new resolver. -/
def Visited.new : Visited H := ⟨none, fun _ => none⟩

/-- The loop of `block_hash_lookup`. The outer `none` is a walk that has not ended. -/
def walk (db : Database H) (wanted : ℕ) : ℕ → H → (ℕ → Option H) →
    Option (Option H) × (ℕ → Option H)
  | 0, _, heights => (none, heights)
  | fuel + 1, cursor, heights =>
    match db.blocksByHash cursor with
    | none => (some none, heights)
    | some block =>
      let heights := update heights block.number (some cursor)
      if block.number = wanted then (some (some cursor), heights)
      -- past the height, or at the genesis block
      else if block.number < wanted ∨ block.number = 0 then (some none, heights)
      else walk db wanted fuel block.parentHash heights

/-- A query to the resolver that `block_hash_lookup` builds. -/
def blockHashLookup [DecidableEq H] (db : Database H) (fuel : ℕ) (v : Visited H) (start : H) (wanted : ℕ) :
    Option (Option H) × Visited H :=
  let heights := if v.start = some start then v.heights else fun _ => none
  match heights wanted with
  | some hash => (some (some hash), ⟨some start, heights⟩)
  | none =>
    let (answer, heights) := walk db wanted fuel start heights
    (answer, ⟨some start, heights⟩)

/-- The resolver with the answers it has given. -/
def query [DecidableEq H] (db : Database H) (fuel : ℕ) (s : Visited H × List (Option (Option H)))
    (q : H × ℕ) : Visited H × List (Option (Option H)) :=
  let (answer, v) := blockHashLookup db fuel s.1 q.1 q.2
  (v, s.2 ++ [answer])

/-! ## Ancestors -/

/-- The block under the first hash is stored, and the second one is that of its parent. -/
def ParentOf (db : Database H) (child parent : H) : Prop :=
  ∃ block, db.blocksByHash child = some block ∧ block.number ≠ 0 ∧ block.parentHash = parent

/-- **The block under the hash is the start or an ancestor of it, at the height.** -/
def AncestorAt (db : Database H) (start : H) (height : ℕ) (hash : H) : Prop :=
  Relation.ReflTransGen (ParentOf db) start hash ∧
    ∃ block, db.blocksByHash hash = some block ∧ block.number = height

/-- Every stored block but the genesis block is one above its parent, if that is stored. -/
def Numbered (db : Database H) : Prop :=
  ∀ hash block parent, db.blocksByHash hash = some block → block.number ≠ 0 →
    db.blocksByHash block.parentHash = some parent → block.number = parent.number + 1

section Walk

variable {db : Database H} {wanted : ℕ} {start hash : H} {block : Block H} {heights : ℕ → Option H}

theorem AncestorAt.self (h : db.blocksByHash hash = some block) :
    AncestorAt db hash block.number hash :=
  ⟨.refl, block, h, rfl⟩

theorem AncestorAt.step (hblock : db.blocksByHash start = some block) (hne : block.number ≠ 0)
    (h : AncestorAt db block.parentHash wanted hash) : AncestorAt db start wanted hash :=
  ⟨h.1.head ⟨block, hblock, hne, rfl⟩, h.2⟩

/-- An ancestor is the block itself or an ancestor of its parent, and then below it. -/
theorem AncestorAt.cases (hnum : Numbered db) (hblock : db.blocksByHash start = some block)
    (h : AncestorAt db start wanted hash) :
    wanted = block.number ∧ hash = start ∨
      wanted < block.number ∧ AncestorAt db block.parentHash wanted hash := by
  obtain ⟨hpath, target, htarget, rfl⟩ := h
  induction hpath using Relation.ReflTransGen.head_induction_on generalizing block with
  | refl =>
    rw [htarget] at hblock
    cases hblock
    exact .inl ⟨rfl, rfl⟩
  | @head start parent hstep hrest ih =>
    obtain ⟨b, hb, hne, rfl⟩ := hstep
    obtain rfl := Option.some.inj (hb.symm.trans hblock)
    -- the parent is stored, since the path goes on from it
    obtain ⟨p, hp⟩ : ∃ p, db.blocksByHash b.parentHash = some p := by
      obtain heq | ⟨_, ⟨p, hp, -⟩, -⟩ := hrest.cases_head
      · exact ⟨target, heq ▸ htarget⟩
      · exact ⟨p, hp⟩
    have habove : b.number = p.number + 1 := hnum _ b p hb hne hp
    refine .inr ⟨?_, hrest, target, htarget, rfl⟩
    obtain ⟨h, -⟩ | ⟨h, -⟩ := ih hp
    · omega
    · omega

/-- The heights that are kept are those of ancestors of the start. -/
def Kept (db : Database H) (start : H) (heights : ℕ → Option H) : Prop :=
  ∀ n hash, heights n = some hash → AncestorAt db start n hash

theorem Kept.update (h : Kept db start heights) (hhash : AncestorAt db start wanted hash) :
    Kept db start (update heights wanted (some hash)) := by
  intro n x hx
  by_cases hn : n = wanted
  · subst hn
    rw [update_self] at hx
    exact Option.some.inj hx ▸ hhash
  · rw [update_of_ne hn] at hx
    exact h n x hx

/-- The answer to a query. -/
def Answers (db : Database H) (start : H) (wanted : ℕ) (answer : Option (Option H)) : Prop :=
  ∃ found, answer = some found ∧ ∀ hash, found = some hash ↔ AncestorAt db start wanted hash

/-- A walk ends at the ancestor at the wanted height, after so many rounds as the
number of the block it starts at. -/
theorem walk_answers (hnum : Numbered db) (wanted : ℕ) {fuel : ℕ} (hpos : 0 < fuel)
    (hfuel : ∀ block, db.blocksByHash hash = some block → block.number < fuel)
    (hpath : Relation.ReflTransGen (ParentOf db) start hash) (hkept : Kept db start heights) :
    Answers db hash wanted (walk db wanted fuel hash heights).1 ∧
      Kept db start (walk db wanted fuel hash heights).2 := by
  induction fuel generalizing hash heights with
  | zero => exact absurd hpos (lt_irrefl 0)
  | succ fuel ih =>
    unfold walk
    cases hblock : db.blocksByHash hash with
    | none =>
      refine ⟨⟨none, rfl, fun x => ⟨nofun, fun h => ?_⟩⟩, hkept⟩
      obtain ⟨hrest, target, htarget, -⟩ := h
      obtain rfl | ⟨_, ⟨b, hb, -⟩, -⟩ := hrest.cases_head
      · cases hblock.symm.trans htarget
      · cases hblock.symm.trans hb
    | some b =>
      have hkept' : Kept db start (update heights b.number (some hash)) :=
        hkept.update ⟨hpath, b, hblock, rfl⟩
      dsimp only
      split_ifs with hwanted hpast
      · subst hwanted
        refine ⟨⟨some hash, rfl, fun x => ⟨?_, fun h => ?_⟩⟩, hkept'⟩
        · rintro ⟨⟩
          exact .self hblock
        · obtain ⟨-, rfl⟩ | ⟨hlt, -⟩ := h.cases hnum hblock
          · rfl
          · exact absurd hlt (lt_irrefl _)
      · refine ⟨⟨none, rfl, fun x => ⟨nofun, fun h => ?_⟩⟩, hkept'⟩
        obtain ⟨heq, -⟩ | ⟨hlt, -⟩ := h.cases hnum hblock
        · exact absurd heq.symm hwanted
        · omega
      · have hne : b.number ≠ 0 := fun h => hpast (.inr h)
        have hlt := hfuel b hblock
        have hrest := ih (by omega) (fun p hp => ?_) (hpath.tail ⟨b, hblock, hne, rfl⟩) hkept'
        · obtain ⟨⟨found, hfound, hspec⟩, hkept⟩ := hrest
          refine ⟨⟨found, hfound, fun x => (hspec x).trans ⟨.step hblock hne, fun h => ?_⟩⟩, hkept⟩
          obtain ⟨heq, -⟩ | ⟨-, h⟩ := h.cases hnum hblock
          · exact absurd heq.symm hwanted
          · exact h
        · have habove : b.number = p.number + 1 := hnum _ b p hblock hne hp
          omega

/-- There is one ancestor at a height. -/
theorem AncestorAt.unique (hnum : Numbered db) {hash' : H} (h : AncestorAt db start wanted hash)
    (h' : AncestorAt db start wanted hash') : hash = hash' := by
  obtain ⟨fuel, hfuel⟩ : ∃ fuel, ∀ block, db.blocksByHash start = some block →
      block.number < fuel + 1 := by
    cases db.blocksByHash start with
    | none => exact ⟨0, nofun⟩
    | some b => exact ⟨b.number, fun _ hb => Option.some.inj hb ▸ Nat.lt_succ_self _⟩
  obtain ⟨⟨found, -, hspec⟩, -⟩ := walk_answers hnum wanted (Nat.succ_pos fuel) hfuel .refl
    (show Kept db start (fun _ => none) from nofun)
  exact Option.some.inj (((hspec hash).mpr h).symm.trans ((hspec hash').mpr h'))

end Walk

/-! ## Sequences of queries -/

section Queries

variable [DecidableEq H] {db : Database H} {fuel : ℕ}

/-- What the resolver keeps belongs to its start. -/
def Visited.Sound (db : Database H) (v : Visited H) : Prop :=
  ∀ start, v.start = some start → Kept db start v.heights

/-- One query, whatever the resolver has kept. -/
theorem blockHashLookup_answers (hnum : Numbered db) (hpos : 0 < fuel) {v : Visited H}
    (hv : v.Sound db) {start : H} (wanted : ℕ)
    (hfuel : ∀ block, db.blocksByHash start = some block → block.number < fuel) :
    Answers db start wanted (blockHashLookup db fuel v start wanted).1 ∧
      (blockHashLookup db fuel v start wanted).2.Sound db := by
  unfold blockHashLookup
  dsimp only
  have hkept : Kept db start (if v.start = some start then v.heights else fun _ => none) := by
    split_ifs with hstart
    · exact hv start hstart
    · exact nofun
  generalize (if v.start = some start then v.heights else fun _ => none) = heights at hkept
  cases hw : heights wanted with
  | some hash =>
    refine ⟨⟨some hash, rfl, fun x => ⟨?_, fun hx => ?_⟩⟩, ?_⟩
    · rintro ⟨⟩
      exact hkept wanted hash hw
    · rw [(hkept wanted hash hw).unique hnum hx]
    · rintro _ ⟨⟩
      exact hkept
  | none =>
    obtain ⟨hanswer, hkept⟩ := walk_answers hnum wanted hpos hfuel .refl hkept
    refine ⟨hanswer, ?_⟩
    rintro _ ⟨⟩
    exact hkept

theorem run_query_answers (hnum : Numbered db) (hpos : 0 < fuel) (queries : List (H × ℕ))
    {s : Visited H × List (Option (Option H))} (hs : s.1.Sound db)
    (hfuel : ∀ q ∈ queries, ∀ block, db.blocksByHash q.1 = some block → block.number < fuel) :
    ∃ answers, (Run.run (query db fuel) s queries).2 = s.2 ++ answers ∧
      List.Forall₂ (fun q answer => Answers db q.1 q.2 answer) queries answers := by
  induction queries generalizing s with
  | nil => exact ⟨[], (List.append_nil _).symm, .nil⟩
  | cons q queries ih =>
    rw [List.forall_mem_cons] at hfuel
    obtain ⟨hanswer, hsound⟩ := blockHashLookup_answers hnum hpos hs q.2 hfuel.1
    obtain ⟨answers, hrun, hanswers⟩ := ih (s := query db fuel s q) hsound hfuel.2
    refine ⟨(blockHashLookup db fuel s.1 q.1 q.2).1 :: answers, ?_, .cons hanswer hanswers⟩
    rw [Run.run_cons, hrun]
    exact List.append_assoc _ _ _

/-- **The resolver answers every query from the branch of its start**, whatever was asked
before, and every walk ends. -/
theorem blockHashLookup_resolves (hnum : Numbered db) (queries : List (H × ℕ)) :
    ∃ rounds, ∀ fuel, rounds ≤ fuel →
      List.Forall₂ (fun q answer => ∃ found, answer = some found ∧
          ∀ hash, found = some hash ↔ AncestorAt db q.1 q.2 hash)
        queries (Run.run (query db fuel) (.new, []) queries).2 := by
  let bound (q : H × ℕ) : ℕ := (db.blocksByHash q.1).elim 0 Block.number
  refine ⟨(queries.map bound).sum + 1, fun fuel hfuel => ?_⟩
  obtain ⟨answers, hrun, hanswers⟩ := run_query_answers (s := (.new, [])) hnum
    (Nat.zero_lt_of_lt hfuel) queries nofun fun q hq block hblock => by
      have hle := List.le_sum_of_mem (List.mem_map_of_mem (f := bound) hq)
      rw [show bound q = block.number from congrArg (Option.elim · 0 Block.number) hblock] at hle
      omega
  rw [hrun]
  exact hanswers

/-- An empty block with a number and a parent. -/
def numberedBlock (number parent : ℕ) : Block ℕ where
  header := ⟨1, number, parent, 0, 0, 0, 0, .zero, 0, .zero, 0, 0, 0, []⟩
  transactions := []
  votes := []
  inferenceProofs := []
  signature := .zero

/-- A genesis block under the hash 1, its child under 2, and two children of that. -/
def forkedStore : Database ℕ :=
  { Database.empty ℕ with
    blocksByHash := fun hash =>
      match hash with
      | 1 => some (numberedBlock 0 0)
      | 2 => some (numberedBlock 1 1)
      | 3 | 4 => some (numberedBlock 2 2)
      | _ => none }

theorem forkedStore_numbered : Numbered forkedStore := by
  intro hash block parent h hne hp
  match hash, h with
  | 1, h =>
    obtain rfl := Option.some.inj h
    exact (hne rfl).elim
  | 2, h | 3, h | 4, h =>
    obtain rfl := Option.some.inj h
    obtain rfl := Option.some.inj hp
    rfl

/-- On two branches, with a height asked twice and one that no ancestor has. -/
theorem forkedStore_resolves :
    ∃ rounds, ∀ fuel, rounds ≤ fuel →
      List.Forall₂ (fun q answer => ∃ found, answer = some found ∧
          ∀ hash, found = some hash ↔ AncestorAt forkedStore q.1 q.2 hash)
        [(3, 1), (3, 2), (4, 2), (4, 7), (4, 1)]
        (Run.run (query forkedStore fuel) (.new, []) [(3, 1), (3, 2), (4, 2), (4, 7), (4, 1)]).2 :=
  blockHashLookup_resolves forkedStore_numbered _

example : (Run.run (query forkedStore 3) (.new, []) [(3, 1), (3, 2), (4, 2), (4, 7), (4, 1)]).2 =
    [some (some 2), some (some 3), some (some 4), some none, some (some 2)] := by
  decide

end Queries

end Qfc.Chain
