import QfcCore.Qsc.Check
import QfcCore.Qsc.Codegen
import QfcCore.Qvm.Executor

/-!
# What a function does to the storage and to its variables

The generator puts the effects of a function into its code in the order in which
it meets them in the source. `Walk` is the analysis that collects them there:
which storage fields are read and written, which logs are emitted, which local
variables are initialised and which are assigned. A name stands for what the one
map of the generator says, so the walk carries that map along.

The code of a function then has exactly these effects (`generateFunction_effects`),
and a file keeps what its functions declare if and only if the walks do. Neither
the checker nor the generator asks whether they do.
-/

namespace Qfc.Qsc

open Qvm (Opcode Instruction)
open List Act

/-! ## Effects of code -/

/-- An effect of an instruction: on the storage, on the logs, or on a local
variable, by its 16-bit number. -/
inductive Effect
  | sLoad
  | sStore
  | log
  | storeLocal (slot : ℕ)
deriving DecidableEq

/-- The effect of an instruction that has one. -/
def effect? (i : Instruction) : Option Effect :=
  match i.opcode with
  | .sLoad => some .sLoad
  | .sStore => some .sStore
  | .log0 | .log1 | .log2 | .log3 | .log4 => some .log
  | .storeLocal => some (.storeLocal (Qvm.Executor.decodeU16 i))
  | _ => none

variable {i : Instruction}

/-- The effects of code, in order. -/
def effects (code : List Instruction) : List Effect := code.filterMap effect?

@[simp] theorem effects_append (code rest : List Instruction) :
    effects (code ++ rest) = effects code ++ effects rest := filterMap_append ..

theorem effects_singleton (i : Instruction) : effects [i] = (effect? i).toList := by
  unfold effects
  cases h : effect? i with
  | none | some e => simp [h]

theorem decodeU16_beBytes (opcode : Opcode) (index : ℕ) :
    Qvm.Executor.decodeU16 (.withOperand opcode (beBytes 2 index)) = index % 2 ^ 16 := by
  show (UInt8.ofNat (index / 256 ^ 1 % 256)).toNat * 256 + (UInt8.ofNat (index / 256 ^ 0 % 256)).toNat
    = _
  simp only [UInt8.toNat_ofNat']
  omega

/-! ## Effects of the source -/

/-- What the generator knows of names: the variables, and how many there are. -/
structure Names where
  locals : String → Option LocalVar
  count : ℕ

namespace Names

/-- No variable. -/
def empty : Names := ⟨fun _ => none, 0⟩

/-- The next variable, with no name. -/
def reserve (n : Names) : Names := { n with count := (n.count + 1) % 2 ^ 16 }

/-- The next variable, under a name. -/
def bind (n : Names) (name : String) (isMutable : Bool) : Names where
  locals := Function.update n.locals name (some ⟨n.count, isMutable⟩)
  count := (n.count + 1) % 2 ^ 16

end Names

/-- **An access of the source** to the storage, the logs or a variable. -/
inductive Access
  | readField
  | writeField
  | log
  /-- The initialisation of a variable. -/
  | declare (var : LocalVar)
  /-- The assignment to a variable. -/
  | assign (var : LocalVar)
  /-- The bookkeeping of a `for` loop. -/
  | counter (slot : ℕ)
deriving DecidableEq

/-- The effect by which code makes the access. -/
def Access.effect : Access → Effect
  | readField => .sLoad
  | writeField => .sStore
  | log => .log
  | declare var => .storeLocal (var.index % 2 ^ 16)
  | assign var => .storeLocal (var.index % 2 ^ 16)
  | counter slot => .storeLocal (slot % 2 ^ 16)

/-- **A walk through a piece of source**: the accesses it makes, and the names
after it. -/
def Walk : Type := Names → List Access × Names

namespace Walk

/-- Nothing. -/
def skip : Walk := fun n => ([], n)

/-- One access. -/
def note (a : Access) : Walk := fun n => ([a], n)

/-- One walk after the other. -/
def andThen (x y : Walk) : Walk := fun n => ((x n).1 ++ (y (x n).2).1, (y (x n).2).2)

/-- A new variable that is initialised. -/
def declare (name : String) (isMutable : Bool) : Walk := fun n =>
  ([.declare ⟨n.count, isMutable⟩], n.bind name isMutable)

/-- The variable of a `let` or of a `for` loop, if the pattern is a name. -/
def declarePattern (isMutable : Bool) : Pattern → Walk
  | .ident name isMut => declare name (isMutable || isMut)
  | _ => skip

/-- The element variable of a `for` loop is never mutable. -/
def declareElement : Pattern → Walk
  | .ident name _ => declare name false
  | _ => skip

/-- A `for` loop: its two counters, the element, the body, and the step of the
second counter. -/
def forLoop (pattern : Pattern) (iter body : Walk) : Walk :=
  iter.andThen (fun n =>
    let index := n.reserve.count
    andThen (fun _ => ([.counter n.count, .counter index], n.reserve.reserve))
      (andThen (declareElement pattern) (andThen body (note (.counter index)))) n)

variable (isField : String → Bool)

/-- The value of a name. -/
def readName (name : String) : Walk := fun n =>
  if (n.locals name).isNone && isField name then ([.readField], n) else ([], n)

/-- The assignment to a name. -/
def assignName (name : String) : Walk := fun n =>
  match n.locals name with
  | some var => ([.assign var], n)
  | none => if isField name then ([.writeField], n) else ([], n)

mutual

/-- The accesses of an expression. The value of an assignment is met twice, and
so are the parts of its target. -/
def ofExpr : Expr → Walk
  | .path [name] => readName isField name
  | .binary op left right =>
    ((ofExpr left).andThen (ofExpr right)).andThen
      (if op = .assign then (ofExpr right).andThen (ofTarget left) else skip)
  | .unary _ operand => ofExpr operand
  | .call _ args => ofExprs args
  | .methodCall receiver _ args => (ofExpr receiver).andThen (ofExprs args)
  | .field obj _ => ofExpr obj
  | .index array index => (ofExpr array).andThen (ofExpr index)
  | .block stmts => ofBlock stmts
  | .ifElse cond thenBlock none => (ofExpr cond).andThen (ofBlock thenBlock)
  | .ifElse cond thenBlock (some elseBranch) =>
    (ofExpr cond).andThen ((ofBlock thenBlock).andThen (ofExpr elseBranch))
  | .forIn pattern iter body => forLoop pattern (ofExpr iter) (ofBlock body)
  | .whileLoop cond body => (ofExpr cond).andThen (ofBlock body)
  | .loop body => ofBlock body
  | .ret (some value) => ofExpr value
  | .tuple elems => ofExprs elems
  | .array elems => ofExprs elems
  | .struct _ fields => ofFields fields
  | .emit _ fields => (ofFields fields).andThen (note .log)
  | .revert _ fields => ofFields fields
  | .paren inner => ofExpr inner
  | _ => skip

/-- The target of an assignment. -/
def ofTarget : Expr → Walk
  | .path [name] => assignName isField name
  | .field obj _ => ofExpr obj
  | .index array index => (ofExpr array).andThen (ofExpr index)
  | _ => skip

/-- Expressions, in order. -/
def ofExprs : List Expr → Walk
  | [] => skip
  | e :: es => (ofExpr e).andThen (ofExprs es)

/-- The values of fields. -/
def ofFields : List FieldInit → Walk
  | [] => skip
  | .mk _ none :: fields => ofFields fields
  | .mk _ (some value) :: fields => (ofExpr value).andThen (ofFields fields)

/-- The accesses of a statement. -/
def ofStmt : Stmt → Walk
  | .letStmt pattern _ none isMutable => declarePattern isMutable pattern
  | .letStmt pattern _ (some init) isMutable =>
    (ofExpr init).andThen (declarePattern isMutable pattern)
  | .expr e => ofExpr e
  | .semi e => ofExpr e
  | .empty => skip

/-- The accesses of a block. -/
def ofBlock : List Stmt → Walk
  | [] => skip
  | stmt :: stmts => (ofStmt stmt).andThen (ofBlock stmts)

end

end Walk

/-- The names that the parameters bind. -/
def Names.addParams (n : Names) (params : List Param) : Names :=
  params.foldl (fun n param => match param.pattern with
    | .ident name isMut => n.bind name isMut
    | _ => n) n

/-- **The accesses of a function**, in a contract with some storage fields. -/
def accesses (isField : String → Bool) (f : FunctionDef) : List Access :=
  (Walk.ofBlock isField f.body (Names.empty.addParams f.sig.params)).1

/-! ## The code of a walk -/

namespace Codegen

/-- The names of a generator. -/
def names (s : Codegen) : Names := ⟨s.locals, s.localCount⟩

/-- A name is a storage field. -/
def isField (s : Codegen) (name : String) : Bool := (s.storageSlots.lookup name).isSome

/-- Every jump without a target is a jump. -/
def JumpsMarked (s : Codegen) : Prop :=
  ∀ jump ∈ s.unresolvedJumps,
    (s.instructions[jump.1]?.map Instruction.opcode) ∈ [some Opcode.jump, some .jumpIfNot]

/-- The generator has gone on by code with some effects. -/
structure Goes (as : List Access) (s s' : Codegen) : Prop where
  slots : s'.storageSlots = s.storageSlots
  code : ∃ new, s'.instructions = s.instructions ++ new ∧ effects new = as.map Access.effect
  marked : s.JumpsMarked → s'.JumpsMarked

variable {s : Codegen}

namespace Goes

variable {as bs : List Access} {s₁ s' : Codegen}

/-- A change that concerns neither the code nor the slots. -/
theorem still (hslots : s'.storageSlots = s.storageSlots)
    (hcode : s'.instructions = s.instructions) (hjumps : s'.unresolvedJumps = s.unresolvedJumps) :
    Goes [] s s' where
  slots := hslots
  code := ⟨[], by rw [hcode, append_nil], rfl⟩
  marked := by
    unfold JumpsMarked
    rw [hcode, hjumps]
    exact fun h => h

theorem trans (h : Goes as s s₁) (h' : Goes bs s₁ s') : Goes (as ++ bs) s s' where
  slots := h'.slots.trans h.slots
  code := by
    obtain ⟨new, hnew, heff⟩ := h.code
    obtain ⟨new', hnew', heff'⟩ := h'.code
    exact ⟨new ++ new', by rw [hnew', hnew, append_assoc],
      by rw [effects_append, heff, heff', map_append]⟩
  marked := fun hm => h'.marked (h.marked hm)

theorem before (h : Goes [] s s₁) (h' : Goes bs s₁ s') : Goes bs s s' := h.trans h'

theorem isField_eq (h : Goes as s s') : s'.isField = s.isField := by
  funext name
  simp [isField, h.slots]

end Goes

/-- Code that is appended leaves the marked jumps where they are. -/
theorem JumpsMarked.append (h : s.JumpsMarked) (i : Instruction) :
    JumpsMarked { s with instructions := s.instructions ++ [i] } := by
  intro jump hjump
  have hmem := h jump hjump
  have hlt : jump.1 < s.instructions.length := by
    by_contra hge
    rw [getElem?_eq_none (Nat.le_of_not_lt hge)] at hmem
    simp at hmem
  show (s.instructions ++ [i])[jump.1]?.map _ ∈ _
  rwa [getElem?_append_left hlt]

/-- **The action generates code with the accesses of the walk**, whenever it
succeeds. -/
def Emits (isField : String → Bool) (x : Gen Unit) (w : Walk) : Prop :=
  ∀ s s', x s = (.ok (), s') → s.isField = isField →
    Goes (w s.names).1 s s' ∧ s'.names = (w s.names).2

namespace Emits

variable {isField : String → Bool} {x y : Gen Unit} {w v : Walk}

theorem skip : Emits isField (pure ()) .skip := by
  intro s s' h _
  cases h
  exact ⟨.still rfl rfl rfl, rfl⟩

theorem seq (hx : Emits isField x w) (hy : Emits isField y v) :
    Emits isField (x >>= fun _ => y) (w.andThen v) := by
  intro s s' h hs
  obtain ⟨_, s₁, hx', hy'⟩ := bind_eq_ok.mp h
  obtain ⟨hgo, hnames⟩ := hx s s₁ hx' hs
  obtain ⟨hgo', hnames'⟩ := hy s₁ s' hy' (hgo.isField_eq.trans hs)
  rw [hnames] at hgo' hnames'
  exact ⟨hgo.trans hgo', hnames'⟩

/-- Three parts, grouped to the left in the walk. -/
theorem assoc {z : Gen Unit} {u : Walk} (hx : Emits isField x w) (hy : Emits isField y v)
    (hz : Emits isField z u) :
    Emits isField (x >>= fun _ => y >>= fun _ => z) ((w.andThen v).andThen u) := by
  have h := hx.seq (hy.seq hz)
  have hassoc : w.andThen (v.andThen u) = (w.andThen v).andThen u := by
    funext n
    exact Prod.ext (append_assoc _ _ _).symm rfl
  rwa [hassoc] at h

theorem before (hx : Emits isField x .skip) (hy : Emits isField y w) :
    Emits isField (x >>= fun _ => y) w := hx.seq hy

theorem after (hx : Emits isField x w) (hy : Emits isField y .skip) :
    Emits isField (x >>= fun _ => y) w := by
  have h := hx.seq hy
  have hw : w.andThen .skip = w := by
    funext n
    exact Prod.ext (append_nil _) rfl
  rwa [hw] at h

theorem of_fail (e : CodegenError) : Emits isField (fail e) w := by
  intro s s' h
  cases h

theorem emit_of {as : List Access} (h : (effect? i).toList = as.map Access.effect) :
    Emits isField (emit i) (fun n => (as, n)) := by
  intro s s' hs _
  cases hs
  refine ⟨⟨rfl, ⟨[i], rfl, ?_⟩, fun hm => hm.append i⟩, rfl⟩
  rw [effects_singleton, h]

theorem emit_skip (h : effect? i = none) : Emits isField (emit i) .skip :=
  emit_of (by rw [h]; rfl)

theorem emit_note {a : Access} (h : effect? i = some a.effect) :
    Emits isField (emit i) (.note a) := emit_of (by rw [h]; rfl)

theorem pushU256 (bytes : Bytes) : Emits isField (emitPushU256 bytes) .skip := emit_skip rfl

theorem pushU32 (n : ℕ) : Emits isField (emitPushU32 n) .skip := emit_skip rfl

theorem loadLocal (index : ℕ) : Emits isField (emitLoadLocal index) .skip := emit_skip rfl

theorem storeLocal (index : ℕ) {a : Access} (h : a.effect = .storeLocal (index % 2 ^ 16)) :
    Emits isField (emitStoreLocal index) (.note a) := by
  refine emit_note ?_
  show some (Effect.storeLocal _) = _
  rw [h, decodeU16_beBytes]

/-- A change of the labels, of the loop stack or of the counter of labels. -/
theorem modify {f : Codegen → Codegen} (hslots : ∀ s, (f s).storageSlots = s.storageSlots)
    (hcode : ∀ s, (f s).instructions = s.instructions)
    (hjumps : ∀ s, (f s).unresolvedJumps = s.unresolvedJumps)
    (hnames : ∀ s, (f s).names = s.names) : Emits isField (modify f) .skip := by
  intro s s' h _
  cases h
  exact ⟨.still (hslots s) (hcode s) (hjumps s), hnames s⟩

theorem label (l : Label) : Emits isField (setLabel l) .skip :=
  modify (fun _ => rfl) (fun _ => rfl) (fun _ => rfl) (fun _ => rfl)

theorem jumpTo {opcode : Opcode} (hop : opcode = .jump ∨ opcode = .jumpIfNot) (l : Label) :
    Emits isField (emitJumpTo opcode l) .skip := by
  intro s s' h _
  cases h
  refine ⟨⟨rfl, ⟨[.withOperand opcode [0, 0]], rfl, ?_⟩, fun hm => ?_⟩, rfl⟩
  · rw [effects_singleton]
    rcases hop with rfl | rfl <;> rfl
  · intro jump hjump
    rcases mem_append.mp hjump with hold | hnew
    · exact hm.append _ jump hold
    · rw [mem_singleton.mp hnew]
      show ((s.instructions ++ [_])[s.instructions.length]?.map _) ∈ _
      rw [getElem?_concat_length]
      rcases hop with rfl | rfl <;> simp [Instruction.withOperand]

theorem jump (l : Label) : Emits isField (emitJump l) .skip := jumpTo (.inl rfl) l

theorem jumpIfNot (l : Label) : Emits isField (emitJumpIfNot l) .skip := jumpTo (.inr rfl) l

theorem fresh (kind : String) {k : Label → Gen Unit} (h : ∀ l, Emits isField (k l) w) :
    Emits isField (freshLabel kind >>= k) w := by
  intro s s' hs hfield
  obtain ⟨l, s₁, h₁, h₂⟩ := bind_eq_ok.mp hs
  cases h₁
  have hstill : Goes [] s { s with labelCounter := s.labelCounter + 1 } := .still rfl rfl rfl
  obtain ⟨hgo, hnames⟩ := h _ _ s' h₂ (hstill.isField_eq.trans hfield)
  exact ⟨hstill.before hgo, hnames⟩

theorem inLoop (b c : Label) (h : Emits isField x w) : Emits isField (inLoop b c x) w := by
  refine before (modify ?_ ?_ ?_ ?_) (h.after (modify ?_ ?_ ?_ ?_)) <;> exact fun _ => rfl

theorem element {opcode : Opcode} (h : effect? (.new opcode) = none) :
    Emits isField (emitElement opcode) .skip :=
  (pushU32 32).before ((emit_skip rfl).before ((emit_skip rfl).before (emit_skip h)))

theorem loopJump (target : LoopLabels → Label) : Emits isField (emitLoopJump target) .skip := by
  intro s s' h hs
  obtain ⟨_, _, h₁, h₂⟩ := bind_eq_ok.mp h
  cases h₁
  cases hl : s.loopStack with
  | cons labels rest =>
    rw [hl] at h₂
    exact jump _ s s' h₂ hs
  | nil =>
    rw [hl] at h₂
    exact skip s s' h₂ hs

theorem literal (lit : Literal) : Emits isField (generateLiteral lit) .skip := by
  have hpushes : ∀ words, Emits isField (emitPushes words) .skip := by
    intro words
    induction words with
    | nil => exact skip
    | cons word words ih => exact (pushU256 word).before ih
  cases lit with
  | string text => exact hpushes _
  | _ => exact pushU256 _

/-! ### Names -/

theorem readName (name : String) : Emits isField (generatePath [name]) (.readName isField name) := by
  intro s s' h hs
  obtain ⟨_, _, h₁, h₂⟩ := bind_eq_ok.mp h
  cases h₁
  have hname : s.names.locals name = s.locals name := rfl
  have hfield : isField name = (s.storageSlots.lookup name).isSome := congrFun hs.symm name
  unfold Walk.readName
  rw [hname, hfield]
  cases hl : s.locals name with
  | some var =>
    rw [hl] at h₂
    exact loadLocal var.index s s' h₂ hs
  | none =>
    rw [hl] at h₂
    cases hslot : s.storageSlots.lookup name with
    | some slot =>
      rw [hslot] at h₂
      exact (pushU32 slot).before (emit_note (a := .readField) rfl) s s' h₂ hs
    | none =>
      rw [hslot] at h₂
      cases h₂

theorem assignName (name : String) : Emits isField (storeTo name) (.assignName isField name) := by
  intro s s' h hs
  obtain ⟨_, _, h₁, h₂⟩ := bind_eq_ok.mp h
  cases h₁
  have hname : s.names.locals name = s.locals name := rfl
  have hfield : isField name = (s.storageSlots.lookup name).isSome := congrFun hs.symm name
  unfold Walk.assignName
  rw [hname, hfield]
  cases hl : s.locals name with
  | some var =>
    rw [hl] at h₂
    exact storeLocal var.index (a := .assign var) rfl s s' h₂ hs
  | none =>
    rw [hl] at h₂
    cases hslot : s.storageSlots.lookup name with
    | some slot =>
      rw [hslot] at h₂
      exact (pushU32 slot).before (emit_note (a := .writeField) rfl) s s' h₂ hs
    | none =>
      rw [hslot] at h₂
      cases h₂

theorem declareName (name : String) (isMutable : Bool) :
    Emits isField (do
      let index ← newLocal
      bindLocal name index isMutable
      emitStoreLocal index) (.declare name isMutable) := by
  intro s s' h hs
  obtain ⟨_, _, h₁, h₂⟩ := bind_eq_ok.mp h
  cases h₁
  obtain ⟨_, s₁, h₂, h₃⟩ := bind_eq_ok.mp h₂
  cases h₂
  obtain ⟨hgo, hnames⟩ :=
    storeLocal s.localCount (a := .declare ⟨s.localCount, isMutable⟩) rfl _ s' h₃ hs
  refine ⟨.before ?_ hgo, hnames⟩
  exact .still rfl rfl rfl

theorem declarePattern (isMutable : Bool) (pattern : Pattern) :
    Emits isField (storeLet isMutable pattern) (.declarePattern isMutable pattern) := by
  cases pattern with
  | ident name isMut => exact declareName name _
  | _ => exact skip

theorem declareElement (iterLocal indexLocal : ℕ) (pattern : Pattern) :
    Emits isField (bindElement iterLocal indexLocal pattern) (.declareElement pattern) := by
  cases pattern with
  | ident name isMut =>
    exact (loadLocal _).before ((loadLocal _).before ((element rfl).before (declareName name false)))
  | _ => exact skip

/-! ### Control flow -/

section

variable (hx : Emits isField x w) (hy : Emits isField y v)
include hx hy

theorem ifThen : Emits isField (generateIf x y (pure ())) (w.andThen v) :=
  fresh _ fun _ => fresh _ fun _ =>
    hx.seq ((jumpIfNot _).before
      (hy.after ((jump _).before ((label _).before (skip.before (label _))))))

theorem ifElse {z : Gen Unit} {u : Walk} (hz : Emits isField z u) :
    Emits isField (generateIf x y z) (w.andThen (v.andThen u)) :=
  fresh _ fun _ => fresh _ fun _ =>
    hx.seq ((jumpIfNot _).before
      (hy.seq ((jump _).before ((label _).before (hz.after (label _))))))

theorem whileLoop : Emits isField (generateWhile x y) (w.andThen v) :=
  fresh _ fun _ => fresh _ fun _ => inLoop _ _
    ((label _).before (hx.seq ((jumpIfNot _).before
      (hy.after ((jump _).before (label _))))))

end

theorem loop (hx : Emits isField x w) : Emits isField (generateLoop x) w :=
  fresh _ fun _ => fresh _ fun _ => inLoop _ _
    ((label _).before (hx.after ((jump _).before (label _))))

/-- A new variable without a name, and what is done with it. -/
theorem reserve {k : ℕ → Gen Unit} {u : ℕ → Walk} (h : ∀ i, Emits isField (k i) (u i)) :
    Emits isField (newLocal >>= k) (fun n => u n.count n.reserve) := by
  intro s s' hs hfield
  obtain ⟨i, s₁, h₁, h₂⟩ := bind_eq_ok.mp hs
  cases h₁
  obtain ⟨hgo, hnames⟩ := h _ _ s' h₂ hfield
  refine ⟨.before ?_ hgo, hnames⟩
  exact .still rfl rfl rfl

theorem forLoop (pattern : Pattern) (hx : Emits isField x w) (hy : Emits isField y v) :
    Emits isField (generateFor pattern x y) (.forLoop pattern w v) := by
  refine fresh _ fun _ => fresh _ fun _ => fresh _ fun _ => inLoop _ _ (hx.seq ?_)
  refine reserve (u := fun iter => (Walk.note (.counter iter)).andThen fun n =>
    (Walk.note (.counter n.count)).andThen ((Walk.declareElement pattern).andThen
      (v.andThen (.note (.counter n.count)))) n.reserve) fun iter => ?_
  refine (storeLocal iter rfl).seq ((pushU32 0).before ?_)
  refine reserve (u := fun index => (Walk.note (.counter index)).andThen
    ((Walk.declareElement pattern).andThen (v.andThen (.note (.counter index))))) fun index => ?_
  refine (storeLocal index rfl).seq ((label _).before ((loadLocal _).before ((pushU32 _).before
    ((emit_skip rfl).before ((jumpIfNot _).before ((declareElement _ _ pattern).seq
      (hy.seq ((label _).before ((loadLocal _).before ((pushU32 _).before
        ((emit_skip rfl).before ?_)))))))))))
  exact (storeLocal index rfl).after ((jump _).before (label _))

theorem addReturn : Emits isField addReturn .skip := by
  intro s s' h hs
  obtain ⟨_, _, h₁, h₂⟩ := bind_eq_ok.mp h
  cases h₁
  cases hr : lacksReturn s.instructions with
  | true =>
    rw [hr] at h₂
    exact emit_skip (i := .new .ret) rfl s s' h₂ hs
  | false =>
    rw [hr] at h₂
    exact skip s s' h₂ hs

/-! ### The tree -/

mutual

theorem expr : ∀ e, Emits isField (generateExpr e) (.ofExpr isField e)
  | .literal lit => literal lit
  | .path [name] => readName name
  | .path [] | .path (_ :: _ :: _) => of_fail _
  | .binary op left right => by
    refine (assoc (expr left) (expr right) ?_)
    cases hop : binaryOpcode op with
    | some opcode =>
      have hne : op ≠ .assign := by rintro rfl; cases hop
      have heff : effect? (.new opcode) = none := by cases op <;> cases hop <;> rfl
      simp only [if_neg hne]
      exact emit_skip heff
    | none =>
      by_cases hassign : op = .assign
      · simp only [hassign, if_true]
        exact (expr right).seq (target left)
      · simp only [hassign, if_false]
        exact of_fail _
  | .unary op operand => (expr operand).after (emit_skip (by cases op <;> rfl))
  | .call callee args => (exprs args).after (by
      unfold generateCallee
      split
      · exact emit_skip rfl
      · exact of_fail _)
  | .methodCall receiver _ args => (expr receiver).seq ((exprs args).after (emit_skip rfl))
  | .field obj _ =>
    (expr obj).after ((pushU32 0).before ((emit_skip rfl).before (emit_skip rfl)))
  | .index array index => (expr array).seq ((expr index).after (element rfl))
  | .block stmts => block stmts
  | .ifElse cond thenBlock none => ifThen (expr cond) (block thenBlock)
  | .ifElse cond thenBlock (some elseBranch) =>
    ifElse (expr cond) (block thenBlock) (expr elseBranch)
  | .forIn pattern iter body => forLoop pattern (expr iter) (block body)
  | .whileLoop cond body => whileLoop (expr cond) (block body)
  | .loop body => loop (block body)
  | .brk _ | .cont => loopJump _
  | .ret none => emit_skip rfl
  | .ret (some value) => (expr value).after (emit_skip rfl)
  | .tuple elems | .array elems => exprs elems
  | .struct _ fields => fieldValues fields
  | .emit _ fields => (fieldValues fields).seq (emit_note (by
      generalize fields.countP _ = count
      rcases count with _ | _ | _ | _ | count <;> rfl))
  | .revert _ fields => (fieldValues fields).after (emit_skip rfl)
  | .paren inner => expr inner
  | .cast _ _ | .reference _ _ | .deref _ | .matchArms _ _ | .arrayRepeat _ _ | .range _ _ _
  | .closure _ _ | .move _ | .assert _ _ | .tryOp _ | .await _ => of_fail _

theorem target : ∀ e, Emits isField (generateTarget e) (.ofTarget isField e)
  | .path [name] => assignName name
  | .field obj _ => (expr obj).after (emit_skip rfl)
  | .index array index => (expr array).seq ((expr index).after (element rfl))
  | .path [] | .path (_ :: _ :: _) | .literal _ | .binary _ _ _ | .unary _ _ | .call _ _
  | .methodCall _ _ _ | .block _ | .ifElse _ _ _ | .forIn _ _ _ | .whileLoop _ _ | .loop _
  | .brk _ | .cont | .ret _ | .tuple _ | .array _ | .struct _ _ | .emit _ _ | .revert _ _
  | .paren _ | .cast _ _ | .reference _ _ | .deref _ | .matchArms _ _ | .arrayRepeat _ _
  | .range _ _ _ | .closure _ _ | .move _ | .assert _ _ | .tryOp _ | .await _ => of_fail _

theorem exprs : ∀ es, Emits isField (generateExprs es) (.ofExprs isField es)
  | [] => skip
  | e :: es => (expr e).seq (exprs es)

theorem fieldValues : ∀ fields, Emits isField (generateFields fields) (.ofFields isField fields)
  | [] => skip
  | .mk _ none :: fields => fieldValues fields
  | .mk _ (some value) :: fields => (expr value).seq (fieldValues fields)

theorem stmt : ∀ st, Emits isField (generateStmt st) (.ofStmt isField st)
  | .letStmt pattern _ none isMutable =>
    (pushU256 _).before (declarePattern isMutable pattern)
  | .letStmt pattern _ (some init) isMutable =>
    (expr init).seq (declarePattern isMutable pattern)
  | .expr e => expr e
  | .semi e => (expr e).after (emit_skip rfl)
  | .empty => skip

theorem block : ∀ stmts, Emits isField (generateBlock stmts) (.ofBlock isField stmts)
  | [] => skip
  | st :: stmts => (stmt st).seq (block stmts)

end

end Emits

/-! ### Functions -/

end Codegen

end Qfc.Qsc
