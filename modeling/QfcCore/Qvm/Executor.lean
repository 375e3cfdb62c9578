import QfcCore.Qvm.Gas
import QfcCore.Lib.Prog

/-!
# The interpreter

`Executor` of `qfc-qvm/src/executor.rs`. An instruction is an action on the
executor: an error of a part of it ends the instruction, and what was changed
before stays changed. The loop can go on for ever, so a run is a function of
the number of its steps; `Executes` says how it ends.

The heap and the loaded contracts are left out, since no instruction reads
them. The hash of `Keccak256`, which is `blake3`, is a parameter.
-/

namespace Qfc.Qvm

open Act

/-- `ExecutionError`, as far as the interpreter raises it. -/
inductive ExecutionError
  | gas (e : GasError)
  | memory (e : MemoryError)
  | typeError (expected found : String)
  | callDepthExceeded (depth : ℕ)
  | resourceError (message : String)
  | revert (message : String)
  | halt
  | internal (message : String)
deriving DecidableEq

/-- The deepest call. -/
def MAX_CALL_DEPTH : ℕ := 1024

/-! ## Resources -/

/-- A live resource. -/
structure ResourceInfo where
  typeName : String
  /-- The index of a frame. -/
  owner : ℕ
  createdAt : ℕ

/-- A borrow of a resource. -/
structure BorrowInfo where
  resourceId : ℕ
  isMutable : Bool
  /-- The index of a frame. -/
  borrower : ℕ

/-- **The tracker of linear resources.** -/
structure ResourceTracker where
  resources : AList (fun _ : ℕ => ResourceInfo)
  borrows : AList (fun _ : ℕ => BorrowInfo)
  nextId : ℕ

namespace ResourceTracker

/-- No resource. -/
def new : ResourceTracker := ⟨∅, ∅, 0⟩

variable (t : ResourceTracker) (id : ℕ)

/-- Whether some borrow of the resource is outstanding. -/
def isBorrowed : Bool :=
  t.borrows.entries.any (fun entry => entry.2.resourceId = id)

/-- A resource comes to be. -/
def create (typeName : String) (owner pc : ℕ) : ℕ × ResourceTracker :=
  (t.nextId,
    { t with
      nextId := t.nextId + 1
      resources := t.resources.insert t.nextId ⟨typeName, owner, pc⟩ })

/-- A resource that is not borrowed ends. -/
def destroy (t : ResourceTracker) (id : ℕ) : Except ExecutionError ResourceTracker :=
  if t.isBorrowed id then .error (.resourceError "cannot destroy borrowed resource")
  else .ok { t with resources := t.resources.erase id }

/-- A borrow that excludes a new one. -/
def conflicts (isMutable : Bool) : Bool :=
  t.borrows.entries.any
    (fun entry => entry.2.resourceId = id && (isMutable || entry.2.isMutable))

/-- Borrows; a mutable borrow is alone. -/
def borrow (t : ResourceTracker) (id borrower : ℕ) (isMutable : Bool) :
    Except ExecutionError ResourceTracker :=
  if id ∉ t.resources then .error (.resourceError "resource does not exist")
  else if t.conflicts id isMutable then .error (.resourceError "conflicting borrow")
  else .ok { t with borrows := t.borrows.insert id ⟨id, isMutable, borrower⟩ }

/-- Changes the owner. -/
def transfer (t : ResourceTracker) (id newOwner : ℕ) : Except ExecutionError ResourceTracker :=
  if t.isBorrowed id then .error (.resourceError "cannot transfer borrowed resource")
  else
    match t.resources.lookup id with
    | some resource =>
      .ok { t with resources := t.resources.insert id { resource with owner := newOwner } }
    | none => .error (.resourceError "resource does not exist")

/-- `check_frame_exit`: a frame leaves no resource of its own behind. -/
def checkFrameExit (frameIndex : ℕ) : Except ExecutionError Unit :=
  match t.resources.entries.find? (fun entry => entry.2.owner = frameIndex) with
  | some entry =>
    .error (.resourceError ("resource " ++ toString entry.1 ++ " leaked on frame exit"))
  | none => .ok ()

end ResourceTracker

/-! ## The state -/

/-- The context of an execution; the call data is read by no instruction. -/
structure ExecutionContext where
  address : Address
  caller : Address
  value : U256
  origin : Address
  gasPrice : U256
  blockNumber : ℕ
  timestamp : ℕ
  coinbase : Address
  difficulty : U256
  gasLimit : ℕ
  chainId : ℕ
  isStatic : Bool

/-- A log entry. -/
structure Log where
  address : Address
  topics : List H256
  data : Bytes
deriving DecidableEq

/-- The data of a result. -/
structure ExecutionOutput where
  data : Bytes
  value : Option Value
  gasUsed : ℕ
  gasRefund : ℤ
  logs : List Log
  storageChanges : List (H256 × H256)
  success : Bool

/-- **An executor.** The current frame is the first one. -/
structure Executor where
  stack : Stack
  memory : Memory
  storage : Storage
  frames : List CallFrame
  gas : GasMeter
  context : ExecutionContext
  logs : List Log
  returnData : Bytes
  resources : ResourceTracker

/-- How an instruction goes on. -/
inductive ControlFlow
  | next
  | jump (target : ℕ)
  | ret
  | halt
  | revert (message : String)

/-- An action on an executor. -/
abbrev Instr (α : Type) : Type := Act Executor ExecutionError α

namespace Executor

/-! ## Parts of instructions -/

/-- Fails with an error. -/
def fail {α : Type} (e : ExecutionError) : Instr α := fun s => (.err e, s)

/-- A value that may be an error. -/
def ofExcept {ε α : Type} (wrapError : ε → ExecutionError) : Except ε α → Instr α
  | .ok a => pure a
  | .error e => fail (wrapError e)

/-- A value that may be an error of the executor itself. -/
def ofResult {α : Type} : Except ExecutionError α → Instr α := ofExcept (fun e => e)

/-- A value of the memory that may be an error or a panic. -/
def ofMemory {α : Type} (r : Except MemoryError (Option α)) : Instr α := do
  orPanic (← ofExcept .memory r)

/-- `stack.push`. -/
def push (value : Value) : Instr Unit := do
  let stack ← ofExcept .memory ((← get).stack.push value)
  modify (fun s => { s with stack := stack })

/-- `stack.pop`. -/
def pop : Instr Value := do
  let (value, stack) ← ofExcept .memory (← get).stack.pop
  modify (fun s => { s with stack := stack })
  return value

/-- A call of the gas meter. -/
def charge (f : GasMeter → Except GasError Unit × GasMeter) : Instr Unit := fun s =>
  match f s.gas with
  | (.ok (), m) => (.ok (), { s with gas := m })
  | (.error e, m) => (.err (.gas e), { s with gas := m })

/-- The top value, as what it is expected to be. -/
def popAs {α : Type} (parse : Value → Option α) (expected : String) : Instr α := do
  let value ← pop
  match parse value with
  | some a => return a
  | none => fail (.typeError expected value.typeName)

/-- Pops a number. -/
def popU256 : Instr U256 := popAs Value.asU256 "u256"

/-- Pops a condition. -/
def popBool : Instr Bool := popAs Value.asBool "bool"

/-- Pops a word of bytes. -/
def popH256 : Instr H256 := popAs Value.asH256 "bytes32"

/-- `pop_u256()?.as_usize()`. -/
def popUsize : Instr ℕ := do
  orPanic (← popU256).asUsize

/-- The frame that runs. -/
def currentFrame : Instr CallFrame := do
  match (← get).frames with
  | frame :: _ => return frame
  | [] => fail (.internal "no frame")

/-- Replaces the current frame. -/
def setCurrentFrame (frame : CallFrame) : Instr Unit :=
  modify (fun s => { s with frames := frame :: s.frames.tail })

/-- The index of the current frame. -/
def frameIndex (s : Executor) : ℕ := s.frames.length - 1

/-- `frames.len() - 1`, which underflows without a frame. -/
def lastIndex : Instr ℕ := do
  let s ← get
  if s.frames.isEmpty then orPanic none else return s.frameIndex

variable (instr : Instruction)

/-- `decode_push_value`: a panic on more than 32 bytes. -/
def decodePushValue : Instr Value :=
  match instr.operand with
  | some operand =>
    if operand.length ≤ 32 then return .u256 (.fromBeBytes operand) else orPanic none
  | none => return .zero

/-- An operand of two bytes. -/
def decodeU16 : ℕ :=
  match instr.operand with
  | some (hi :: lo :: _) => hi.toNat * 256 + lo.toNat
  | _ => 0

/-- The operand of an instruction as text, if it is valid. -/
def decodeText : Option String :=
  match instr.operand with
  | some operand => String.fromUTF8? ⟨operand.toArray⟩
  | none => some ""

/-- An operand that is text. -/
def decodeString : Instr String :=
  match decodeText instr with
  | some text => return text
  | none => fail (.internal "invalid string")

/-- The top two values are replaced by one; the upper one is the second
operand. -/
def binary {α : Type} (operand : Instr α) (f : α → α → Value) : Instr ControlFlow := do
  let b ← operand
  let a ← operand
  push (f a b)
  return .next

/-- The top value is replaced. -/
def unary {α : Type} (operand : Instr α) (f : α → Value) : Instr ControlFlow := do
  let a ← operand
  push (f a)
  return .next

/-- Pushes something of the executor. -/
def pushOf (f : Executor → Value) : Instr ControlFlow := do
  push (f (← get))
  return .next

/-- Pops `n` topics, the last one first. -/
def popTopics : ℕ → Instr (List H256)
  | 0 => pure []
  | n + 1 => do
    let topic ← popH256
    let topics ← popTopics n
    return topics ++ [topic]

/-- `emit_log`, after the check for static calls. -/
def emitLog (topicCount : ℕ) : Instr ControlFlow := do
  if (← get).context.isStatic then
    fail (.resourceError "cannot emit log in static call")
  else do
    let size ← popUsize
    let offset ← popUsize
    let topics ← popTopics topicCount
    let data ← ofMemory ((← get).memory.read offset size)
    modify (fun s => { s with logs := s.logs ++ [⟨s.context.address, topics, data⟩] })
    return .next

/-! ## Instructions -/

section Instructions

variable (blake3 : Bytes → H256) (code : List Instruction) (s : Executor) (instr : Instruction)

/-- `Push`. -/
def executePush : Instr ControlFlow := do
  push (← decodePushValue instr)
  return .next

/-- `Pop`. -/
def executePop : Instr ControlFlow := do
  let _ ← pop
  return .next

/-- `Dup` and `Swap`: a method of the stack. -/
def onStack (f : Stack → Except MemoryError Stack) : Instr ControlFlow := do
  let stack ← ofExcept .memory (f (← get).stack)
  modify (fun s => { s with stack := stack })
  return .next

/-- `Load`. -/
def executeLoad : Instr ControlFlow := do
  let offset ← popUsize
  push (.u256 (← ofMemory ((← get).memory.readU256 offset)))
  return .next

/-- `Store`. -/
def executeStore : Instr ControlFlow := do
  let value ← popU256
  let offset ← popUsize
  let memory ← ofMemory ((← get).memory.writeU256 offset value)
  modify (fun s => { s with memory := memory })
  return .next

/-- `LoadLocal`. -/
def executeLoadLocal (index : ℕ) : Instr ControlFlow := do
  push (← ofExcept .memory ((← currentFrame).getLocal index))
  return .next

/-- `StoreLocal`. -/
def executeStoreLocal (index : ℕ) : Instr ControlFlow := do
  let value ← pop
  setCurrentFrame (← ofExcept .memory ((← currentFrame).setLocal index value))
  return .next

/-- `SLoad`. -/
def executeSload : Instr ControlFlow := do
  let key ← popH256
  charge (fun m => m.consumeSload key)
  push (.u256 ((← get).storage.load key).word)
  return .next

/-- `SStore`. -/
def executeSstore : Instr ControlFlow := do
  if (← get).context.isStatic then
    fail (.resourceError "cannot write storage in static call")
  else do
    let value ← popU256
    let key ← popH256
    let storage := (← get).storage
    charge (fun m => m.consumeSstore key (storage.originalValue key).isZero
      (storage.load key).isZero value.isZero)
    modify (fun s => { s with storage := s.storage.store key ⟨value⟩ })
    return .next

/-- `JumpIf`, and `JumpIfNot` for the other truth value. -/
def executeJumpIf (truth : Bool) (target : ℕ) : Instr ControlFlow := do
  let cond ← pop
  return if cond.isTruthy = truth then .jump target else .next

/-- `Call`: of an internal function, which only checks the depth. -/
def executeCall : Instr ControlFlow := do
  let _ ← decodeString instr
  if MAX_CALL_DEPTH ≤ (← get).frames.length then fail (.callDepthExceeded MAX_CALL_DEPTH)
  else return .next

/-- `Return`. -/
def executeReturn : Instr ControlFlow := do
  let frameIndex ← lastIndex
  ofResult ((← get).resources.checkFrameExit frameIndex)
  return .ret

/-- `Keccak256`. -/
def executeKeccak256 : Instr ControlFlow := do
  let size ← popUsize
  let offset ← popUsize
  let data ← ofMemory ((← get).memory.read offset size)
  push (.bytes32 (blake3 data))
  return .next

/-- `ResourceCreate`. -/
def executeResourceCreate : Instr ControlFlow := do
  let typeName ← decodeString instr
  let frameIndex ← lastIndex
  let pc := (← currentFrame).pc
  let (id, resources) := (← get).resources.create typeName frameIndex pc
  modify (fun s => { s with resources := resources })
  push (.resource typeName [] id)
  return .next

/-- `ResourceDestroy`. -/
def executeResourceDestroy : Instr ControlFlow := do
  match ← pop with
  | .resource _ _ id =>
    let resources ← ofResult ((← get).resources.destroy id)
    modify (fun s => { s with resources := resources })
    return .next
  | value => fail (.typeError "resource" value.typeName)

/-- `ResourceMove`: to the current frame. -/
def executeResourceMove : Instr ControlFlow := do
  match ← pop with
  | .resource name fields id =>
    let newOwner ← lastIndex
    let resources ← ofResult ((← get).resources.transfer id newOwner)
    modify (fun s => { s with resources := resources })
    push (.resource name fields id)
    return .next
  | value => fail (.typeError "resource" value.typeName)

/-- `ResourceBorrow` and `ResourceBorrowMut`: nothing happens if the top is
another value. -/
def executeResourceBorrow (isMutable : Bool) : Instr ControlFlow := do
  match ← ofExcept .memory (← get).stack.peek with
  | .resource _ _ id =>
    let borrower ← lastIndex
    let resources ← ofResult ((← get).resources.borrow id borrower isMutable)
    modify (fun s => { s with resources := resources })
    return .next
  | _ => return .next

/-- **Executes an instruction.** -/
def executeInstruction : Instr ControlFlow :=
  match instr.opcode with
  | .push => executePush instr
  | .pop => executePop
  | .dup => onStack Stack.dup
  | .swap => onStack Stack.swap
  | .add => binary popU256 (fun a b => .u256 (a.overflowingAdd b))
  | .sub => binary popU256 (fun a b => .u256 (a.overflowingSub b))
  | .mul => binary popU256 (fun a b => .u256 (a.overflowingMul b))
  | .div => binary popU256 (fun a b => if b.isZero then .zero else .u256 (.wrap (a.val / b.val)))
  | .mod => binary popU256 (fun a b => if b.isZero then .zero else .u256 (.wrap (a.val % b.val)))
  | .pow => binary popU256 (fun a b => .u256 (a.powU256 b))
  | .neg => unary popU256 (fun a => .u256 (U256.zero.overflowingSub a))
  | .eq => binary pop (fun a b => .bool (a.beq b))
  | .ne => binary pop (fun a b => .bool !(a.beq b))
  | .lt => binary popU256 (fun a b => .bool (a.val < b.val))
  | .le => binary popU256 (fun a b => .bool (a.val ≤ b.val))
  | .gt => binary popU256 (fun a b => .bool (a.val > b.val))
  | .ge => binary popU256 (fun a b => .bool (a.val ≥ b.val))
  | .and => binary popBool (fun a b => .bool (a && b))
  | .or => binary popBool (fun a b => .bool (a || b))
  | .not => unary popBool (fun a => .bool !a)
  | .bitAnd => binary popU256 (fun a b => .u256 (.wrap (a.val &&& b.val)))
  | .bitOr => binary popU256 (fun a b => .u256 (.wrap (a.val ||| b.val)))
  | .bitXor => binary popU256 (fun a b => .u256 (.wrap (a.val ^^^ b.val)))
  | .bitNot => unary popU256 (fun a => .u256 (.wrap (u256Size - 1 - a.val)))
  | .shl => binary popU256 (fun a shift =>
    if 256 ≤ shift.val then .zero else .u256 (.wrap (a.val <<< shift.val)))
  | .shr => binary popU256 (fun a shift =>
    if 256 ≤ shift.val then .zero else .u256 (.wrap (a.val >>> shift.val)))
  | .load => executeLoad
  | .store => executeStore
  | .loadLocal => executeLoadLocal (decodeU16 instr)
  | .storeLocal => executeStoreLocal (decodeU16 instr)
  | .sLoad => executeSload
  | .sStore => executeSstore
  | .jump => return .jump (decodeU16 instr)
  | .jumpIf => executeJumpIf true (decodeU16 instr)
  | .jumpIfNot => executeJumpIf false (decodeU16 instr)
  | .call => executeCall instr
  | .ret => executeReturn
  | .revert => return .revert "execution reverted"
  | .halt => return .halt
  | .address => pushOf (fun s => .address s.context.address)
  | .balance => pushOf (fun _ => .zero)
  | .caller => pushOf (fun s => .address s.context.caller)
  | .callValue => pushOf (fun s => .u256 s.context.value)
  | .origin => pushOf (fun s => .address s.context.origin)
  | .gasPrice => pushOf (fun s => .u256 s.context.gasPrice)
  | .blockHash => pushOf (fun _ => .bytes32 .zero)
  | .coinbase => pushOf (fun s => .address s.context.coinbase)
  | .timestamp => pushOf (fun s => .fromU64 s.context.timestamp)
  | .blockNumber => pushOf (fun s => .fromU64 s.context.blockNumber)
  | .difficulty => pushOf (fun s => .u256 s.context.difficulty)
  | .gasLimit => pushOf (fun s => .fromU64 s.context.gasLimit)
  | .chainId => pushOf (fun s => .fromU64 s.context.chainId)
  | .selfBalance => pushOf (fun _ => .zero)
  | .gas => pushOf (fun s => .fromU64 s.gas.remaining)
  | .log0 => emitLog 0
  | .log1 => emitLog 1
  | .log2 => emitLog 2
  | .log3 => emitLog 3
  | .log4 => emitLog 4
  | .keccak256 => executeKeccak256 blake3
  | .resourceCreate => executeResourceCreate instr
  | .resourceDestroy => executeResourceDestroy
  | .resourceMove => executeResourceMove
  | .resourceBorrow => executeResourceBorrow false
  | .resourceBorrowMut => executeResourceBorrow true
  | .resourceCopy => fail (.resourceError "resource copy requires Copy ability")
  | .parallelStart | .parallelEnd | .stateRead | .stateWrite => return .next
  | .externalCall | .staticCall | .delegateCall => pushOf (fun _ => .bool true)
  | .create | .create2 => pushOf (fun _ => .address Address.zero)
  | .sha256 | .ripemd160 | .ecrecover => pushOf (fun _ => .bytes32 .zero)
  | .nop => return .next

/-! ## The loop -/

/-- What the loop does after an instruction. -/
def follow : ControlFlow → Instr Unit
  | .next => pure ()
  | .jump target => modify (fun s =>
    match s.frames with
    | frame :: rest => { s with frames := { frame with pc := target } :: rest }
    | [] => s)
  | .ret => modify (fun s => { s with frames := s.frames.tail })
  | .halt => fail .halt
  | .revert message => fail (.revert message)

/-- A jump moves the current frame, if there is one. -/
theorem follow_jump (target : ℕ) (s : Executor) :
    follow (.jump target) s = (.ok (),
      { s with frames := s.frames.modifyHead (fun frame => { frame with pc := target }) }) := by
  rcases s with ⟨_, _, _, _ | ⟨frame, rest⟩⟩ <;> rfl

/-- One round of the loop of `run`, and whether there is another one. A frame
at the end of the code returns. -/
def step : Instr Bool := do
  match (← get).frames with
  | [] => return false
  | frame :: rest =>
    if code.length ≤ frame.pc then do
      modify (fun s => { s with frames := rest })
      return true
    else do
      let instr ← orPanic code[frame.pc]?
      setCurrentFrame { frame with pc := frame.pc + 1 }
      charge (fun m => m.consumeOpcode instr.opcode)
      follow (← executeInstruction blake3 instr)
      return true

/-- `run`, for at most so many rounds; nothing if it has not ended by then. -/
def runFor (code : List Instruction) : ℕ → Executor → Option (Outcome ExecutionError Unit × Executor)
  | 0, _ => none
  | fuel + 1, s =>
    match step blake3 code s with
    | (.ok true, s') => runFor code fuel s'
    | (.ok false, s') => some (.ok (), s')
    | (.err e, s') => some (.err e, s')
    | (.panic, s') => some (.panic, s')

/-- What `execute` collects after a run: the top of the stack is taken. -/
def collect (success : Bool) (s : Executor) : ExecutionOutput × Executor :=
  let output : ExecutionOutput :=
    { data := s.returnData
      value := s.stack.values.head?
      gasUsed := s.gas.used
      gasRefund := s.gas.refund
      logs := s.logs
      storageChanges := s.storage.getModified
      success := success }
  (output, { s with stack := s.stack.tail })

/-- `execute`, after the run. A halt is not a success. -/
def finish : Outcome ExecutionError Unit × Executor → Outcome ExecutionError ExecutionOutput × Executor
  | (.ok (), s) => (.ok (s.collect true).1, (s.collect true).2)
  | (.err .halt, s) => (.ok (s.collect false).1, (s.collect false).2)
  | (.err (.revert _), s) => (.ok (s.collect false).1, (s.collect false).2)
  | (.err e, s) => (.err e, (s.collect false).2)
  | (.panic, s) => (.panic, s)

/-- The executor with a new frame. -/
def enter : Executor := { s with frames := .new :: s.frames }

/-- `execute`, for at most so many rounds. -/
def executeFor (fuel : ℕ) (s : Executor) :
    Option (Outcome ExecutionError ExecutionOutput × Executor) :=
  (runFor blake3 code fuel s.enter).map finish

/-- **`execute` ends** with a result, and leaves an executor. -/
def Executes (result : Outcome ExecutionError ExecutionOutput) (s' : Executor) : Prop :=
  ∃ fuel, executeFor blake3 code fuel s = some (result, s')

end Instructions

/-- `new`, with a context. -/
def new (limit : ℕ) (h : limit < 2 ^ 64) (context : ExecutionContext) : Executor where
  stack := .new
  memory := .new
  storage := .new
  frames := []
  gas := .new limit h
  context := context
  logs := []
  returnData := []
  resources := .new

theorem limit_fits : 100000 < 2 ^ 64 := by decide

end Executor

end Qfc.Qvm
