import QfcCore.Lib.Ssa
import QfcCore.Qvm.Executor

/-!
# The compiler to native code

`qfc-qvm/src/jit/codegen.rs` and `compiler.rs`. Every instruction of the machine gets a
block of its own. The stack and the local variables exist while code is generated only:
they hold the names of values. A call returns a 64-bit number.

What Cranelift does with a function is its own: its verifier may refuse the function,
and the code has some size (`Cranelift`). The instructions used here have their
documented meaning on 64-bit words. Sealing of blocks is left out, as it only concerns
variables, which the generator does not use; so are the statistics.
-/

namespace Qfc.Qvm.Jit

open Ssa (Block Builder Terminator Config)

/-! ## Cranelift -/

/-- `IntCC`, as far as it is used. -/
inductive IntCC
  | equal | notEqual | unsignedLessThan | unsignedLessThanOrEqual | unsignedGreaterThan
  | unsignedGreaterThanOrEqual
deriving DecidableEq

/-- What a condition tests. -/
def IntCC.holds : IntCC → BitVec 64 → BitVec 64 → Bool
  | .equal, a, b => a = b
  | .notEqual, a, b => a ≠ b
  | .unsignedLessThan, a, b => a < b
  | .unsignedLessThanOrEqual, a, b => a ≤ b
  | .unsignedGreaterThan, a, b => a > b
  | .unsignedGreaterThanOrEqual, a, b => a ≥ b

/-- **The instructions** that are generated. -/
inductive Inst
  | iconst (n : BitVec 64)
  | iadd (a b : ℕ) | isub (a b : ℕ) | imul (a b : ℕ) | udiv (a b : ℕ) | urem (a b : ℕ)
  | ineg (a : ℕ)
  | icmp (cc : IntCC) (a b : ℕ)
  | uextend (a : ℕ)
  | band (a b : ℕ) | bor (a b : ℕ) | bxor (a b : ℕ) | bnot (a : ℕ)
  | ishl (a b : ℕ) | ushr (a b : ℕ)
deriving DecidableEq

/-- What an instruction computes. Divisions by zero trap, and shifts use the lower six
bits of their second operand. -/
def Inst.eval : Inst → (ℕ → BitVec 64) → Option (BitVec 64)
  | .iconst n, _ => some n
  | .iadd a b, env => some (env a + env b)
  | .isub a b, env => some (env a - env b)
  | .imul a b, env => some (env a * env b)
  | .udiv a b, env => if env b = 0 then none else some (env a / env b)
  | .urem a b, env => if env b = 0 then none else some (env a % env b)
  | .ineg a, env => some (-env a)
  | .icmp cc a b, env => some (if cc.holds (env a) (env b) then 1 else 0)
  | .uextend a, env => some (env a)
  | .band a b, env => some (env a &&& env b)
  | .bor a b, env => some (env a ||| env b)
  | .bxor a b, env => some (env a ^^^ env b)
  | .bnot a, env => some (~~~env a)
  | .ishl a b, env => some (env a <<< ((env b).toNat % 64))
  | .ushr a b, env => some (env a >>> ((env b).toNat % 64))

/-- Whether a branch is taken. -/
def taken (w : BitVec 64) : Bool := w ≠ 0

/-- One step of generated code. -/
abbrev next (body : List (Block Inst)) : Config (BitVec 64) → Config (BitVec 64) :=
  Ssa.next Inst.eval taken body

/-! ## The state of the generator -/

/-- `JitError`, as far as it is raised. -/
inductive JitError
  | unsupportedOpcode (opcode : Opcode)
  | invalidBytecode (message : String)
  | executionError (message : String)
  | craneliftError (message : String)
deriving DecidableEq

/-- The deepest stack. -/
def MAX_STACK_DEPTH : ℕ := 1024

/-- `CodeGenerator`, with the builder of the function. The top of the stack is first. -/
structure CodeGenerator where
  boundsCheck : Bool
  stack : List ℕ
  locals : List ℕ
  blockTerminated : Bool
  builder : Builder Inst

/-- An action of the generator. -/
abbrev Gen (α : Type) : Type := Act CodeGenerator JitError α

namespace Gen

/-- Fails with an error. -/
def fail {α : Type} (e : JitError) : Gen α := fun g => (.err e, g)

/-- Pushes a value at compile time. -/
def push (value : ℕ) : Gen Unit := fun g =>
  if g.boundsCheck ∧ MAX_STACK_DEPTH ≤ g.stack.length then
    (.err (.executionError "stack overflow"), g)
  else (.ok (), { g with stack := value :: g.stack })

/-- Pops a value at compile time. -/
def pop : Gen ℕ := fun g =>
  match g.stack with
  | value :: rest => (.ok value, { g with stack := rest })
  | [] => (.err (.executionError "stack underflow"), g)

/-- The value on top. -/
def peek : Gen ℕ := fun g =>
  match g.stack with
  | value :: _ => (.ok value, g)
  | [] => (.err (.executionError "stack underflow"), g)

/-- Emits an instruction, and names its value. -/
def ins (inst : Inst) : Gen ℕ := fun g =>
  (.ok g.builder.nextValue, { g with builder := g.builder.ins inst })

/-- Ends the current block. -/
def terminate (t : Terminator) : Gen Unit := Act.modify (fun g =>
  { g with builder := g.builder.terminate t })

/-- Notes that the current block has ended, or that a new one has begun. -/
def setTerminated (terminated : Bool) : Gen Unit := Act.modify (fun g =>
  { g with blockTerminated := terminated })

/-- A new block. -/
def createBlock : Gen ℕ := fun g =>
  (.ok g.builder.blocks.length, { g with builder := g.builder.createBlock })

/-- Code goes to this block from now on. -/
def switchToBlock (block : ℕ) : Gen Unit := Act.modify (fun g =>
  { g with builder := g.builder.switchTo block })

end Gen

open Gen

/-! ## Operands -/

/-- A number in little endian. -/
def fromLeBytes : Bytes → ℕ
  | [] => 0
  | b :: bytes => b.toNat + 256 * fromLeBytes bytes

/-- The first bytes of the operand, in little endian. -/
def readOperand (width : ℕ) (instruction : Instruction) : Except JitError ℕ :=
  match instruction.operand with
  | none => .error (.invalidBytecode "missing operand")
  | some operand =>
    if operand.length < width then .error (.invalidBytecode "operand too short")
    else .ok (fromLeBytes (operand.take width))

/-- An operand of eight bytes. -/
def readOperandU64 : Instruction → Except JitError ℕ := readOperand 8

/-- An operand of two bytes. -/
def readOperandU16 : Instruction → Except JitError ℕ := readOperand 2

/-- A value that may be an error. -/
def ofResult {α : Type} : Except JitError α → Gen α
  | .ok a => pure a
  | .error e => fail e

/-! ## Instructions -/

/-- The top two values are replaced; the upper one is the second operand. -/
def binary (inst : ℕ → ℕ → Inst) : Gen Unit := do
  let b ← pop
  let a ← pop
  push (← ins (inst a b))

/-- The top value is replaced. -/
def unary (inst : ℕ → Inst) : Gen Unit := do
  let a ← pop
  push (← ins (inst a))

/-- A comparison of the top two values. -/
def compare (cc : IntCC) : Gen Unit := do
  let b ← pop
  let a ← pop
  let cmp ← ins (.icmp cc a b)
  push (← ins (.uextend cmp))

/-- `Not`. -/
def generateNot : Gen Unit := do
  let a ← pop
  let z ← ins (.iconst 0)
  let cmp ← ins (.icmp .equal a z)
  push (← ins (.uextend cmp))

/-- `call_runtime`: a dummy value. -/
def callRuntime : Gen ℕ := ins (.iconst 0)

/-- An instruction that only asks the runtime. -/
def generateContext : Gen Unit := do
  push (← callRuntime)

/-- The error for a local that is not there. -/
def localOutOfBounds (idx : ℕ) : JitError :=
  .invalidBytecode ("local index " ++ toString idx ++ " out of bounds")

/-- `LoadLocal`. -/
def generateLoadLocal (idx : ℕ) : Gen Unit := do
  match (← Act.get).locals[idx]? with
  | some val => push val
  | none => fail (localOutOfBounds idx)

/-- `StoreLocal`. -/
def generateStoreLocal (idx : ℕ) : Gen Unit := do
  let val ← pop
  if idx < (← Act.get).locals.length then
    Act.modify (fun g => { g with locals := g.locals.set idx val })
  else fail (localOutOfBounds idx)

/-- `Jump`: ignored if there is no such block. -/
def generateJump (blocks target : ℕ) : Gen Unit := do
  if target < blocks then
    terminate (.jump target)
    setTerminated true
  else pure ()

/-- `JumpIf`, and `JumpIfNot` for equality: ignored if there is no such block. -/
def generateJumpIf (blocks : ℕ) (cc : IntCC) (target : ℕ) : Gen Unit := do
  let cond ← pop
  if target < blocks then
    let z ← ins (.iconst 0)
    let cmp ← ins (.icmp cc cond z)
    let nextBlock ← createBlock
    terminate (.brif cmp target nextBlock)
    switchToBlock nextBlock
  else pure ()

/-- What `Return` returns: zero if there is nothing on the stack. -/
def returnValue : Gen ℕ := do
  if (← Act.get).stack.isEmpty then ins (.iconst 0) else pop

/-- `Return`. -/
def generateReturn : Gen Unit := do
  let result ← returnValue
  terminate (.ret result)
  setTerminated true

/-- `generate_instruction`, in a function with so many blocks. -/
def generateInstruction (blocks : ℕ) (instruction : Instruction) : Gen Unit :=
  match instruction.opcode with
  | .push => do
    let value ← ofResult (readOperandU64 instruction)
    push (← ins (.iconst (.ofNat 64 value)))
  | .pop => do
    let _ ← pop
    return ()
  | .dup => do push (← peek)
  | .swap => do
    let a ← pop
    let b ← pop
    push a
    push b
  | .add => binary .iadd
  | .sub => binary .isub
  | .mul => binary .imul
  | .div => binary .udiv
  | .mod => binary .urem
  | .neg => unary .ineg
  | .eq => compare .equal
  | .ne => compare .notEqual
  | .lt => compare .unsignedLessThan
  | .le => compare .unsignedLessThanOrEqual
  | .gt => compare .unsignedGreaterThan
  | .ge => compare .unsignedGreaterThanOrEqual
  | .and => binary .band
  | .or => binary .bor
  | .not => generateNot
  | .bitAnd => binary .band
  | .bitOr => binary .bor
  | .bitXor => binary .bxor
  | .bitNot => unary .bnot
  | .shl => binary .ishl
  | .shr => binary .ushr
  | .loadLocal => do generateLoadLocal (← ofResult (readOperandU16 instruction))
  | .storeLocal => do generateStoreLocal (← ofResult (readOperandU16 instruction))
  | .jump => do generateJump blocks (← ofResult (readOperandU16 instruction))
  | .jumpIf => do generateJumpIf blocks .notEqual (← ofResult (readOperandU16 instruction))
  | .jumpIfNot => do generateJumpIf blocks .equal (← ofResult (readOperandU16 instruction))
  | .ret => generateReturn
  | .sLoad => do
    let _ ← pop
    push (← callRuntime)
  | .sStore => do
    let _ ← pop
    let _ ← pop
    let _ ← callRuntime
    return ()
  | .caller | .callValue | .address | .blockNumber | .timestamp | .gas => generateContext
  | .halt | .nop => return ()
  | opcode => fail (.unsupportedOpcode opcode)

/-! ## Functions -/

/-- The beginning of the block of an instruction. -/
def enterBlock (i : ℕ) : Gen Unit := do
  if 0 < i then
    if !(← Act.get).blockTerminated then terminate (.jump i) else pure ()
    switchToBlock i
    setTerminated false
  else pure ()

/-- The loop over the instructions, from the `i`-th one on. -/
def generateFrom (blocks : ℕ) : ℕ → List Instruction → Gen Unit
  | _, [] => pure ()
  | i, instruction :: rest => do
    enterBlock i
    generateInstruction blocks instruction
    generateFrom blocks (i + 1) rest

/-- The end of the function: it returns zero. -/
def finish : Gen Unit := do
  if !(← Act.get).blockTerminated then
    let z ← ins (.iconst 0)
    terminate (.ret z)
  else pure ()

/-- The builder with local variables that are zero, and a block for every instruction.
The first value is the parameter of the function. -/
def entry (total blocks : ℕ) : Builder Inst :=
  let allocated := (fun b : Builder Inst => b.ins (.iconst 0))^[total] ⟨[.empty], 0, 1⟩
  Builder.createBlock^[blocks - 1] allocated

/-- The generator at the first instruction. -/
def start (total blocks : ℕ) (boundsCheck : Bool) : CodeGenerator where
  boundsCheck := boundsCheck
  stack := []
  locals := List.range' 1 total
  blockTerminated := false
  builder := entry total blocks

/-- The code of a function. -/
def generate (paramCount localCount : ℕ) (boundsCheck : Bool) (instructions : List Instruction) :
    Except JitError (List (Block Inst)) :=
  let blocks := max 1 instructions.length
  match (generateFrom blocks 0 instructions >>= fun _ => finish)
    (start (paramCount + localCount) blocks boundsCheck) with
  | (.ok (), g) => .ok g.builder.blocks
  | (.err e, _) => .error e
  | (.panic, _) => .error (.executionError "")

/-! ## The compiler -/

/-- **What is left to Cranelift**: which functions its verifier accepts, and how much
code it makes of them; and which key of a map comes first. -/
structure Cranelift where
  accepts : List (Block Inst) → Bool
  codeSize : List (Block Inst) → ℕ
  firstKey : List String → ℕ

/-- `JitConfig`, as far as it is read here. -/
structure JitConfig where
  boundsCheck : Bool
  maxCacheSize : ℕ

/-- `CompiledFunction`: the function that its pointer points to. -/
structure CompiledFunction where
  body : List (Block Inst)
  codeSize : ℕ
  name : String

/-- `execute`, for so many steps: the parameter is never read. -/
def CompiledFunction.execute (f : CompiledFunction) (steps : ℕ) : Config (BitVec 64) :=
  (next f.body)^[steps] (.running ⟨0, 0, fun _ => 0⟩)

/-- `JitCompiler`, with the names that its module has definitions for. -/
structure JitCompiler where
  config : JitConfig
  cache : AList (fun _ : String => CompiledFunction)
  cachedSize : ℕ
  defined : List String

namespace JitCompiler

/-- An empty cache. -/
def new (config : JitConfig) : JitCompiler := ⟨config, ∅, 0, []⟩

/-- Empties the cache. -/
def clearCache (c : JitCompiler) : JitCompiler := { c with cache := ∅, cachedSize := 0 }

/-- Removes the entry with the first key. -/
def evictOne (C : Cranelift) (c : JitCompiler) : JitCompiler :=
  match c.cache.keys[C.firstKey c.cache.keys % c.cache.keys.length]? with
  | some key =>
    match c.cache.lookup key with
    | some old =>
      { c with cache := c.cache.erase key, cachedSize := c.cachedSize - old.codeSize }
    | none => c
  | none => c

/-- The loop that evicts entries, for at most so many rounds. -/
def evict (C : Cranelift) (codeSize : ℕ) : ℕ → JitCompiler → JitCompiler
  | 0, c => c
  | rounds + 1, c =>
    if c.config.maxCacheSize < c.cachedSize + codeSize ∧ c.cache.keys ≠ [] then
      evict C codeSize rounds (c.evictOne C)
    else c

/-- Compiles, or finds in the cache. -/
def compile (C : Cranelift) (c : JitCompiler) (name : String) (instructions : List Instruction)
    (paramCount localCount : ℕ) : Except JitError CompiledFunction × JitCompiler :=
  match c.cache.lookup name with
  | some cached => (.ok cached, c)
  | none =>
    match generate paramCount localCount c.config.boundsCheck instructions with
    | .error e => (.error e, c)
    | .ok body =>
      if name ∈ c.defined then (.error (.craneliftError "define error: duplicate definition"), c)
      else if C.accepts body then
        let compiled : CompiledFunction := ⟨body, C.codeSize body, name⟩
        let c := evict C compiled.codeSize c.cache.keys.length c
        (.ok compiled,
          { c with
            cachedSize := c.cachedSize + compiled.codeSize
            cache := c.cache.insert name compiled
            defined := name :: c.defined })
      else (.error (.craneliftError "define error: verifier errors"), c)

end JitCompiler

end Qfc.Qvm.Jit
