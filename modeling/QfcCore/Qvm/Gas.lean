import QfcCore.Qvm.Memory

/-!
# Instructions and gas

The instruction set (`qfc-qsc/src/codegen/mod.rs`), the default gas costs and
the gas meter (`qfc-qvm/src/gas.rs`). An executor only ever has a meter with
the default costs. The warm accounts are left out: no instruction uses them.
-/

namespace Qfc.Qvm

/-! ## Instructions -/

/-- The instruction set. -/
inductive Opcode
  | push | pop | dup | swap
  | add | sub | mul | div | mod | pow | neg
  | eq | ne | lt | le | gt | ge
  | and | or | not
  | bitAnd | bitOr | bitXor | bitNot | shl | shr
  | load | store | loadLocal | storeLocal
  | sLoad | sStore
  | jump | jumpIf | jumpIfNot | call | ret | revert
  | address | balance | caller | callValue | origin | gasPrice | blockHash | coinbase | timestamp
  | blockNumber | difficulty | gasLimit | chainId | selfBalance | gas
  | externalCall | staticCall | delegateCall | create | create2
  | log0 | log1 | log2 | log3 | log4
  | keccak256 | sha256 | ripemd160 | ecrecover
  | resourceCreate | resourceDestroy | resourceMove | resourceCopy | resourceBorrow
  | resourceBorrowMut
  | parallelStart | parallelEnd | stateRead | stateWrite
  | nop | halt
deriving DecidableEq

/-- **An instruction.** -/
structure Instruction where
  opcode : Opcode
  operand : Option Bytes
deriving DecidableEq

namespace Instruction

/-- Without an operand. -/
def new (opcode : Opcode) : Instruction := ⟨opcode, none⟩

/-- With an operand. -/
def withOperand (opcode : Opcode) (operand : Bytes) : Instruction := ⟨opcode, some operand⟩

end Instruction

/-! ## Costs -/

/-- The gas costs that instructions refer to. -/
structure GasCosts where
  zero : ℕ
  base : ℕ
  veryLow : ℕ
  low : ℕ
  mid : ℕ
  high : ℕ
  memoryWord : ℕ
  sloadCold : ℕ
  sloadWarm : ℕ
  sstoreSet : ℕ
  sstoreReset : ℕ
  sstoreClearRefund : ℕ
  callBase : ℕ
  create : ℕ
  ecrecover : ℕ
  log : ℕ
  logTopic : ℕ
  resourceCreate : ℕ
  resourceDestroy : ℕ
  resourceMove : ℕ
  resourceBorrow : ℕ
  parallelHint : ℕ

/-- The default costs. -/
def GasCosts.default : GasCosts where
  zero := 0
  base := 2
  veryLow := 3
  low := 5
  mid := 8
  high := 10
  memoryWord := 3
  sloadCold := 2100
  sloadWarm := 100
  sstoreSet := 20000
  sstoreReset := 2900
  sstoreClearRefund := 4800
  callBase := 100
  create := 32000
  ecrecover := 3000
  log := 375
  logTopic := 375
  resourceCreate := 100
  resourceDestroy := 50
  resourceMove := 20
  resourceBorrow := 10
  parallelHint := 5

namespace GasCosts

/-- The price of an opcode. -/
def opcodeCost (c : GasCosts) : Opcode → ℕ
  | .nop => c.zero
  | .pop | .dup | .swap => c.base
  | .add | .sub | .not | .lt | .gt | .eq | .and | .or | .bitAnd | .bitOr | .bitXor | .bitNot =>
    c.veryLow
  | .mul | .div | .mod | .shl | .shr | .ne | .le | .ge | .neg => c.low
  | .push | .loadLocal | .storeLocal => c.mid
  | .pow => c.high
  | .load | .store => c.memoryWord
  | .sLoad => c.sloadWarm
  | .sStore => c.sstoreReset
  | .jump | .jumpIf | .jumpIfNot => c.mid
  | .call => c.callBase
  | .ret => c.zero
  | .revert => c.zero
  | .halt => c.zero
  | .address | .caller | .callValue | .origin | .gasPrice | .coinbase | .timestamp | .blockNumber
  | .difficulty | .gasLimit | .chainId | .selfBalance | .gas => c.base
  | .balance | .blockHash => c.sloadWarm
  | .externalCall | .staticCall | .delegateCall => c.callBase
  | .create | .create2 => c.create
  | .log0 => c.log
  | .log1 => c.log + c.logTopic
  | .log2 => c.log + c.logTopic * 2
  | .log3 => c.log + c.logTopic * 3
  | .log4 => c.log + c.logTopic * 4
  | .keccak256 | .sha256 | .ripemd160 => c.mid
  | .ecrecover => c.ecrecover
  | .resourceCreate => c.resourceCreate
  | .resourceDestroy => c.resourceDestroy
  | .resourceMove => c.resourceMove
  | .resourceCopy => c.resourceMove * 2
  | .resourceBorrow | .resourceBorrowMut => c.resourceBorrow
  | .parallelStart | .parallelEnd | .stateRead | .stateWrite => c.parallelHint

/-- `sstore_cost`: the cost, and the refund. -/
def sstoreCost (c : GasCosts) (originalIsZero currentIsZero newIsZero : Bool) : ℕ × ℕ :=
  if originalIsZero then
    if newIsZero then (c.sloadWarm, 0) else (c.sstoreSet, 0)
  else if currentIsZero then
    if newIsZero then (c.sloadWarm, 0) else (c.sstoreSet, 0)
  else if newIsZero then (c.sstoreReset, c.sstoreClearRefund)
  else (c.sstoreReset, 0)

end GasCosts

/-! ## The meter -/

/-- `GasError`, as far as the meter raises it. -/
inductive GasError
  | outOfGas (required available : ℕ)
deriving DecidableEq

/-- **A gas meter**: what is used stays within the limit, a 64-bit number. -/
structure GasMeter where
  limit : ℕ
  used : ℕ
  refund : ℤ
  warmSlots : List H256
  limit_lt : limit < 2 ^ 64
  used_le : used ≤ limit

namespace GasMeter

/-- `new`, for a 64-bit limit. -/
def new (limit : ℕ) (h : limit < 2 ^ 64) : GasMeter := ⟨limit, 0, 0, [], h, Nat.zero_le _⟩

variable (m : GasMeter) (slot : H256)

/-- The gas left. -/
def remaining : ℕ := m.limit - m.used

/-- Uses gas if enough is left. -/
def consume (amount : ℕ) : Except GasError Unit × GasMeter :=
  if h : satAdd64 m.used amount ≤ m.limit then
    (.ok (), { m with used := satAdd64 m.used amount, used_le := h })
  else (.error (.outOfGas amount m.remaining), m)

/-- Pays for an opcode. -/
def consumeOpcode (opcode : Opcode) : Except GasError Unit × GasMeter :=
  m.consume (GasCosts.default.opcodeCost opcode)

/-- `add_refund`: saturates as a signed number. -/
def addRefund (amount : ℕ) : GasMeter :=
  { m with refund := max (-(2 ^ 63)) (min (m.refund + amount) (2 ^ 63 - 1)) }

/-- `warm_slot`: whether the slot was warm, and the meter in which it is. -/
def warmSlot : Bool × GasMeter :=
  if slot ∈ m.warmSlots then (true, m) else (false, { m with warmSlots := slot :: m.warmSlots })

/-- `consume_sload`: the slot is warm afterwards, also if the gas runs out. -/
def consumeSload : Except GasError Unit × GasMeter :=
  let (warm, m) := m.warmSlot slot
  m.consume (if warm then GasCosts.default.sloadWarm else GasCosts.default.sloadCold)

/-- Pays for a write to the storage. -/
def consumeSstore (originalIsZero currentIsZero newIsZero : Bool) :
    Except GasError Unit × GasMeter :=
  let (_, m) := m.warmSlot slot
  let (cost, refund) := GasCosts.default.sstoreCost originalIsZero currentIsZero newIsZero
  match m.consume cost with
  | (.ok (), m) => (.ok (), m.addRefund refund)
  | (.error e, m) => (.error e, m)

end GasMeter

end Qfc.Qvm
