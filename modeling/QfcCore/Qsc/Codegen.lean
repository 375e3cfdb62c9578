import QfcCore.Qsc.Ast
import QfcCore.Qsc.Literal
import QfcCore.Qvm.Gas
import QfcCore.Lib.Prog

/-!
# The code generator of QuantumScript

`Codegen` of `qfc-qsc/src/codegen/mod.rs`. A function of the generator is an
action on its state. The control-flow generators take the actions for their
parts, so that the recursion over the syntax tree is one block of definitions.

Jumps are emitted with the target zero and a label, and get their targets when
the function is complete. The selectors of functions, and the dispatcher made
of them, are left out: the dispatcher is a placeholder that nothing runs.
-/

namespace Qfc.Qsc

open Qvm (Opcode Instruction)
open Act

/-- `CodegenError`, as far as it is raised. -/
inductive CodegenError
  | undefinedSymbol (name : String)
  | unsupportedFeature (feature : String)
deriving DecidableEq

/-- The code of a function. -/
structure FunctionBytecode where
  name : String
  paramCount : ℕ
  localCount : ℕ
  code : List Instruction
  isPayable : Bool
  isView : Bool

/-- The code of a contract. -/
structure ContractBytecode where
  name : String
  functions : List FunctionBytecode
  storageLayout : List (String × ℕ)
  initCode : List Instruction

/-- A local variable. -/
structure LocalVar where
  index : ℕ
  isMutable : Bool
deriving DecidableEq

/-- A label, in the source the text `kind_number`. -/
structure Label where
  kind : String
  number : ℕ
deriving DecidableEq

/-- The labels that leave a loop and that go on with it. -/
structure LoopLabels where
  breakLabel : Label
  continueLabel : Label

/-- **The state of the generator.** -/
structure Codegen where
  instructions : List Instruction
  locals : String → Option LocalVar
  /-- A 16-bit number. -/
  localCount : ℕ
  storageSlots : AList (fun _ : String => ℕ)
  /-- A 32-bit number. -/
  nextStorageSlot : ℕ
  labelCounter : ℕ
  labels : Label → Option ℕ
  unresolvedJumps : List (ℕ × Label)
  loopStack : List LoopLabels

/-- Nothing is generated yet. -/
def Codegen.new : Codegen where
  instructions := []
  locals := fun _ => none
  localCount := 0
  storageSlots := ∅
  nextStorageSlot := 0
  labelCounter := 0
  labels := fun _ => none
  unresolvedJumps := []
  loopStack := []

/-- An action of the generator. -/
abbrev Gen (α : Type) : Type := Act Codegen CodegenError α

namespace Codegen

/-! ## Emitting instructions -/

/-- Fails with an error. -/
def fail {α : Type} (e : CodegenError) : Gen α := fun s => (.err e, s)

/-- Appends an instruction. -/
def emit (instruction : Instruction) : Gen Unit :=
  modify (fun s => { s with instructions := s.instructions ++ [instruction] })

variable (name : String) (opcode : Opcode) (label : Label)

/-- `emit`, of an instruction without operand. -/
def emitOp : Gen Unit := emit (.new opcode)

/-- `emit_push_u256`, of 32 bytes. -/
def emitPushU256 (value : Bytes) : Gen Unit := emit (.withOperand .push value)

/-- Pushes a 32-bit number. -/
def emitPushU32 (value : ℕ) : Gen Unit := emitPushU256 (padLeft (beBytes 4 value))

/-- Reads a variable. -/
def emitLoadLocal (index : ℕ) : Gen Unit := emit (.withOperand .loadLocal (beBytes 2 index))

/-- Writes a variable. -/
def emitStoreLocal (index : ℕ) : Gen Unit := emit (.withOperand .storeLocal (beBytes 2 index))

/-- A label no jump has. -/
def freshLabel (kind : String) : Gen Label := do
  let label : Label := ⟨kind, (← get).labelCounter⟩
  modify (fun s => { s with labelCounter := s.labelCounter + 1 })
  return label

/-- `set_label`: it is where the next instruction will be. -/
def setLabel : Gen Unit :=
  modify (fun s => { s with labels := Function.update s.labels label s.instructions.length })

/-- A jump whose target is not known yet. -/
def emitJumpTo : Gen Unit := do
  modify (fun s =>
    { s with unresolvedJumps := s.unresolvedJumps ++ [(s.instructions.length, label)] })
  emit (.withOperand opcode [0, 0])

/-- A jump. -/
def emitJump : Gen Unit := emitJumpTo .jump label

/-- A jump if the condition fails. -/
def emitJumpIfNot : Gen Unit := emitJumpTo .jumpIfNot label

/-- The instruction with its target, a 16-bit number, in place. -/
def patch (target : ℕ) (instruction : Instruction) : Instruction :=
  { instruction with
    operand := instruction.operand.map (fun bytes => beBytes 2 target ++ bytes.drop 2) }

/-- What one jump does in `resolve_jumps`. A label that was never set leaves
the jump alone. -/
def resolveJump (labels : Label → Option ℕ) (code : List Instruction) (jump : ℕ × Label) :
    List Instruction :=
  match labels jump.2 with
  | some target => code.modify jump.1 (patch target)
  | none => code

/-- Gives the jumps their targets. -/
def resolveJumps : Gen Unit :=
  modify (fun s =>
    { s with
      instructions := s.unresolvedJumps.foldl (resolveJump s.labels) s.instructions
      unresolvedJumps := [] })

/-- A new local variable with its index, a 16-bit number. -/
def newLocal : Gen ℕ := do
  let index := (← get).localCount
  modify (fun s => { s with localCount := (s.localCount + 1) % 2 ^ 16 })
  return index

/-- Binds a name to a local variable, in the one map of the function. -/
def bindLocal (index : ℕ) (isMutable : Bool) : Gen Unit :=
  modify (fun s =>
    { s with locals := Function.update s.locals name (some ⟨index, isMutable⟩) })

/-! ## Literals -/

/-- `parse_int_literal`: zero where the text is no number of its kind. -/
def parseIntLiteral (text : String) : Bytes :=
  let digits := text.toList.filter (· ≠ '_')
  let inRadix (radix : ℕ) (text : List Char) : Bytes :=
    padLeft (beBytes 16 ((parseUnsigned 128 radix text).getD 0))
  match digits with
  | '0' :: 'x' :: rest | '0' :: 'X' :: rest => padLeft (((hexDecode rest).getD []).take 32)
  | '0' :: 'b' :: rest | '0' :: 'B' :: rest => inRadix 2 rest
  | '0' :: 'o' :: rest | '0' :: 'O' :: rest => inRadix 8 rest
  | _ => inRadix 10 digits

/-- Bytes in chunks of 32, the last one filled up with zeros. -/
def chunks (bytes : Bytes) : List Bytes :=
  (List.range ((bytes.length + 31) / 32)).map (fun i =>
    let chunk := (bytes.drop (32 * i)).take 32
    chunk ++ List.replicate (32 - chunk.length) 0)

/-- The 20 bytes of an address, or fewer. -/
def parseAddress (text : String) : Bytes :=
  let digits := match text.toList with
    | '0' :: 'x' :: rest => rest
    | digits => digits
  ((hexDecode digits).getD []).take 20

/-- Pushes words, the first one first. -/
def emitPushes : List Bytes → Gen Unit
  | [] => pure ()
  | word :: words => do
    emitPushU256 word
    emitPushes words

/-- Pushes a literal. -/
def generateLiteral : Literal → Gen Unit
  | .int digits _ => emitPushU256 (parseIntLiteral digits)
  | .bool b => emitPushU256 (padLeft [if b then 1 else 0])
  | .address text => emitPushU256 (padLeft (parseAddress text))
  | .string text => emitPushes (chunks (textBytes text))
  | .float _ | .byteString _ => emitPushU256 (padLeft [])

/-! ## Expressions and statements -/

/-- The opcode of an operator that has one. -/
def binaryOpcode : BinaryOp → Option Opcode
  | .add => some .add
  | .sub => some .sub
  | .mul => some .mul
  | .div => some .div
  | .rem => some .mod
  | .pow => some .pow
  | .eq => some .eq
  | .ne => some .ne
  | .lt => some .lt
  | .le => some .le
  | .gt => some .gt
  | .ge => some .ge
  | .and => some .and
  | .or => some .or
  | .bitAnd => some .bitAnd
  | .bitOr => some .bitOr
  | .bitXor => some .bitXor
  | .shl => some .shl
  | .shr => some .shr
  | .assign | .addAssign | .subAssign | .mulAssign | .divAssign | .remAssign
  | .bitAndAssign | .bitOrAssign | .bitXorAssign | .shlAssign | .shrAssign => none

/-- The name of a compound assignment, for an error. -/
def operatorName : BinaryOp → String
  | .addAssign => "AddAssign"
  | .subAssign => "SubAssign"
  | .mulAssign => "MulAssign"
  | .divAssign => "DivAssign"
  | .remAssign => "RemAssign"
  | .bitAndAssign => "BitAndAssign"
  | .bitOrAssign => "BitOrAssign"
  | .bitXorAssign => "BitXorAssign"
  | .shlAssign => "ShlAssign"
  | .shrAssign => "ShrAssign"
  | _ => ""

/-- The opcode of a unary operator. -/
def unaryOpcode : UnaryOp → Opcode
  | .neg => .neg
  | .not => .not
  | .bitNot => .bitNot

/-- The log instruction for so many topics. -/
def logOpcode : ℕ → Opcode
  | 0 => .log0
  | 1 => .log1
  | 2 => .log2
  | 3 => .log3
  | _ => .log4

/-- A path: a local variable before a storage field. -/
def generatePath : List String → Gen Unit
  | [name] => do
    let s ← get
    match s.locals name with
    | some var => emitLoadLocal var.index
    | none =>
      match s.storageSlots.lookup name with
      | some slot => do
        emitPushU32 slot
        emitOp .sLoad
      | none => fail (.undefinedSymbol name)
  | _ => fail (.unsupportedFeature "complex paths")

/-- Stores the top of the stack in what a name stands for. -/
def storeTo : Gen Unit := do
  let s ← get
  match s.locals name with
  | some var => emitStoreLocal var.index
  | none =>
    match s.storageSlots.lookup name with
    | some slot => do
      emitPushU32 slot
      emitOp .sStore
    | none => fail (.unsupportedFeature "assignment target")

/-- The address of an element: elements of 32 bytes. -/
def emitElement : Gen Unit := do
  emitPushU32 32
  emitOp .mul
  emitOp .add
  emitOp opcode

/-- The call of an internal function, by its name. -/
def emitCall : Gen Unit := emit (.withOperand .call (textBytes name))

/-- The end of a `Call` expression. -/
def generateCallee : Expr → Gen Unit
  | .path [name] => emitCall name
  | _ => fail (.unsupportedFeature "complex call")

/-- A condition with its branches. -/
def generateIf (cond thenBlock elseBranch : Gen Unit) : Gen Unit := do
  let elseLabel ← freshLabel "else"
  let endLabel ← freshLabel "endif"
  cond
  emitJumpIfNot elseLabel
  thenBlock
  emitJump endLabel
  setLabel elseLabel
  elseBranch
  setLabel endLabel

/-- The rest of an action, with the labels of a loop on the loop stack. -/
def inLoop (breakLabel continueLabel : Label) (body : Gen Unit) : Gen Unit := do
  modify (fun s => { s with loopStack := ⟨breakLabel, continueLabel⟩ :: s.loopStack })
  body
  modify (fun s => { s with loopStack := s.loopStack.tail })

/-- A loop with a condition. -/
def generateWhile (cond body : Gen Unit) : Gen Unit := do
  let loopLabel ← freshLabel "while"
  let breakLabel ← freshLabel "while_end"
  inLoop breakLabel loopLabel do
    setLabel loopLabel
    cond
    emitJumpIfNot breakLabel
    body
    emitJump loopLabel
    setLabel breakLabel

/-- A loop without one. -/
def generateLoop (body : Gen Unit) : Gen Unit := do
  let loopLabel ← freshLabel "loop"
  let breakLabel ← freshLabel "loop_end"
  inLoop breakLabel loopLabel do
    setLabel loopLabel
    body
    emitJump loopLabel
    setLabel breakLabel

/-- Loads the current element of a `for` loop into a variable of its own. -/
def bindElement (iterLocal indexLocal : ℕ) : Pattern → Gen Unit
  | .ident name _ => do
    emitLoadLocal iterLocal
    emitLoadLocal indexLocal
    emitElement .load
    let index ← newLocal
    bindLocal name index false
    emitStoreLocal index
  | _ => pure ()

/-- `generate_for`: a hundred rounds. -/
def generateFor (pattern : Pattern) (iter body : Gen Unit) : Gen Unit := do
  let loopLabel ← freshLabel "for"
  let breakLabel ← freshLabel "for_end"
  let continueLabel ← freshLabel "for_continue"
  inLoop breakLabel continueLabel do
    iter
    let iterLocal ← newLocal
    emitStoreLocal iterLocal
    emitPushU32 0
    let indexLocal ← newLocal
    emitStoreLocal indexLocal
    setLabel loopLabel
    emitLoadLocal indexLocal
    emitPushU32 100
    emitOp .lt
    emitJumpIfNot breakLabel
    bindElement iterLocal indexLocal pattern
    body
    setLabel continueLabel
    emitLoadLocal indexLocal
    emitPushU32 1
    emitOp .add
    emitStoreLocal indexLocal
    emitJump loopLabel
    setLabel breakLabel

/-- The jump of a `break` or `continue`; there is none outside a loop. -/
def emitLoopJump (target : LoopLabels → Label) : Gen Unit := do
  match (← get).loopStack with
  | labels :: _ => emitJump (target labels)
  | [] => pure ()

/-- The end of `generate_local`: with another pattern than a name the value
stays on the stack. -/
def storeLet (isMutable : Bool) : Pattern → Gen Unit
  | .ident name isMut => do
    let index ← newLocal
    bindLocal name index (isMutable || isMut)
    emitStoreLocal index
  | _ => pure ()

/-- An expression for which there is no code; the number is its place among
the kinds of expressions. -/
def unsupportedExpr (discriminant : String) : Gen Unit :=
  fail (.unsupportedFeature ("expression Discriminant(" ++ discriminant ++ ")"))

mutual

/-- `generate_expr`. An assignment has generated both its sides when
`generate_assignment` generates the value once more. -/
def generateExpr : Expr → Gen Unit
  | .literal lit => generateLiteral lit
  | .path segments => generatePath segments
  | .binary op left right => do
    generateExpr left
    generateExpr right
    match binaryOpcode op with
    | some opcode => emitOp opcode
    | none =>
      if op = .assign then do
        generateExpr right
        generateTarget left
      else fail (.unsupportedFeature ("operator " ++ operatorName op))
  | .unary op operand => do
    generateExpr operand
    emitOp (unaryOpcode op)
  | .call callee args => do
    generateExprs args
    generateCallee callee
  | .methodCall receiver method args => do
    generateExpr receiver
    generateExprs args
    emitCall method
  | .field obj _ => do
    generateExpr obj
    emitPushU32 0
    emitOp .add
    emitOp .load
  | .index array index => do
    generateExpr array
    generateExpr index
    emitElement .load
  | .block stmts => generateBlock stmts
  | .ifElse cond thenBlock none =>
    generateIf (generateExpr cond) (generateBlock thenBlock) (pure ())
  | .ifElse cond thenBlock (some elseBranch) =>
    generateIf (generateExpr cond) (generateBlock thenBlock) (generateExpr elseBranch)
  | .forIn pattern iter body => generateFor pattern (generateExpr iter) (generateBlock body)
  | .whileLoop cond body => generateWhile (generateExpr cond) (generateBlock body)
  | .loop body => generateLoop (generateBlock body)
  | .brk _ => emitLoopJump LoopLabels.breakLabel
  | .cont => emitLoopJump LoopLabels.continueLabel
  | .ret none => emitOp .ret
  | .ret (some value) => do
    generateExpr value
    emitOp .ret
  | .tuple elems => generateExprs elems
  | .array elems => generateExprs elems
  | .struct _ fields => generateFields fields
  | .emit _ fields => do
    generateFields fields
    emitOp (logOpcode (fields.countP (fun field => field.value.isSome)))
  | .revert _ fields => do
    generateFields fields
    emitOp .revert
  | .paren inner => generateExpr inner
  | .cast _ _ => unsupportedExpr "8"
  | .reference _ _ => unsupportedExpr "9"
  | .deref _ => unsupportedExpr "10"
  | .matchArms _ _ => unsupportedExpr "13"
  | .arrayRepeat _ _ => unsupportedExpr "22"
  | .range _ _ _ => unsupportedExpr "24"
  | .closure _ _ => unsupportedExpr "25"
  | .move _ => unsupportedExpr "26"
  | .assert _ _ => unsupportedExpr "29"
  | .tryOp _ => unsupportedExpr "30"
  | .await _ => unsupportedExpr "32"

/-- The end of `generate_assignment`: the target gets the top of the stack. -/
def generateTarget : Expr → Gen Unit
  | .path [name] => storeTo name
  | .field obj _ => do
    generateExpr obj
    emitOp .store
  | .index array index => do
    generateExpr array
    generateExpr index
    emitElement .store
  | _ => fail (.unsupportedFeature "assignment target")

/-- Expressions, one after the other. -/
def generateExprs : List Expr → Gen Unit
  | [] => pure ()
  | e :: es => do
    generateExpr e
    generateExprs es

/-- The values of fields, one after the other. -/
def generateFields : List FieldInit → Gen Unit
  | [] => pure ()
  | .mk _ none :: fields => generateFields fields
  | .mk _ (some value) :: fields => do
    generateExpr value
    generateFields fields

/-- A statement. -/
def generateStmt : Stmt → Gen Unit
  | .letStmt pattern _ none isMutable => do
    emitPushU256 (padLeft [])
    storeLet isMutable pattern
  | .letStmt pattern _ (some init) isMutable => do
    generateExpr init
    storeLet isMutable pattern
  | .expr e => generateExpr e
  | .semi e => do
    generateExpr e
    emitOp .pop
  | .empty => pure ()

/-- A block. -/
def generateBlock : List Stmt → Gen Unit
  | [] => pure ()
  | stmt :: stmts => do
    generateStmt stmt
    generateBlock stmts

end

/-! ## Functions and contracts -/

/-- A parameter is a local variable if its pattern is a name. -/
def registerParam (param : Param) : Gen Unit :=
  match param.pattern with
  | .ident name isMut => do
    let index ← newLocal
    bindLocal name index isMut
  | _ => pure ()

/-- The parameters, in order. -/
def registerParams : List Param → Gen Unit
  | [] => pure ()
  | param :: params => do
    registerParam param
    registerParams params

/-- Whether the code does not end with `Return` or `Revert`. -/
def lacksReturn (code : List Instruction) : Bool :=
  match code.getLast? with
  | some instruction => instruction.opcode ≠ .ret && instruction.opcode ≠ .revert
  | none => true

/-- The implicit return. -/
def addReturn : Gen Unit := do
  if lacksReturn (← get).instructions then emitOp .ret else pure ()

/-- The code of a function. -/
def generateFunction (func : FunctionDef) : Gen FunctionBytecode := do
  registerParams func.sig.params
  generateBlock func.body
  addReturn
  resolveJumps
  let s ← get
  return {
    name := func.sig.name
    paramCount := func.sig.params.length % 2 ^ 8
    localCount := s.localCount % 2 ^ 8
    code := s.instructions
    isPayable := func.sig.modifiers.isPayable
    isView := func.sig.modifiers.isView }

/-- The code of a constructor. -/
def generateConstructor (ctor : ConstructorDef) : Gen Unit := do
  registerParams ctor.params
  generateBlock ctor.body
  emitOp .ret
  resolveJumps

/-- `reset_function`. The loop stack is not reset. -/
def resetFunction : Gen Unit :=
  modify (fun s =>
    { s with
      instructions := []
      locals := fun _ => none
      localCount := 0
      labels := fun _ => none
      unresolvedJumps := [] })

/-- A storage field gets the next slot. -/
def addStorageField (s : Codegen) (field : StorageField) : Codegen :=
  { s with
    storageSlots := s.storageSlots.insert field.name s.nextStorageSlot
    nextStorageSlot := (s.nextStorageSlot + 1) % 2 ^ 32 }

/-- The fields of the storage blocks, in order. -/
def storageFields (items : List ContractItem) : List StorageField :=
  items.flatMap (fun item => match item with
    | .storage fields => fields
    | _ => [])

/-- The constructors; the code of the last one counts. -/
def generateConstructors : List ContractItem → List Instruction → Gen (List Instruction)
  | [], initCode => pure initCode
  | .constructor ctor :: items, _ => do
    resetFunction
    generateConstructor ctor
    generateConstructors items (← get).instructions
  | _ :: items, initCode => generateConstructors items initCode

/-- The functions of a contract, in order. -/
def generateFunctions : List ContractItem → Gen (List FunctionBytecode)
  | [] => pure []
  | .function func :: items => do
    resetFunction
    let bytecode ← generateFunction func
    return bytecode :: (← generateFunctions items)
  | _ :: items => generateFunctions items

/-- The code of a contract. -/
def generateContract (contract : ContractDef) : Gen ContractBytecode := do
  modify (fun s =>
    (storageFields contract.items).foldl addStorageField
      { s with storageSlots := ∅, nextStorageSlot := 0 })
  let initCode ← generateConstructors contract.items []
  let functions ← generateFunctions contract.items
  let s ← get
  return {
    name := contract.name
    functions := functions
    storageLayout := s.storageSlots.entries.map (fun entry => (entry.1, entry.2))
    initCode := initCode }

/-- The items of a file. The code of a function outside contracts is dropped. -/
def generateItems : List Item → Gen (List ContractBytecode)
  | [] => pure []
  | .contract contract :: items => do
    let bytecode ← generateContract contract
    return bytecode :: (← generateItems items)
  | .function func :: items => do
    let _ ← generateFunction func
    generateItems items
  | _ :: items => generateItems items

/-- **`generate`.** -/
def generate (file : SourceFile) : Outcome CodegenError (List ContractBytecode) :=
  (generateItems file.items .new).1

end Codegen

end Qfc.Qsc
