import QfcCore.Qsc.Effects

/-!
# Declared effects

A function declares what it does: a `view` function writes no storage and emits
no log, a `pure` one does not read the storage either, and a binding without
`mut` keeps the value it was initialised with. The checker records these
declarations and never looks at them, and neither does the generator. So the
code of a file keeps to them exactly if the accesses of the source do.
-/

namespace Qfc.Qsc

open Qvm (Opcode Instruction)
open Access List Act

/-! ## The parts of a file -/

namespace Codegen

variable {s s' : Codegen} {items : List ContractItem}

end Codegen

/-! ## What a function declares -/

/-- The variables that the parameters bind. -/
def paramVars : Names → List Param → List LocalVar
  | _, [] => []
  | n, param :: params =>
    match param.pattern with
    | .ident name isMut => ⟨n.count, isMut⟩ :: paramVars (n.bind name isMut) params
    | _ => paramVars n params

/-- The variable that an access initialises. -/
def Access.declared? : Access → Option LocalVar
  | declare var => some var
  | _ => none

variable (isField : String → Bool) (f : FunctionDef)

/-- The bindings of a function: of its parameters, and of its body. -/
def bindings : List LocalVar :=
  paramVars .empty f.sig.params ++ (accesses isField f).filterMap declared?

/-- **The source of a function keeps to what the function declares.** -/
structure Respects : Prop where
  view : f.sig.modifiers.isView = true → ∀ a ∈ accesses isField f, a ∉ [.writeField, .log]
  pure : f.sig.modifiers.isPure = true → ∀ a ∈ accesses isField f,
    a ∉ [.readField, .writeField, .log]
  immutable : ∀ var ∈ bindings isField f, var.isMutable = false →
    ∀ target, .assign target ∈ accesses isField f →
      target.index % 2 ^ 16 ≠ var.index % 2 ^ 16

variable {isField f}

/-- `CompilerError`, of a file that has been parsed. -/
inductive CompilerError
  | type (e : TypeError)
  | codegen (e : CodegenError)
deriving DecidableEq

variable (name : String) (file : SourceFile) (contracts : List ContractBytecode)

/-- **`compile`**, of a file that has been parsed. -/
def compile : Outcome CompilerError (List ContractBytecode) :=
  match TypeChecker.checkFile file with
  | .error e => .err (.type e)
  | .ok () =>
    match Codegen.generate file with
    | .err e => .err (.codegen e)
    | .panic => .panic
    | .ok contracts => .ok contracts

/-- A signature without parameters. -/
def signature (isPure isView : Bool) (returnType : Option Ty) : FunctionSig where
  modifiers := ⟨isPure, isView, false⟩
  name := name
  params := []
  returnType := returnType

/-- A contract with one storage field `x` and a few functions. -/
def counter (functions : List FunctionDef) : ContractDef where
  name := "Counter"
  items := .storage [⟨"x", .primitive .u256⟩] :: functions.map .function

/-- The statement `name = value;`. -/
def assignment (name value : String) : Stmt :=
  .semi (.binary .assign (.path [name]) (.literal (.int value none)))

end Qfc.Qsc
