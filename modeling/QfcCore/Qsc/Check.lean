import QfcCore.Qsc.Ast
import QfcCore.Qsc.Literal

/-!
# The type checker of QuantumScript

`TypeChecker` of `qfc-qsc/src/typeck/mod.rs`. The errors are collected: no
function of the checker fails, and a file is accepted if none was collected. So
a function is a state action that always returns. Errors are here without the
line and the column.

What the checker records and never reads is left out: whether a symbol is
mutable, the modifiers of a function, the names of its parameters, the variants
of an enumeration and the abilities of a structure.
-/

namespace Qfc.Qsc

open Function

/-! ## Resolved types -/

/-- **A resolved type.** -/
inductive ResolvedType
  | primitive (p : PrimitiveType)
  | struct (name : String)
  | enum (name : String)
  | array (elem : ResolvedType) (size : ℕ)
  | slice (elem : ResolvedType)
  | tuple (elems : List ResolvedType)
  | mapping (key value : ResolvedType)
  | option (inner : ResolvedType)
  | result (ok err : ResolvedType)
  | reference (inner : ResolvedType) (isMut : Bool)
  | function (params : List ResolvedType) (ret : ResolvedType)
  | resource (inner : ResolvedType) (abilities : List ResourceAbility)
  | unit
  | never
  | error
  | unknown (id : ℕ)

namespace ResolvedType

mutual

/-- `==` of resolved types. -/
def beq : ResolvedType → ResolvedType → Bool
  | primitive p, primitive q => p = q
  | struct m, struct n => m = n
  | enum m, enum n => m = n
  | array t i, array u j => beq t u && i = j
  | slice t, slice u => beq t u
  | tuple ts, tuple us => beqList ts us
  | mapping k v, mapping k' v' => beq k k' && beq v v'
  | option t, option u => beq t u
  | result t e, result u e' => beq t u && beq e e'
  | reference t m, reference u n => beq t u && m = n
  | function ts r, function us r' => beqList ts us && beq r r'
  | resource t as, resource u bs => beq t u && as = bs
  | unit, unit => true
  | never, never => true
  | error, error => true
  | unknown i, unknown j => i = j
  | _, _ => false

/-- Equality of lists of types. -/
def beqList : List ResolvedType → List ResolvedType → Bool
  | [], [] => true
  | t :: ts, u :: us => beq t u && beqList ts us
  | _, _ => false

end

mutual

theorem beq_iff : ∀ t u : ResolvedType, beq t u = true ↔ t = u
  | primitive _, u | struct _, u | enum _, u => by cases u <;> simp [beq]
  | array t _, u | slice t, u => by cases u <;> simp [beq, beq_iff t]
  | tuple ts, u => by cases u <;> simp [beq, beqList_iff ts]
  | mapping k v, u => by cases u <;> simp [beq, beq_iff k, beq_iff v]
  | option t, u => by cases u <;> simp [beq, beq_iff t]
  | result t e, u => by cases u <;> simp [beq, beq_iff t, beq_iff e]
  | reference t _, u => by cases u <;> simp [beq, beq_iff t]
  | function ts r, u => by cases u <;> simp [beq, beqList_iff ts, beq_iff r]
  | resource t _, u => by cases u <;> simp [beq, beq_iff t]
  | unit, u | never, u | error, u | unknown _, u => by cases u <;> simp [beq]

theorem beqList_iff : ∀ ts us : List ResolvedType, beqList ts us = true ↔ ts = us
  | [], us => by cases us <;> simp [beqList]
  | t :: ts, us => by cases us <;> simp [beqList, beq_iff t, beqList_iff ts]

end

instance : DecidableEq ResolvedType := fun t u => decidable_of_iff _ (beq_iff t u)

/-- `is_numeric`, which is also `is_integer`. -/
def isNumeric : ResolvedType → Bool
  | primitive p =>
    match p with
    | .bool | .address | .bytes | .string => false
    | _ => true
  | _ => false

/-- Whether it is the type of conditions. -/
def isBool : ResolvedType → Bool
  | primitive .bool => true
  | _ => false

/-- The lower-case name of a primitive type. -/
def primitiveName : PrimitiveType → String
  | .bool => "bool"
  | .u8 => "u8"
  | .u16 => "u16"
  | .u32 => "u32"
  | .u64 => "u64"
  | .u128 => "u128"
  | .u256 => "u256"
  | .i8 => "i8"
  | .i16 => "i16"
  | .i32 => "i32"
  | .i64 => "i64"
  | .i128 => "i128"
  | .i256 => "i256"
  | .address => "address"
  | .bytes => "bytes"
  | .string => "string"

/-- An ability, as printed. -/
def abilityName : ResourceAbility → String
  | .copy => "copy"
  | .drop => "drop"
  | .store => "store"
  | .key => "key"

mutual

/-- A type, as printed. -/
def displayName : ResolvedType → String
  | primitive p => primitiveName p
  | struct name => name
  | enum name => name
  | array elem size => "[" ++ displayName elem ++ "; " ++ toString size ++ "]"
  | slice elem => "Vec<" ++ displayName elem ++ ">"
  | tuple elems => "(" ++ ", ".intercalate (displayNames elems) ++ ")"
  | mapping key value => "mapping(" ++ displayName key ++ " => " ++ displayName value ++ ")"
  | option inner => "Option<" ++ displayName inner ++ ">"
  | result ok err => "Result<" ++ displayName ok ++ ", " ++ displayName err ++ ">"
  | reference inner isMut => (if isMut then "&mut " else "&") ++ displayName inner
  | function params ret =>
    "fn(" ++ ", ".intercalate (displayNames params) ++ ") -> " ++ displayName ret
  | resource inner abilities =>
    "resource " ++ displayName inner ++ " : " ++ " + ".intercalate (abilities.map abilityName)
  | unit => "()"
  | never => "!"
  | error => "<error>"
  | unknown id => "?" ++ toString id

/-- Types, as printed. -/
def displayNames : List ResolvedType → List String
  | [] => []
  | t :: ts => displayName t :: displayNames ts

end

end ResolvedType

/-! ## The state -/

/-- `TypeError`, as far as it is raised. -/
inductive TypeError
  | undefinedVariable (name : String)
  | undefinedType (name : String)
  | typeMismatch (expected found : String)
  | argumentCountMismatch (expected found : ℕ)
  | notCallable
  | notIndexable
  | fieldNotFound (field ty : String)
  | selfOutsideContract
deriving DecidableEq

/-- What a type name stands for. -/
inductive TypeDef
  | struct (fields : List (String × ResolvedType))
  | enum
  | alias (ty : ResolvedType)

/-- The signature of a function. -/
structure FunctionType where
  params : List ResolvedType
  returnType : ResolvedType

/-- A table of names. -/
abbrev Table (α : Type) : Type := String → Option α

/-- The types of the variables of a scope, and those of the scopes around it. -/
structure Scope where
  symbols : Table ResolvedType
  parents : List (Table ResolvedType)

namespace Scope

/-- No names. -/
def new : Scope := ⟨fun _ => none, []⟩

/-- An empty scope inside another. -/
def withParent (parent : Scope) : Scope := ⟨fun _ => none, parent.symbols :: parent.parents⟩

/-- Enters a name. -/
def define (s : Scope) (name : String) (ty : ResolvedType) : Scope :=
  { s with symbols := update s.symbols name (some ty) }

/-- `lookup`: the innermost one. -/
def lookup (s : Scope) (name : String) : Option ResolvedType :=
  (s.symbols :: s.parents).findSome? (fun symbols => symbols name)

/-- The scope around it; a scope without one stays. -/
def leave (s : Scope) : Scope :=
  match s.parents with
  | symbols :: parents => ⟨symbols, parents⟩
  | [] => s

end Scope

/-- **The state of the checker.** The tables are those of the whole file. -/
structure TypeChecker where
  types : Table TypeDef
  functions : Table FunctionType
  scope : Scope
  contractContext : Option String
  storageFields : Table ResolvedType
  currentFunction : Option FunctionType
  inferenceCounter : ℕ
  errors : List TypeError

/-- Nothing is checked yet. -/
def TypeChecker.new : TypeChecker where
  types := fun _ => none
  functions := fun _ => none
  scope := .new
  contractContext := none
  storageFields := fun _ => none
  currentFunction := none
  inferenceCounter := 0
  errors := []

/-- An action of the checker. -/
abbrev Check (α : Type) : Type := StateM TypeChecker α

namespace TypeChecker

/-! ## Parts -/

/-- Collects an error. -/
def report (e : TypeError) : Check Unit :=
  modify (fun s => { s with errors := s.errors ++ [e] })

/-- Collects an error if something is wrong. -/
def reportIf (wrong : Bool) (e : TypeError) : Check Unit :=
  if wrong then report e else pure ()

/-- A mismatch of two types. -/
def mismatch (expected found : ResolvedType) : TypeError :=
  .typeMismatch expected.displayName found.displayName

/-- A variable no type has. -/
def freshTypeVar : Check ResolvedType := do
  let id := (← get).inferenceCounter
  modify (fun s => { s with inferenceCounter := s.inferenceCounter + 1 })
  return .unknown id

/-- Defines a variable in the current scope. -/
def define (name : String) (ty : ResolvedType) : Check Unit :=
  modify (fun s => { s with scope := s.scope.define name ty })

/-- An action in a scope of its own. -/
def inScope {α : Type} (x : Check α) : Check α := do
  modify (fun s => { s with scope := s.scope.withParent })
  let a ← x
  modify (fun s => { s with scope := s.scope.leave })
  return a

/-- The last name of a path. -/
def lastName (path : TypePath) : String := (path.getLast?.map PathSegment.ident).getD ""

/-- What a type name resolves to. -/
def resolveName (name : String) : Check ResolvedType := do
  match (← get).types name with
  | some (.struct _) => return .struct name
  | some .enum => return .enum name
  | some (.alias ty) => return ty
  | none => do
    report (.undefinedType name)
    return .error

mutual

/-- `resolve_type`. The size of an array is not evaluated. -/
def resolveType : Ty → Check ResolvedType
  | .primitive p => return .primitive p
  | .path segments => resolveName (lastName segments)
  | .array elem _ => do return .array (← resolveType elem) 0
  | .slice elem => do return .slice (← resolveType elem)
  | .tuple elems => do return .tuple (← resolveTypes elems)
  | .mapping key value => do
    let key ← resolveType key
    return .mapping key (← resolveType value)
  | .option inner => do return .option (← resolveType inner)
  | .result ok err => do
    let ok ← resolveType ok
    return .result ok (← resolveType err)
  | .reference inner isMut => do return .reference (← resolveType inner) isMut
  | .function params none => do return .function (← resolveTypes params) .unit
  | .function params (some ret) => do
    let params ← resolveTypes params
    return .function params (← resolveType ret)
  | .resource inner abilities => do return .resource (← resolveType inner) abilities
  | .infer => freshTypeVar
  | .never => return .never
  | .selfType => do
    match (← get).contractContext with
    | some contract => return .struct contract
    | none => do
      report .selfOutsideContract
      return .error

/-- Types, in order. -/
def resolveTypes : List Ty → Check (List ResolvedType)
  | [] => return []
  | t :: ts => do
    let t ← resolveType t
    return t :: (← resolveTypes ts)

end

mutual

/-- `check_pattern`: the names of the pattern become variables. -/
def checkPattern : Pattern → ResolvedType → Check Unit
  | .ident name _, expected => define name expected
  | .tuple patterns, .tuple types => do
    reportIf (patterns.length ≠ types.length)
      (.typeMismatch ("tuple of " ++ toString types.length ++ " elements")
        ("tuple of " ++ toString patterns.length ++ " elements"))
    checkPatterns patterns types
  | _, _ => pure ()

/-- Patterns against types, as far as both go. -/
def checkPatterns : List Pattern → List ResolvedType → Check Unit
  | p :: ps, t :: ts => do
    checkPattern p t
    checkPatterns ps ts
  | _, _ => pure ()

end

/-- `check_literal`. -/
def literalType : Literal → ResolvedType
  | .int _ (some ty) => .primitive ty
  | .int _ none => .primitive .u256
  | .float _ => .primitive .u256
  | .string _ => .primitive .string
  | .byteString _ => .primitive .bytes
  | .bool _ => .primitive .bool
  | .address _ => .primitive .address

/-- Both operands of an operator must have the property. -/
def operandsMismatch (expected : String) (left right : ResolvedType) : TypeError :=
  .typeMismatch expected (left.displayName ++ " and " ++ right.displayName)

/-- Two types that differ, neither of them the error. -/
def differ (left right : ResolvedType) : Bool := left ≠ right && left ≠ .error && right ≠ .error

/-- The type of a binary operation. -/
def checkBinaryOp (op : BinaryOp) (left right : ResolvedType) : Check ResolvedType :=
  match op with
  | .add | .sub | .mul | .div | .rem | .pow => do
    if !left.isNumeric || !right.isNumeric then
      report (operandsMismatch "numeric type" left right)
      return .error
    else
      reportIf (left ≠ right) (mismatch left right)
      return left
  | .eq | .ne | .lt | .le | .gt | .ge => do
    reportIf (differ left right) (mismatch left right)
    return .primitive .bool
  | .and | .or => do
    reportIf (!left.isBool || !right.isBool) (operandsMismatch "bool" left right)
    return .primitive .bool
  | .bitAnd | .bitOr | .bitXor | .shl | .shr => do
    if !left.isNumeric || !right.isNumeric then
      report (operandsMismatch "integer type" left right)
      return .error
    else return left
  | .assign | .addAssign | .subAssign | .mulAssign | .divAssign | .remAssign
  | .bitAndAssign | .bitOrAssign | .bitXorAssign | .shlAssign | .shrAssign => do
    reportIf (differ left right) (mismatch left right)
    return .unit

/-- An operand that must have a property; the type of the result. -/
def checkOperand (fits : ResolvedType → Bool) (expected : String) (operand : ResolvedType) :
    Check ResolvedType :=
  if fits operand then return operand
  else do
    report (.typeMismatch expected operand.displayName)
    return .error

/-- The type of a unary operation. -/
def checkUnaryOp : UnaryOp → ResolvedType → Check ResolvedType
  | .neg => checkOperand ResolvedType.isNumeric "numeric type"
  | .not => checkOperand ResolvedType.isBool "bool"
  | .bitNot => checkOperand ResolvedType.isNumeric "integer type"

/-- The type of a field. -/
def checkFieldAccess (ty : ResolvedType) (field : String) : Check ResolvedType :=
  match ty with
  | .struct name => do
    let fields := match (← get).types name with
      | some (.struct fields) => fields
      | _ => []
    match fields.find? (fun entry => entry.1 = field) with
    | some (_, ty) => return ty
    | none => do
      report (.fieldNotFound field name)
      return .error
  | .tuple elems =>
    match (parseUnsigned 64 10 field.toList).bind (fun i => elems[i]?) with
    | some ty => return ty
    | none => do
      report (.fieldNotFound field "tuple")
      return .error
  | .error => return .error
  | _ => do
    report (.fieldNotFound field ty.displayName)
    return .error

/-- The type of an element. -/
def checkIndex (array index : ResolvedType) : Check ResolvedType := do
  reportIf (!index.isNumeric && index ≠ .error) (.typeMismatch "integer" index.displayName)
  match array with
  | .array elem _ | .slice elem => return elem
  | .mapping _ value => return value
  | .error => return .error
  | _ => do
    report .notIndexable
    return .error

/-- A path: a variable, a storage field, a function, in this order. -/
def checkPath : List String → Check ResolvedType
  | [name] => do
    let s ← get
    match s.scope.lookup name with
    | some ty => return ty
    | none =>
      match s.storageFields name with
      | some ty => return ty
      | none =>
        match s.functions name with
        | some func => return .function func.params func.returnType
        | none => do
          report (.undefinedVariable name)
          return .error
  | _ => return .error

/-- A condition is of type `bool`. -/
def checkCondition (ty : ResolvedType) : Check Unit :=
  reportIf (!ty.isBool && ty ≠ .error) (.typeMismatch "bool" ty.displayName)

/-- The type of what is returned fits the current function. -/
def checkReturn (ty : ResolvedType) : Check Unit := do
  match (← get).currentFunction with
  | some func =>
    reportIf (func.returnType ≠ ty && ty ≠ .error) (mismatch func.returnType ty)
  | none => pure ()

/-- The end of a `Deref`. -/
def checkDeref : ResolvedType → Check ResolvedType
  | .reference inner _ => return inner
  | ty => do
    report (.typeMismatch "reference" ty.displayName)
    return .error

/-- The end of a `Try`. -/
def checkTry : ResolvedType → Check ResolvedType
  | .result ok _ => return ok
  | .option inner => return inner
  | ty => do
    report (.typeMismatch "Result or Option" ty.displayName)
    return .error

/-- The type of the elements that a `for` loop runs over. -/
def elementType : ResolvedType → ResolvedType
  | .slice inner | .array inner _ => inner
  | _ => .error

/-- The two branches of an `if`. -/
def checkBranches (thenTy elseTy : ResolvedType) : Check Unit :=
  reportIf (thenTy ≠ elseTy && thenTy ≠ .error && thenTy ≠ .never) (mismatch thenTy elseTy)

/-- A further arm of a `match`. -/
def checkArm (expected : Option ResolvedType) (ty : ResolvedType) : Check (Option ResolvedType) :=
  match expected with
  | some expected => do
    reportIf (expected ≠ ty && ty ≠ .never) (mismatch expected ty)
    return some expected
  | none => return some ty

/-- A value for something of a known type. -/
def checkValue (expected ty : ResolvedType) : Check Unit :=
  reportIf (expected ≠ ty && ty ≠ .error) (mismatch expected ty)

/-- The value of a field, if the structure has the field. -/
def checkFieldValue (fields : List (String × ResolvedType)) (name : String) (ty : ResolvedType) :
    Check Unit :=
  match fields.find? (fun entry => entry.1 = name) with
  | some (_, expected) => checkValue expected ty
  | none => pure ()

/-- The end of `check_local`. -/
def checkLet (pattern : Pattern) (ty : Option Ty) (initTy : ResolvedType) : Check Unit := do
  let declared ← match ty with
    | some ty => do
      let declared ← resolveType ty
      reportIf (initTy ≠ .unit && declared ≠ initTy) (mismatch declared initTy)
      pure declared
    | none => pure initTy
  match pattern with
  | .ident name _ => define name declared
  | _ => pure ()

/-! ## Expressions and statements -/

mutual

/-- `check_expr`. Ranges, closures, moves, events, reverts, assertions and
awaits are not looked into. -/
def checkExpr : Expr → Check ResolvedType
  | .literal lit => return literalType lit
  | .path segments => checkPath segments
  | .binary op left right => do
    let leftTy ← checkExpr left
    let rightTy ← checkExpr right
    checkBinaryOp op leftTy rightTy
  | .unary op operand => do checkUnaryOp op (← checkExpr operand)
  | .call callee args => do
    match ← checkExpr callee with
    | .function params ret =>
      if params.length ≠ args.length then
        report (.argumentCountMismatch params.length args.length)
      else checkArgs params args
      return ret
    | .error => return .error
    | _ => do
      report .notCallable
      return .error
  | .methodCall receiver _ args => do
    let _ ← checkExpr receiver
    let _ ← checkExprs args
    freshTypeVar
  | .field obj name => do checkFieldAccess (← checkExpr obj) name
  | .index array index => do
    let arrayTy ← checkExpr array
    checkIndex arrayTy (← checkExpr index)
  | .cast inner ty => do
    let _ ← checkExpr inner
    resolveType ty
  | .reference inner isMut => do return .reference (← checkExpr inner) isMut
  | .deref inner => do checkDeref (← checkExpr inner)
  | .block stmts => checkBlock stmts .unit
  | .ifElse cond thenBlock none => do
    checkCondition (← checkExpr cond)
    let _ ← checkBlock thenBlock .unit
    return .unit
  | .ifElse cond thenBlock (some elseBranch) => do
    checkCondition (← checkExpr cond)
    let thenTy ← checkBlock thenBlock .unit
    checkBranches thenTy (← checkExpr elseBranch)
    return thenTy
  | .matchArms scrutinee arms => do
    let scrutineeTy ← checkExpr scrutinee
    return (← checkArms scrutineeTy arms none).getD .never
  | .forIn pattern iter body => do
    let iterTy ← checkExpr iter
    inScope do
      checkPattern pattern (elementType iterTy)
      let _ ← checkBlock body .unit
    return .unit
  | .whileLoop cond body => do
    checkCondition (← checkExpr cond)
    let _ ← checkBlock body .unit
    return .unit
  | .loop body => do
    let _ ← checkBlock body .unit
    return .never
  | .brk none => return .never
  | .brk (some value) => do
    let _ ← checkExpr value
    return .never
  | .cont => return .never
  | .ret none => do
    checkReturn .unit
    return .never
  | .ret (some value) => do
    checkReturn (← checkExpr value)
    return .never
  | .tuple elems => do return .tuple (← checkExprs elems)
  | .array [] => do return .slice (← freshTypeVar)
  | .array (first :: elems) => do
    let firstTy ← checkExpr first
    checkElems firstTy elems
    return .array firstTy (elems.length + 1)
  | .arrayRepeat elem count => do
    let elemTy ← checkExpr elem
    let _ ← checkExpr count
    return .slice elemTy
  | .struct path fields => do
    match (← get).types (lastName path) with
    | some (.struct expected) => do
      checkFields expected fields
      return .struct (lastName path)
    | some _ => return .struct (lastName path)
    | none => do
      report (.undefinedType (lastName path))
      return .error
  | .paren inner => checkExpr inner
  | .tryOp inner => do checkTry (← checkExpr inner)
  | .range _ _ _ | .closure _ _ | .move _ | .emit _ _ | .revert _ _ | .assert _ _ | .await _ =>
    return .unit

/-- The arguments of a call, against the parameters. -/
def checkArgs : List ResolvedType → List Expr → Check Unit
  | param :: params, arg :: args => do
    checkValue param (← checkExpr arg)
    checkArgs params args
  | _, _ => pure ()

/-- Expressions, in order. -/
def checkExprs : List Expr → Check (List ResolvedType)
  | [] => return []
  | e :: es => do
    let ty ← checkExpr e
    return ty :: (← checkExprs es)

/-- The elements of an array after the first one. -/
def checkElems (firstTy : ResolvedType) : List Expr → Check Unit
  | [] => pure ()
  | e :: es => do
    checkValue firstTy (← checkExpr e)
    checkElems firstTy es

/-- The arms of a `match`; the type of the first one counts. -/
def checkArms (scrutineeTy : ResolvedType) :
    List MatchArm → Option ResolvedType → Check (Option ResolvedType)
  | [], resultTy => return resultTy
  | .mk pattern _ body :: arms, resultTy => do
    checkPattern pattern scrutineeTy
    let resultTy ← checkArm resultTy (← checkExpr body)
    checkArms scrutineeTy arms resultTy

/-- The fields of a structure literal. -/
def checkFields (expected : List (String × ResolvedType)) : List FieldInit → Check Unit
  | [] => pure ()
  | .mk _ none :: fields => checkFields expected fields
  | .mk name (some value) :: fields => do
    checkFieldValue expected name (← checkExpr value)
    checkFields expected fields

/-- The type of a statement. -/
def checkStmt : Stmt → Check ResolvedType
  | .letStmt pattern ty none _ => do
    checkLet pattern ty .unit
    return .unit
  | .letStmt pattern ty (some init) _ => do
    checkLet pattern ty (← checkExpr init)
    return .unit
  | .expr e => checkExpr e
  | .semi e => do
    let _ ← checkExpr e
    return .unit
  | .empty => return .unit

/-- `check_block`: the type of the last statement. -/
def checkBlock : List Stmt → ResolvedType → Check ResolvedType
  | [], lastTy => return lastTy
  | stmt :: stmts, _ => do checkBlock stmts (← checkStmt stmt)

end

/-! ## Definitions -/

/-- The types of fields. -/
def resolveFields : List StructField → Check (List (String × ResolvedType))
  | [] => return []
  | field :: fields => do
    let ty ← resolveType field.ty
    return (field.name, ty) :: (← resolveFields fields)

/-- Enters a type definition. -/
def defineType (name : String) (d : TypeDef) : Check Unit :=
  modify (fun s => { s with types := update s.types name (some d) })

/-- Enters a structure. -/
def collectStructDef (d : StructDef) : Check Unit := do
  let fields ← resolveFields d.fields
  defineType d.name (.struct fields)

/-- The types in the variants of an enumeration are resolved. -/
def resolveVariants : List EnumVariant → Check Unit
  | [] => pure ()
  | variant :: variants => do
    match variant.fields with
    | .unit => pure ()
    | .tuple types => do
      let _ ← resolveTypes types
    | .struct fields => do
      let _ ← resolveFields fields
    resolveVariants variants

/-- Enters an enumeration. -/
def collectEnumDef (d : EnumDef) : Check Unit := do
  resolveVariants d.variants
  defineType d.name .enum

/-- Enters an alias. -/
def collectTypeAlias (d : TypeAlias) : Check Unit := do
  defineType d.name (.alias (← resolveType d.ty))

/-- The return type of a signature. -/
def resolveReturn : Option Ty → Check ResolvedType
  | some ty => resolveType ty
  | none => return .unit

/-- Enters a signature. -/
def collectFunctionDef (sig : FunctionSig) : Check Unit := do
  let params ← resolveTypes (sig.params.map Param.ty)
  let returnType ← resolveReturn sig.returnType
  modify (fun s =>
    { s with functions := update s.functions sig.name (some ⟨params, returnType⟩) })

/-- The fields of a storage block. -/
def collectStorageFields : List StorageField → Check Unit
  | [] => pure ()
  | field :: fields => do
    let ty ← resolveType field.ty
    modify (fun s => { s with storageFields := update s.storageFields field.name (some ty) })
    collectStorageFields fields

/-- An item, in `collect_contract_definitions`. -/
def collectContractItem : ContractItem → Check Unit
  | .storage fields => collectStorageFields fields
  | .function f => collectFunctionDef f.sig
  | .struct d => collectStructDef d
  | .enum d => collectEnumDef d
  | .event | .error | .modifier | .constructor _ | .fallback | .receive | .const => pure ()

/-- Enters what a contract defines. -/
def collectContractDefinitions : List ContractItem → Check Unit
  | [] => pure ()
  | item :: items => do
    collectContractItem item
    collectContractDefinitions items

/-- Enters what an item defines. -/
def collectDefinitions : Item → Check Unit
  | .contract c => collectContractDefinitions c.items
  | .struct d => collectStructDef d
  | .enum d => collectEnumDef d
  | .typeAlias d => collectTypeAlias d
  | .function f => collectFunctionDef f.sig
  | .import_ | .interface | .library | .const _ => pure ()

/-! ## Items -/

/-- Enters a parameter that is a name. -/
def addParamToScope (param : Param) : Check Unit := do
  let ty ← resolveType param.ty
  match param.pattern with
  | .ident name _ => define name ty
  | _ => pure ()

/-- Enters the parameters. -/
def addParamsToScope : List Param → Check Unit
  | [] => pure ()
  | param :: params => do
    addParamToScope param
    addParamsToScope params

/-- Whether a block ends with a `return`. -/
def endsWithReturn (body : Block) : Bool :=
  match body.getLast? with
  | some (.expr (.ret _)) | some (.semi (.ret _)) => true
  | _ => false

/-- The type of the body fits the return type. -/
def checkBody (func : FunctionType) (body : Block) (bodyTy : ResolvedType) : Check Unit :=
  reportIf (func.returnType ≠ .unit && bodyTy ≠ func.returnType && !endsWithReturn body &&
    bodyTy ≠ .never) (mismatch func.returnType bodyTy)

/-- `check_function`. The signature is looked up by the name. -/
def checkFunction (f : FunctionDef) : Check Unit := do
  let func := (← get).functions f.sig.name
  modify (fun s => { s with currentFunction := func })
  inScope do
    addParamsToScope f.sig.params
    let bodyTy ← checkBlock f.body .unit
    match func with
    | some func => checkBody func f.body bodyTy
    | none => pure ()
  modify (fun s => { s with currentFunction := none })

/-- A constructor. -/
def checkConstructor (c : ConstructorDef) : Check Unit :=
  inScope do
    addParamsToScope c.params
    let _ ← checkBlock c.body .unit

/-- An item of a contract. -/
def checkContractItem : ContractItem → Check Unit
  | .function f => checkFunction f
  | .constructor c => checkConstructor c
  | .storage _ | .event | .error | .modifier | .fallback | .receive | .const | .struct _
  | .enum _ => pure ()

/-- The items of a contract. -/
def checkContractItems : List ContractItem → Check Unit
  | [] => pure ()
  | item :: items => do
    checkContractItem item
    checkContractItems items

/-- A contract. -/
def checkContract (c : ContractDef) : Check Unit := do
  modify (fun s => { s with contractContext := some c.name })
  checkContractItems c.items
  modify (fun s => { s with contractContext := none })

/-- A constant. -/
def checkConst (c : ConstItem) : Check Unit := do
  let declared ← resolveType c.ty
  checkValue declared (← checkExpr c.value)

/-- An item. -/
def checkItem : Item → Check Unit
  | .contract c => checkContract c
  | .function f => checkFunction f
  | .const c => checkConst c
  | .import_ | .interface | .library | .struct _ | .enum _ | .typeAlias _ => pure ()

/-- Every item of a file. -/
def forItems (f : Item → Check Unit) : List Item → Check Unit
  | [] => pure ()
  | item :: items => do
    f item
    forItems f items

/-- **`check_file`**: the first error that was collected, if any. -/
def checkFile (file : SourceFile) : Except TypeError Unit :=
  let check : Check Unit := do
    forItems collectDefinitions file.items
    forItems checkItem file.items
  match (check .new).2.errors with
  | [] => .ok ()
  | e :: _ => .error e

end TypeChecker

end Qfc.Qsc
