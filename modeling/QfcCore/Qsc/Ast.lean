import Mathlib.Data.Nat.Notation

/-!
# The syntax trees of QuantumScript

The abstract syntax of `qfc-qsc/src/ast/mod.rs`, up to node ids and spans: the
ids are read by nothing, and a span only ever gives an error the line and the
column that it reports.

Two more things are left out. A statement that is an item (`StmtKind::Item`) is
built by no function of the parser, and so are the calls of custom modifiers. Of
the items, only what the checker or the generator reads is here: neither looks at
visibilities, generics, specifications or base contracts, or into an event, an
error, a modifier, a fallback, an interface, a library or an import. The few
forms without a concrete syntax are here, for both have a case for them.
-/

namespace Qfc.Qsc

/-! ## Operators and literals -/

/-- A primitive type. -/
inductive PrimitiveType
  | bool | u8 | u16 | u32 | u64 | u128 | u256 | i8 | i16 | i32 | i64 | i128 | i256
  | address | bytes | string
deriving DecidableEq

/-- What may be done with a resource. -/
inductive ResourceAbility
  | copy | drop | store | key
deriving DecidableEq

/-- A binary operator; the assignments are some. -/
inductive BinaryOp
  | add | sub | mul | div | rem | pow
  | eq | ne | lt | le | gt | ge
  | and | or
  | bitAnd | bitOr | bitXor | shl | shr
  | assign | addAssign | subAssign | mulAssign | divAssign | remAssign
  | bitAndAssign | bitOrAssign | bitXorAssign | shlAssign | shrAssign
deriving DecidableEq

/-- A unary operator. -/
inductive UnaryOp
  | neg | not | bitNot
deriving DecidableEq

/-- A literal; numbers are still the text they were written as. -/
inductive Literal
  | int (digits : String) (suffix : Option PrimitiveType)
  | float (text : String)
  | string (text : String)
  | byteString (bytes : List UInt8)
  | bool (b : Bool)
  | address (text : String)
deriving DecidableEq

/-! ## Types, expressions, patterns and statements

The size of an array type is an expression and a path in an expression can have
type arguments, so these are one family. A `TypePath` is the list of its
segments and a `Block` the list of its statements. -/

mutual

/-- **A type.** -/
inductive Ty
  | primitive (p : PrimitiveType)
  | path (segments : List PathSegment)
  | array (elem : Ty) (size : Expr)
  | slice (elem : Ty)
  | tuple (elems : List Ty)
  | mapping (key value : Ty)
  | option (inner : Ty)
  | result (ok err : Ty)
  | reference (inner : Ty) (isMut : Bool)
  | resource (inner : Ty) (abilities : List ResourceAbility)
  | function (params : List Ty) (ret : Option Ty)
  | infer
  | never
  | selfType

/-- A segment of a type path. -/
inductive PathSegment
  | mk (ident : String) (generics : Option (List Ty))

/-- **An expression.** -/
inductive Expr
  | literal (lit : Literal)
  | path (segments : List String)
  | binary (op : BinaryOp) (left right : Expr)
  | unary (op : UnaryOp) (operand : Expr)
  | call (callee : Expr) (args : List Expr)
  | methodCall (receiver : Expr) (method : String) (args : List Expr)
  | field (obj : Expr) (name : String)
  | index (array index : Expr)
  | cast (inner : Expr) (ty : Ty)
  | reference (inner : Expr) (isMut : Bool)
  | deref (inner : Expr)
  | block (stmts : List Stmt)
  | ifElse (cond : Expr) (thenBlock : List Stmt) (elseBranch : Option Expr)
  | matchArms (scrutinee : Expr) (arms : List MatchArm)
  | forIn (pattern : Pattern) (iter : Expr) (body : List Stmt)
  | whileLoop (cond : Expr) (body : List Stmt)
  | loop (body : List Stmt)
  | brk (value : Option Expr)
  | cont
  | ret (value : Option Expr)
  | tuple (elems : List Expr)
  | array (elems : List Expr)
  | arrayRepeat (elem count : Expr)
  | struct (path : List PathSegment) (fields : List FieldInit)
  | range (start stop : Option Expr) (inclusive : Bool)
  | closure (params : List ClosureParam) (body : Expr)
  | move (inner : Expr)
  | emit (path : List PathSegment) (fields : List FieldInit)
  | revert (path : List PathSegment) (fields : List FieldInit)
  | assert (cond : Expr) (message : Option Expr)
  | tryOp (inner : Expr)
  | paren (inner : Expr)
  | await (inner : Expr)

/-- A field of a literal; without a value it is shorthand. -/
inductive FieldInit
  | mk (name : String) (value : Option Expr)

/-- An arm of a match. -/
inductive MatchArm
  | mk (pattern : Pattern) (guard : Option Expr) (body : Expr)

/-- A parameter of a closure. -/
inductive ClosureParam
  | mk (pattern : Pattern) (ty : Option Ty)

/-- **A pattern.** -/
inductive Pattern
  | wildcard
  | ident (name : String) (isMut : Bool)
  | literal (lit : Literal)
  | tuple (elems : List Pattern)
  | struct (path : List PathSegment) (fields : List FieldPattern)
  | tupleStruct (path : List PathSegment) (elems : List Pattern)
  | or (alternatives : List Pattern)
  | ref (inner : Pattern) (isMut : Bool)
  | range (start stop : Pattern) (inclusive : Bool)
  | rest
  | path (path : List PathSegment)

/-- A field in a structure pattern. -/
inductive FieldPattern
  | mk (name : String) (pattern : Option Pattern)

/-- **A statement.** -/
inductive Stmt
  | letStmt (pattern : Pattern) (ty : Option Ty) (init : Option Expr) (isMutable : Bool)
  | expr (e : Expr)
  | semi (e : Expr)
  | empty

end

/-- A path to a type. -/
abbrev TypePath := List PathSegment

/-- A block. -/
abbrev Block := List Stmt

/-- The name in a segment. -/
def PathSegment.ident : PathSegment → String
  | mk ident _ => ident

/-- The value a field is given. -/
def FieldInit.value : FieldInit → Option Expr
  | mk _ value => value

/-! ## Items -/

/-- A field of a storage block. -/
structure StorageField where
  name : String
  ty : Ty

/-- A parameter. -/
structure Param where
  pattern : Pattern
  ty : Ty

/-- What a function declares about itself. -/
structure FunctionModifiers where
  isPure : Bool
  isView : Bool
  isPayable : Bool
deriving DecidableEq

/-- The signature of a function. -/
structure FunctionSig where
  modifiers : FunctionModifiers
  name : String
  params : List Param
  returnType : Option Ty

/-- A function. -/
structure FunctionDef where
  sig : FunctionSig
  body : Block

/-- A constructor. -/
structure ConstructorDef where
  params : List Param
  body : Block

/-- A field of a structure. -/
structure StructField where
  name : String
  ty : Ty

/-- A structure. -/
structure StructDef where
  name : String
  fields : List StructField

/-- The data of a variant. -/
inductive VariantFields
  | unit
  | tuple (types : List Ty)
  | struct (fields : List StructField)

/-- A variant of an enumeration. -/
structure EnumVariant where
  name : String
  fields : VariantFields

/-- An enumeration. -/
structure EnumDef where
  name : String
  variants : List EnumVariant

/-- A name for a type. -/
structure TypeAlias where
  name : String
  ty : Ty

/-- A constant. -/
structure ConstItem where
  name : String
  ty : Ty
  value : Expr

/-- What can stand in a contract. -/
inductive ContractItem
  | storage (fields : List StorageField)
  | event
  | error
  | modifier
  | function (f : FunctionDef)
  | constructor (c : ConstructorDef)
  | fallback
  | receive
  | const
  | struct (s : StructDef)
  | enum (e : EnumDef)

/-- A contract. -/
structure ContractDef where
  name : String
  items : List ContractItem

/-- **A top-level item.** -/
inductive Item
  | import_
  | contract (c : ContractDef)
  | interface
  | library
  | struct (s : StructDef)
  | enum (e : EnumDef)
  | typeAlias (t : TypeAlias)
  | const (c : ConstItem)
  | function (f : FunctionDef)

/-- **A source file.** -/
structure SourceFile where
  items : List Item

end Qfc.Qsc
