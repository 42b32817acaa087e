import MiniC.Layout.Member
import MiniC.Syntax.TypeExpr
/-!
Syntax trees. The parser leaves types and members of expressions open; analysis fills them in.
-/
namespace MiniC.Syntax

inductive BinaryOp where
  | add | sub | mul | div | mod
  | bitAnd | bitOr | bitXor | shl | shr
  | logAnd | logOr
  | eq | ne | lt | le | gt | ge
  deriving DecidableEq, Repr, Inhabited

def BinaryOp.isComparison : BinaryOp → Bool
  | eq | ne | lt | le | gt | ge => true
  | _ => false

def BinaryOp.isLogical : BinaryOp → Bool
  | logAnd | logOr => true
  | _ => false

inductive UnaryOp where
  | neg | not | bitNot
  deriving DecidableEq, Repr, Inhabited

/-- What is asked of a type. -/
inductive SizeQuery where
  | size | align
  deriving DecidableEq, Repr, Inhabited

inductive LoopKind where
  | while_ | doWhile | for_
  deriving DecidableEq, Repr, Inhabited

mutual

structure Expr where
  kind : ExprKind
  span : Span
  ty : Option TypeId

inductive ExprKind where
  | integer (value : Int64)
  | character (value : UInt8)
  | string (text : String)
  | name (name : String)
  | binary (op : BinaryOp) (left right : Expr)
  | unary (op : UnaryOp) (operand : Expr)
  /-- With an operator, a compound assignment. -/
  | assign (op : Option BinaryOp) (target value : Expr)
  | conditional (condition yes no : Expr)
  | call (callee : Expr) (args : List Expr)
  | index (array index : Expr)
  | member (object : Expr) (field : String) (resolved : Option MemberRef)
  | pointerMember (pointer : Expr) (field : String) (resolved : Option MemberRef)
  | cast (ty : TypeExpr) (operand : Expr)
  | query (query : SizeQuery) (operand : Expr)
  | typeQuery (query : SizeQuery) (ty : TypeExpr)
  | addressOf (operand : Expr)
  | deref (operand : Expr)
  /-- An increment or decrement, which yields the value before or after it. -/
  | step (operand : Expr) (decrement yieldsOld : Bool)
  | comma (items : List Expr)
  | block (block : Block)

structure Block where
  items : List BlockItem
  span : Span

inductive BlockItem where
  | statement (s : Stmt)
  | declaration (d : Declaration)

structure Stmt where
  kind : StmtKind
  span : Span

inductive StmtKind where
  | expr (e : Expr)
  | empty
  | block (b : Block)
  | if_ (condition : Expr) (yes : Stmt) (no : Option Stmt)
  /-- All loops have one shape. Without a condition the loop goes on for ever; only a loop of kind
  `for_` has a first clause and an update. -/
  | loop (kind : LoopKind) (init : Option LoopInit) (condition update : Option Expr) (body : Stmt)
  | break_
  | continue_
  | return_ (value : Option Expr)

inductive LoopInit where
  | expr (e : Expr)
  | declaration (d : Declaration)

structure Declaration where
  kind : DeclKind
  span : Span

inductive DeclKind where
  | vars (vars : List VarDecl)
  | struct (spec : StructSpec)

structure VarDecl where
  name : String
  ty : TypeExpr
  init : Option Initializer
  span : Span
  resolved : Option TypeId

inductive Initializer where
  | expr (e : Expr)
  | list (items : List Initializer) (span : Span)

end

structure ParamDecl where
  name : Option String
  ty : TypeExpr
  span : Span
  resolved : Option TypeId

structure FuncDecl where
  name : String
  returns : TypeExpr
  params : List ParamDecl
  variadic : Bool
  body : Option Block
  span : Span
  resolvedReturn : Option TypeId

/-- What stands at file scope. -/
inductive TopDecl where
  | declaration (d : Declaration)
  | function (f : FuncDecl)

structure CompilationUnit where
  decls : List TopDecl

instance : Inhabited Expr := ⟨⟨.integer 0, Span.nowhere, none⟩⟩
instance : Inhabited Stmt := ⟨⟨.empty, Span.nowhere⟩⟩
instance : Inhabited Block := ⟨⟨[], Span.nowhere⟩⟩
instance : Inhabited Declaration := ⟨⟨.vars [], Span.nowhere⟩⟩
instance : Inhabited TopDecl := ⟨.declaration default⟩
instance : Inhabited CompilationUnit := ⟨⟨[]⟩⟩

/-- An expression whose type is not known yet. -/
def Expr.untyped (kind : ExprKind) (span : Span) : Expr := ⟨kind, span, none⟩

def Initializer.span : Initializer → Span
  | expr e => e.span
  | list _ span => span

/-- The expression statement that ends a block gives a block expression its value. -/
def Block.trailing? (b : Block) : Option Expr :=
  match b.items.getLast? with
  | some (.statement ⟨.expr e, _⟩) => some e
  | _ => none

def FuncDecl.isDefinition (f : FuncDecl) : Bool := f.body.isSome

/-- A loop that is not a do-while tests before its first round. -/
def LoopKind.testsFirst : LoopKind → Bool
  | doWhile => false
  | _ => true

end MiniC.Syntax
