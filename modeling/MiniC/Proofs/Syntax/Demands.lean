import MiniC.Proofs.Syntax.Scoped
import MiniC.Syntax.Parser.Basic
/-!
What can be asked of a tree: something of each of its expressions, of each place it names, and of the
names of its variables. The height of an expression is the number of expressions on the longest way
down from it that enters no block.
-/
namespace MiniC.Syntax

mutual

def Expr.height : Expr → Nat
  | ⟨kind, _, _⟩ => kind.height

def ExprKind.height : ExprKind → Nat
  | .integer _ | .character _ | .string _ | .name _ | .typeQuery .. | .block _ => 1
  | .binary _ left right => max left.height right.height + 1
  | .unary _ operand => operand.height + 1
  | .assign _ target source => max target.height source.height + 1
  | .conditional cond yes no => max cond.height (max yes.height no.height) + 1
  | .call callee args => max callee.height (heights args) + 1
  | .index array index => max array.height index.height + 1
  | .member object _ _ => object.height + 1
  | .pointerMember pointer _ _ => pointer.height + 1
  | .cast _ operand => operand.height + 1
  | .query _ operand => operand.height + 1
  | .addressOf operand => operand.height + 1
  | .deref operand => operand.height + 1
  | .step operand _ _ => operand.height + 1
  | .comma items => heights items + 1

def heights : List Expr → Nat
  | [] => 0
  | e :: es => max e.height (heights es)

end

theorem Expr.height_eq (e : Expr) : e.height = e.kind.height := by
  cases e
  rfl

theorem heights_le_iff {es : List Expr} {n : Nat} : heights es ≤ n ↔ ∀ e ∈ es, e.height ≤ n := by
  induction es with
  | nil => simp [heights]
  | cons e es ih => rw [heights, Nat.max_le, ih, List.forall_mem_cons]

/-- A token that is a string. -/
def stringStep (part : String × Span) : Lexer.Step := .ok ⟨.string part.1, part.2⟩

/-- Strings that are read one behind the other, up to something else. -/
def Adjacent (steps : List Lexer.Step) (parts : List (String × Span)) : Prop :=
  parts ≠ [] ∧ ∃ before after, steps = before ++ (parts.map stringStep ++ after) ∧
    ∀ part rest, after ≠ stringStep part :: rest

structure Demands where
  node : Expr → Prop
  place : Span → Prop
  /-- What the source may be read as. -/
  read : List Lexer.Step → Prop
  name : String → Prop

namespace Demands

variable (D : Demands)

/-- Adjacent strings of the source make a text. -/
def joins (text : String) : Prop :=
  ∃ steps parts, D.read steps ∧ Adjacent steps parts ∧ text = String.join (parts.map (·.1))

mutual

def type : TypeExpr → Prop
  | ⟨kind, _, span⟩ => D.place span ∧ typeKind kind

def typeKind : TypeKind → Prop
  | .void | .int .. => True
  | .pointer inner => type inner
  | .array element _ => type element
  | .struct s => spec s

def spec : StructSpec → Prop
  | ⟨_, _, ms, span⟩ => D.place span ∧ members? ms

def members? : Option (List StructMember) → Prop
  | none => True
  | some ms => members ms

def members : List StructMember → Prop
  | [] => True
  | m :: ms => member m ∧ members ms

def member : StructMember → Prop
  | ⟨_, ty, span⟩ => D.place span ∧ type ty

end

mutual

def expr : Expr → Prop
  | ⟨kind, span, ty⟩ => D.place span ∧ D.node ⟨kind, span, ty⟩ ∧ exprKind kind

def exprKind : ExprKind → Prop
  | .integer _ | .character _ | .string _ | .name _ => True
  | .binary _ left right => expr left ∧ expr right
  | .unary _ operand => expr operand
  | .assign _ target source => expr target ∧ expr source
  | .conditional cond yes no => expr cond ∧ expr yes ∧ expr no
  | .call callee args => expr callee ∧ exprs args
  | .index array index => expr array ∧ expr index
  | .member object _ _ => expr object
  | .pointerMember pointer _ _ => expr pointer
  | .cast ty operand => D.type ty ∧ expr operand
  | .query _ operand => expr operand
  | .typeQuery _ ty => D.type ty
  | .addressOf operand => expr operand
  | .deref operand => expr operand
  | .step operand _ _ => expr operand
  | .comma items => exprs items
  | .block b => block b

def exprs : List Expr → Prop
  | [] => True
  | e :: es => expr e ∧ exprs es

def block : Block → Prop
  | ⟨items, span⟩ => D.place span ∧ blockItems items

def blockItems : List BlockItem → Prop
  | [] => True
  | i :: is => blockItem i ∧ blockItems is

def blockItem : BlockItem → Prop
  | .statement s => stmt s
  | .declaration d => declaration d

def stmt : Stmt → Prop
  | ⟨kind, span⟩ => D.place span ∧ stmtKind kind

def stmtKind : StmtKind → Prop
  | .expr e => expr e
  | .empty | .break_ | .continue_ => True
  | .block b => block b
  | .if_ cond yes no => expr cond ∧ stmt yes ∧ stmt? no
  | .loop _ init cond update body => loopInit? init ∧ expr? cond ∧ expr? update ∧ stmt body
  | .return_ e => expr? e

def stmt? : Option Stmt → Prop
  | none => True
  | some s => stmt s

def expr? : Option Expr → Prop
  | none => True
  | some e => expr e

def loopInit? : Option LoopInit → Prop
  | none => True
  | some i => loopInit i

def loopInit : LoopInit → Prop
  | .expr e => expr e
  | .declaration d => declaration d

def declaration : Declaration → Prop
  | ⟨kind, span⟩ => D.place span ∧ declKind kind

def declKind : DeclKind → Prop
  | .vars vars => varDecls vars
  | .struct s => D.spec s

def varDecls : List VarDecl → Prop
  | [] => True
  | v :: vs => varDecl v ∧ varDecls vs

def varDecl : VarDecl → Prop
  | ⟨name, ty, init, span, _⟩ => D.name name ∧ D.place span ∧ D.type ty ∧ initializer? init

def initializer? : Option Initializer → Prop
  | none => True
  | some i => initializer i

def initializer : Initializer → Prop
  | .expr e => expr e
  | .list items span => D.place span ∧ initializers items

def initializers : List Initializer → Prop
  | [] => True
  | i :: is => initializer i ∧ initializers is

end

def param (p : ParamDecl) : Prop := D.place p.span ∧ D.type p.ty

def function (f : FuncDecl) : Prop :=
  D.place f.span ∧ D.type f.returns ∧ (∀ p ∈ f.params, D.param p) ∧ ∀ b ∈ f.body, D.block b

def topDecl : TopDecl → Prop
  | .declaration d => D.declaration d
  | .function f => D.function f

def unit (u : CompilationUnit) : Prop := ∀ d ∈ u.decls, D.topDecl d

theorem type_iff {ty : TypeExpr} : D.type ty ↔ D.place ty.span ∧ D.typeKind ty.kind := by
  cases ty
  rw [type]

theorem expr_iff {e : Expr} : D.expr e ↔ D.place e.span ∧ D.node e ∧ D.exprKind e.kind := by
  cases e
  rw [expr]

/-! A list meets what is asked if each of its items does. -/

theorem members_iff {ms : List StructMember} : D.members ms ↔ ∀ m ∈ ms, D.member m := by
  induction ms with
  | nil => simp [members]
  | cons m ms ih => rw [members, ih, List.forall_mem_cons]

theorem exprs_iff {es : List Expr} : D.exprs es ↔ ∀ e ∈ es, D.expr e := by
  induction es with
  | nil => simp [exprs]
  | cons e es ih => rw [exprs, ih, List.forall_mem_cons]

theorem blockItems_iff {is : List BlockItem} : D.blockItems is ↔ ∀ i ∈ is, D.blockItem i := by
  induction is with
  | nil => simp [blockItems]
  | cons i is ih => rw [blockItems, ih, List.forall_mem_cons]

theorem varDecls_iff {vs : List VarDecl} : D.varDecls vs ↔ ∀ v ∈ vs, D.varDecl v := by
  induction vs with
  | nil => simp [varDecls]
  | cons v vs ih => rw [varDecls, ih, List.forall_mem_cons]

theorem initializers_iff {is : List Initializer} :
    D.initializers is ↔ ∀ i ∈ is, D.initializer i := by
  induction is with
  | nil => simp [initializers]
  | cons i is ih => rw [initializers, ih, List.forall_mem_cons]

end Demands

end MiniC.Syntax
