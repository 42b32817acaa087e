import MiniC.Syntax.Tree
import MiniC.Text.Outline
import MiniC.Text.Quoted
/-!
Outlines of syntax trees, with every span and annotation.
-/
namespace MiniC

open Text (Outline)

def Span.outline (s : Span) : Outline :=
  .record "Span" [("start", .nat s.start), ("end", .nat s.stop)]

def TypeId.outline (t : TypeId) : Outline := .tuple "TypeId" [.nat t.index]

def MemberRef.outline (m : MemberRef) : Outline :=
  .record "ResolvedMember" [("ty", m.ty.outline), ("offset", .nat m.offset)]

namespace Syntax

def quoted (s : String) : Outline := .atom (Text.quote s)

def IntWidth.dumpName : IntWidth → String
  | char => "Char"
  | short => "Short"
  | int => "Int"
  | long => "Long"
  | longLong => "LongLong"

def Qualifiers.outline (q : Qualifiers) : Outline :=
  .record "TypeQualifiers" [("is_const", .bool q.isConst), ("is_volatile", .bool q.isVolatile)]

mutual

def TypeExpr.outline : TypeExpr → Outline
  | ⟨kind, qualifiers, span⟩ =>
    .record "CType"
      [("kind", kind.outline), ("qualifiers", qualifiers.outline), ("span", span.outline)]

def TypeKind.outline : TypeKind → Outline
  | .void => .atom "Void"
  | .int width signed => .record width.dumpName [("signed", .bool signed)]
  | .pointer inner => .tuple "Pointer" [inner.outline]
  | .array element size =>
    .record "Array" [("element", element.outline), ("size", .option (size.map .nat))]
  | .struct spec => .tuple "Struct" [spec.outline]

def StructSpec.outline : StructSpec → Outline
  | ⟨id, name, members, span⟩ =>
    .record "StructSpec"
      [("id", .tuple "StructSpecId" [.nat id]), ("name", .option (name.map quoted)),
        ("members", .option (membersOutline members)), ("span", span.outline)]

def membersOutline : Option (List StructMember) → Option Outline
  | none => none
  | some ms => some (.list (memberOutlines ms))

def memberOutlines : List StructMember → List Outline
  | [] => []
  | m :: ms => m.outline :: memberOutlines ms

def StructMember.outline : StructMember → Outline
  | ⟨name, ty, span⟩ =>
    .record "StructMember" [("name", quoted name), ("ty", ty.outline), ("span", span.outline)]

end

def BinaryOp.dumpName : BinaryOp → String
  | add => "Add" | sub => "Sub" | mul => "Mul" | div => "Div" | mod => "Mod"
  | bitAnd => "BitAnd" | bitOr => "BitOr" | bitXor => "BitXor" | shl => "Shl" | shr => "Shr"
  | logAnd => "LogAnd" | logOr => "LogOr"
  | eq => "Eq" | ne => "Ne" | lt => "Lt" | le => "Le" | gt => "Gt" | ge => "Ge"

def UnaryOp.dumpName : UnaryOp → String
  | neg => "Neg"
  | not => "Not"
  | bitNot => "BitNot"

def SizeQuery.dumpName : SizeQuery → String
  | size => "Sizeof"
  | align => "Alignof"

def LoopKind.dumpName : LoopKind → String
  | while_ => "While"
  | doWhile => "DoWhile"
  | for_ => "For"

mutual

def Expr.outline : Expr → Outline
  | ⟨kind, span, ty⟩ =>
    .record "Expr"
      [("kind", kind.outline), ("span", span.outline), ("ty", .option (ty.map TypeId.outline))]

def ExprKind.outline : ExprKind → Outline
  | .integer value => .tuple "IntLiteral" [.atom (toString value.toInt)]
  | .character value => .tuple "CharLiteral" [.nat value.toNat]
  | .string text => .tuple "StringLiteral" [quoted text]
  | .name name => .tuple "Identifier" [quoted name]
  | .binary op left right =>
    .record "Binary"
      [("op", .atom op.dumpName), ("left", left.outline), ("right", right.outline)]
  | .unary op operand =>
    .record "Unary" [("op", .atom op.dumpName), ("operand", operand.outline)]
  | .assign op target value =>
    .record "Assign"
      [("op", .option (op.map fun op => .atom op.dumpName)), ("target", target.outline),
        ("value", value.outline)]
  | .conditional condition yes no =>
    .record "Ternary"
      [("condition", condition.outline), ("then_expr", yes.outline), ("else_expr", no.outline)]
  | .call callee args =>
    .record "Call" [("callee", callee.outline), ("args", .list (exprOutlines args))]
  | .index array index =>
    .record "Index" [("array", array.outline), ("index", index.outline)]
  | .member object field resolved =>
    .record "Member"
      [("object", object.outline), ("field", quoted field),
        ("resolved", .option (resolved.map MemberRef.outline))]
  | .pointerMember pointer field resolved =>
    .record "PtrMember"
      [("pointer", pointer.outline), ("field", quoted field),
        ("resolved", .option (resolved.map MemberRef.outline))]
  | .cast ty operand => .record "Cast" [("ty", ty.outline), ("expr", operand.outline)]
  | .query query operand => .tuple query.dumpName [.tuple "Expr" [operand.outline]]
  | .typeQuery query ty => .tuple query.dumpName [.tuple "Type" [ty.outline]]
  | .addressOf operand => .tuple "AddrOf" [operand.outline]
  | .deref operand => .tuple "Deref" [operand.outline]
  | .step operand decrement yieldsOld =>
    .record "Step"
      [("operand", operand.outline), ("decrement", .bool decrement), ("postfix", .bool yieldsOld)]
  | .comma items => .tuple "Comma" [.list (exprOutlines items)]
  | .block block => .tuple "StmtExpr" [block.outline]

def exprOutlines : List Expr → List Outline
  | [] => []
  | e :: es => e.outline :: exprOutlines es

def exprOutline? : Option Expr → Outline
  | none => .option none
  | some e => .option (some e.outline)

def Block.outline : Block → Outline
  | ⟨items, span⟩ =>
    .record "Block" [("items", .list (itemOutlines items)), ("span", span.outline)]

def itemOutlines : List BlockItem → List Outline
  | [] => []
  | i :: is => i.outline :: itemOutlines is

def BlockItem.outline : BlockItem → Outline
  | .statement s => .tuple "Statement" [s.outline]
  | .declaration d => .tuple "Declaration" [d.outline]

def Stmt.outline : Stmt → Outline
  | ⟨kind, span⟩ => .record "Stmt" [("kind", kind.outline), ("span", span.outline)]

def StmtKind.outline : StmtKind → Outline
  | .expr e => .tuple "Expr" [e.outline]
  | .empty => .atom "Empty"
  | .block b => .tuple "Block" [b.outline]
  | .if_ condition yes no =>
    .record "If"
      [("condition", condition.outline), ("then_branch", yes.outline),
        ("else_branch", stmtOutline? no)]
  | .loop kind init condition update body =>
    .tuple "Loop" [.record "Loop"
      [("kind", .atom kind.dumpName), ("init", initOutline? init),
        ("condition", exprOutline? condition), ("update", exprOutline? update),
        ("body", body.outline)]]
  | .break_ => .atom "Break"
  | .continue_ => .atom "Continue"
  | .return_ value => .tuple "Return" [exprOutline? value]

def stmtOutline? : Option Stmt → Outline
  | none => .option none
  | some s => .option (some s.outline)

def initOutline? : Option LoopInit → Outline
  | none => .option none
  | some i => .option (some i.outline)

def LoopInit.outline : LoopInit → Outline
  | .expr e => .tuple "Expr" [e.outline]
  | .declaration d => .tuple "Declaration" [d.outline]

def Declaration.outline : Declaration → Outline
  | ⟨kind, span⟩ => .record "Declaration" [("kind", kind.outline), ("span", span.outline)]

def DeclKind.outline : DeclKind → Outline
  | .vars vars =>
    match varOutlines vars with
    | [single] => .tuple "Variable" [single]
    | several => .tuple "MultipleVariables" [.list several]
  | .struct spec => .tuple "Struct" [spec.outline]

def varOutlines : List VarDecl → List Outline
  | [] => []
  | v :: vs => v.outline :: varOutlines vs

def VarDecl.outline : VarDecl → Outline
  | ⟨name, ty, init, span, resolved⟩ =>
    .record "VarDecl"
      [("name", quoted name), ("ty", ty.outline), ("init", initializerOutline? init),
        ("span", span.outline), ("resolved", .option (resolved.map TypeId.outline))]

def initializerOutline? : Option Initializer → Outline
  | none => .option none
  | some i => .option (some i.outline)

def Initializer.outline : Initializer → Outline
  | .expr e => .tuple "Expr" [e.outline]
  | .list items span => .tuple "List" [.list (initializerOutlines items), span.outline]

def initializerOutlines : List Initializer → List Outline
  | [] => []
  | i :: is => i.outline :: initializerOutlines is

end

def ParamDecl.outline (p : ParamDecl) : Outline :=
  .record "ParamDecl"
    [("name", .option (p.name.map quoted)), ("ty", p.ty.outline), ("span", p.span.outline),
      ("resolved", .option (p.resolved.map TypeId.outline))]

def FuncDecl.outline (f : FuncDecl) : Outline :=
  .record "FuncDecl"
    [("name", quoted f.name), ("return_type", f.returns.outline),
      ("params", .list (f.params.map ParamDecl.outline)), ("variadic", .bool f.variadic),
      ("body", .option (f.body.map Block.outline)), ("span", f.span.outline),
      ("resolved_return", .option (f.resolvedReturn.map TypeId.outline))]

def TopDecl.outline : TopDecl → Outline
  | declaration d => d.outline
  | function f =>
    .record "Declaration"
      [("kind", .tuple "Function" [f.outline]), ("span", f.span.outline)]

def CompilationUnit.outline (u : CompilationUnit) : Outline :=
  .record "TranslationUnit" [("declarations", .list (u.decls.map TopDecl.outline))]

def CompilationUnit.dump (u : CompilationUnit) : String := u.outline.render

end Syntax
end MiniC
