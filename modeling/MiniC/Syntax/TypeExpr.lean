import MiniC.Source.Span
/-!
Types as they are written. Nothing here knows of sizes; a struct specifier has a number of its own,
so that all declarators of one declaration share what it means.
-/
namespace MiniC.Syntax

inductive IntWidth where
  | char | short | int | long | longLong
  deriving DecidableEq, Repr, Inhabited

structure Qualifiers where
  isConst : Bool := false
  isVolatile : Bool := false
  deriving DecidableEq, Repr, Inhabited

mutual

structure TypeExpr where
  kind : TypeKind
  qualifiers : Qualifiers
  span : Span

inductive TypeKind where
  | void
  | int (width : IntWidth) (signed : Bool)
  | pointer (inner : TypeExpr)
  /-- Without a size, the initializer gives it. -/
  | array (element : TypeExpr) (size : Option Nat)
  | struct (spec : StructSpec)

/-- Without members, the specifier refers to a tag. -/
structure StructSpec where
  id : Nat
  name : Option String
  members : Option (List StructMember)
  span : Span

structure StructMember where
  name : String
  ty : TypeExpr
  span : Span

end

instance : Inhabited TypeKind := ⟨.void⟩
instance : Inhabited TypeExpr := ⟨⟨.void, {}, Span.nowhere⟩⟩
instance : Inhabited StructSpec := ⟨⟨0, none, none, Span.nowhere⟩⟩
instance : Inhabited StructMember := ⟨⟨"", default, Span.nowhere⟩⟩

namespace TypeExpr

def pointerTo (inner : TypeExpr) (qualifiers : Qualifiers) (span : Span) : TypeExpr :=
  ⟨.pointer inner, qualifiers, span⟩

def arrayOf (element : TypeExpr) (size : Option Nat) (span : Span) : TypeExpr :=
  ⟨.array element size, {}, span⟩

def isVoid (t : TypeExpr) : Bool :=
  match t.kind with | .void => true | _ => false

def isArray (t : TypeExpr) : Bool :=
  match t.kind with | .array .. => true | _ => false

end TypeExpr
end MiniC.Syntax
