import MiniC.CompileError
/-!
What keeps a tree from being lowered. Analysis leaves no tree that has any of this.
-/
namespace MiniC

inductive LoweringError where
  | untyped (span : Span)
  | unresolved (name : String)
  | unresolvedMember
  | notLvalue (span : Span)
  /-- A struct, array or void, by its display, as the target of a scalar store. -/
  | notScalar (ty : String)
  | notConstant
  | aggregateFromScalar
  | indirectCall
  | sizeQuery
  deriving DecidableEq, Repr, Inhabited

namespace LoweringError

def message : LoweringError → String
  | untyped span => s!"expression at {span.describe} has no type"
  | unresolved name => s!"{name} has no resolved type"
  | unresolvedMember => "unresolved member access"
  | notLvalue span => s!"expression at {span.describe} is not an lvalue"
  | notScalar ty => s!"cannot store a scalar into '{ty}'"
  | notConstant => "non-constant expression in global initializer"
  | aggregateFromScalar => "global initializer for a non-scalar object"
  | indirectCall => "indirect calls are not supported"
  | sizeQuery => "size query was not folded during analysis"

def toCompileError (e : LoweringError) : CompileError := .codegen e.message

end LoweringError
end MiniC
