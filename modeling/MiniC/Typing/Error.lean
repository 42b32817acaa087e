import MiniC.CompileError
import MiniC.Typing.Scope
/-!
What analysis can object to: names used against the rules, types that do not fit, and layouts that
do not exist. Types appear in messages as they are spelled.
-/
namespace MiniC.Typing

inductive NameCause where
  | scope (error : ScopeError)
  | unknownStruct (name : String)
  | forwardStruct (name : String)
  | notConstant
  | structReturn
  | unnamedParameter
  | builtinRedefined (name : String)
  | functionRedefined (name : String)
  | otherKind (name : String)
  | breakOutsideLoop
  | continueOutsideLoop
  | returnOutsideFunction
  | undeclared (name : String)
  | undeclaredFunction (name : String)
  | structPastParameters
  deriving DecidableEq, Repr, Inhabited

def NameCause.message : NameCause → String
  | scope e => e.message
  | unknownStruct name => s!"unknown struct '{name}'"
  | forwardStruct name => s!"forward declaration of 'struct {name}' is not supported"
  | notConstant => "initializer element is not a compile-time constant"
  | structReturn => "returning a struct by value is not supported"
  | unnamedParameter => "parameter name omitted"
  | builtinRedefined name => s!"redefinition of builtin function '{name}'"
  | functionRedefined name => s!"redefinition of '{name}'"
  | otherKind name => s!"redefinition of '{name}' as a different kind of symbol"
  | breakOutsideLoop => "'break' statement not in loop"
  | continueOutsideLoop => "'continue' statement not in loop"
  | returnOutsideFunction => "return outside of a function"
  | undeclared name => s!"use of undeclared identifier '{name}'"
  | undeclaredFunction name => s!"call to undeclared function '{name}'"
  | structPastParameters => "passing a struct through '...' is not supported"

inductive TypeCause where
  | incompleteArray
  | voidElement
  | voidMember (name : String)
  | voidVariable (name : String)
  | voidParameter
  | arrayNeedsList
  | stringTooLong
  | excessInArray
  | excessInStruct
  | scalarList
  | arrayReturn
  | conflicting (name : String)
  | valueFromVoid
  | conditionNotScalar (type : String)
  | functionAsValue (name : String)
  | unaryOperand (type : String)
  | notAssignable
  | arrayNotAssignable (type : String)
  | subscriptNotInteger
  | voidSubscript
  | arrowOnStruct (type : String)
  | castTarget (type : String)
  | addressOfRvalue
  | derefVoid
  | derefNonPointer (type : String)
  | queryVoid (operator : String)
  | calledNonFunction
  | calledObject (type : String)
  | argumentCount (expected got : Nat)
  | branchesDiffer (yes no : String)
  | assignStruct (target value : String)
  | assignValue (target value : String)
  | zeroSizeStep (type : String)
  | operandNotScalar (type : String)
  | invalidOperands (left right : String)
  deriving DecidableEq, Repr, Inhabited

def TypeCause.message : TypeCause → String
  | incompleteArray => "array has incomplete type; a size or initializer is required"
  | voidElement => "array has incomplete element type 'void'"
  | voidMember name => s!"member '{name}' has incomplete type 'void'"
  | voidVariable name => s!"variable '{name}' has incomplete type 'void'"
  | voidParameter => "parameter has incomplete type 'void'"
  | arrayNeedsList => "array initializer must be an initializer list"
  | stringTooLong => "initializer-string for char array is too long"
  | excessInArray => "excess elements in array initializer"
  | excessInStruct => "excess elements in struct initializer"
  | scalarList => "scalar initializer must contain exactly one element"
  | arrayReturn => "function cannot return array type"
  | conflicting name => s!"conflicting types for '{name}'"
  | valueFromVoid => "void function should not return a value"
  | conditionNotScalar type => s!"statement requires expression of scalar type ('{type}' invalid)"
  | functionAsValue name => s!"function '{name}' can only be called"
  | unaryOperand type => s!"invalid argument type '{type}' to unary expression"
  | notAssignable => "expression is not assignable"
  | arrayNotAssignable type => s!"array type '{type}' is not assignable"
  | subscriptNotInteger => "array subscript is not an integer"
  | voidSubscript => "subscript of pointer to incomplete type 'void'"
  | arrowOnStruct type =>
    s!"member reference type '{type}' is not a pointer; did you mean to use '.'?"
  | castTarget type => s!"cannot cast to non-scalar type '{type}'"
  | addressOfRvalue => "cannot take the address of an rvalue"
  | derefVoid => "dereferencing 'void *' pointer"
  | derefNonPointer type => s!"indirection requires pointer operand ('{type}' invalid)"
  | queryVoid operator => s!"invalid application of '{operator}' to an incomplete type 'void'"
  | calledNonFunction => "called object is not a function"
  | calledObject type => s!"called object type '{type}' is not a function"
  | argumentCount expected got =>
    let which := if got < expected then "few" else "many"
    s!"too {which} arguments to function call, expected {expected}, have {got}"
  | branchesDiffer yes no => s!"incompatible operand types ('{yes}' and '{no}')"
  | assignStruct target value =>
    s!"assigning to '{target}' from incompatible struct type '{value}'"
  | assignValue target value => s!"assigning to '{target}' from incompatible type '{value}'"
  | zeroSizeStep type => s!"arithmetic on a pointer to '{type}' with size zero"
  | operandNotScalar type =>
    s!"operand of type '{type}' where arithmetic or pointer type is required"
  | invalidOperands left right =>
    s!"invalid operands to binary expression ('{left}' and '{right}')"

inductive TypingError where
  | name (cause : NameCause) (span : Span)
  | type (cause : TypeCause) (span : Span)
  | layout (error : LayoutError)
  deriving DecidableEq, Repr, Inhabited

def TypingError.toCompileError : TypingError → CompileError
  | name cause span => .semantic cause.message span
  | type cause span => .type cause.message span
  | layout e => .layout e

/-- A layout error is placed at the construct that asked for the layout. -/
def TypingError.ofLayout (e : LayoutError) (span : Span) : TypingError := .layout (e.place span)

end MiniC.Typing
