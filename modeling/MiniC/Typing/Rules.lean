import MiniC.Layout.Render
import MiniC.Syntax.Constant
import MiniC.Typing.Error
/-!
The typing rules of operators and assignments. They ask the registry and never change it.
-/
namespace MiniC.Typing

open Syntax (Expr ExprKind BinaryOp)

abbrev Verdict := Except TypingError

variable (r : Registry)

/-- Anything narrower than `int` becomes `int`. -/
def promote (t : TypeId) : TypeId :=
  match r.ty t with
  | .int bytes _ => if bytes < 4 then Registry.cInt else t
  | _ => t

/-- The common type of two integers: the wider one; of equally wide ones, the unsigned one. -/
def arithmeticType (left right : TypeId) : TypeId :=
  let l := promote r left
  let r' := promote r right
  match r.ty l, r.ty r' with
  | .int lb ls, .int rb rs =>
    if rb < lb then l else if lb < rb then r' else Registry.int lb (ls && rs)
  | _, _ => l

def invalidOperands (left right : TypeId) (span : Span) : TypingError :=
  .type (.invalidOperands (r.display left) (r.display right)) span

/-- A step of size zero goes nowhere. -/
def checkStep (pointer : TypeId) (span : Span) : Verdict Unit :=
  match r.pointee? pointer with
  | some target =>
    if r.sizeOf target = 0 then .error (.type (.zeroSizeStep (r.display target)) span) else .ok ()
  | none => .ok ()

/-- Arithmetic in which a pointer takes part. -/
def pointerType (op : BinaryOp) (left right : TypeId) (span : Span) : Verdict TypeId :=
  match op, r.isPointer left, r.isPointer right with
  | .add, true, false => (checkStep r left span).map fun _ => left
  | .add, false, true => (checkStep r right span).map fun _ => right
  | .sub, true, false => (checkStep r left span).map fun _ => left
  | .sub, true, true => (checkStep r left span).map fun _ => r.cLong true
  | _, _, _ => .error (invalidOperands r left right span)

def binaryType (op : BinaryOp) (left right : TypeId) (span : Span) : Verdict TypeId :=
  if !r.isScalar left || !r.isScalar right then .error (invalidOperands r left right span)
  else if op.isLogical || op.isComparison then .ok Registry.cInt
  else if r.isPointer left || r.isPointer right then pointerType r op left right span
  else
    match op with
    | .shl | .shr => .ok (promote r left)
    | _ => .ok (arithmeticType r left right)

def isZero (e : Expr) : Bool := e.constant? == some 0

def conditionalType (yes no : TypeId) (yesExpr noExpr : Expr) (span : Span) : Verdict TypeId :=
  if r.isInteger yes && r.isInteger no then .ok (arithmeticType r yes no)
  else if yes = no then .ok yes
  else if r.isPointer yes && isZero noExpr then .ok yes
  else if r.isPointer no && isZero yesExpr then .ok no
  else if r.isPointer yes && r.isPointer no then .ok yes
  else .error (.type (.branchesDiffer (r.display yes) (r.display no)) span)

/-- A value may be stored into an object of its own type; integers and pointers convert among
themselves, and zero is a pointer. -/
def isAssignable (target value : TypeId) (e : Expr) : Bool :=
  target == value
    || (r.isInteger target && r.isInteger value)
    || (r.isPointer target && r.isPointer value)
    || (r.isPointer target && r.isInteger value && isZero e)

def checkAssignable (target value : TypeId) (e : Expr) : Verdict Unit :=
  if isAssignable r target value e then .ok ()
  else if r.isStruct target && r.isStruct value then
    .error (.type (.assignStruct (r.display target) (r.display value)) e.span)
  else .error (.type (.assignValue (r.display target) (r.display value)) e.span)

def checkScalar (t : TypeId) (span : Span) : Verdict Unit :=
  if r.isScalar t then .ok () else .error (.type (.operandNotScalar (r.display t)) span)

def checkCondition (t : TypeId) (span : Span) : Verdict Unit :=
  if r.isScalar t then .ok () else .error (.type (.conditionNotScalar (r.display t)) span)

def unaryType (op : Syntax.UnaryOp) (t : TypeId) (operandSpan span : Span) : Verdict TypeId :=
  match op with
  | .not => (checkScalar r t operandSpan).map fun _ => Registry.cInt
  | .neg | .bitNot =>
    if r.isInteger t then .ok (promote r t)
    else .error (.type (.unaryOperand (r.display t)) span)

/-- The check on a compound assignment, whose type is that of its target. -/
def checkCompound (op : BinaryOp) (target value : TypeId) (span : Span) : Verdict Unit :=
  if r.isPointer target then
    if (op == .add || op == .sub) && r.isInteger value then checkStep r target span
    else .error (invalidOperands r target value span)
  else if r.isInteger target then (binaryType r op target value span).map fun _ => ()
  else .error (invalidOperands r target value span)

def elementType (base : TypeId) (span : Span) : Verdict TypeId :=
  match r.element? base with
  | some element =>
    if r.isVoid element then .error (.type .voidSubscript span) else .ok element
  | none => .error (.layout (.indexOnNonArray (r.display base) span))

def memberOf (object : TypeId) (field : String) (span : Span) : Verdict MemberRef :=
  match r.member object field with
  | .ok m => .ok m
  | .error e => .error (.ofLayout e span)

def pointerMemberOf (pointer : TypeId) (field : String) (span : Span) : Verdict MemberRef :=
  match r.pointee? pointer with
  | some target => memberOf r target field span
  | none =>
    let type := r.display pointer
    if r.isStruct pointer then .error (.type (.arrowOnStruct type) span)
    else .error (.layout (.notAStruct type span))

def derefType (t : TypeId) (span : Span) : Verdict TypeId :=
  match r.pointee? t with
  | some target => if r.isVoid target then .error (.type .derefVoid span) else .ok target
  | none => .error (.type (.derefNonPointer (r.display t)) span)

def checkCast (target source : TypeId) (operandSpan span : Span) : Verdict TypeId :=
  if r.isVoid target then .ok target
  else if r.isScalar target then (checkScalar r source operandSpan).map fun _ => target
  else .error (.type (.castTarget (r.display target)) span)

def queryOperator : Syntax.SizeQuery → String
  | .size => "sizeof"
  | .align => "_Alignof"

def checkQuery (q : Syntax.SizeQuery) (t : TypeId) (span : Span) : Verdict Nat :=
  if r.isVoid t then .error (.type (.queryVoid (queryOperator q)) span)
  else
    match q with
    | .size => .ok (r.sizeOf t)
    | .align => .ok (r.alignOf t)

/-- Small literals are `int`, all others `long long`. -/
def integerType (value : Int64) : TypeId :=
  if Access.truncate ⟨4, true⟩ value = value then Registry.cInt else Registry.int 8 true

mutual

def isLvalue : Expr → Bool
  | ⟨kind, _, _⟩ => isLvalueKind kind

/-- A member is an object when what it is a member of is one. -/
def isLvalueKind : ExprKind → Bool
  | .name _ | .index .. | .pointerMember .. | .deref _ => true
  | .member object _ _ => isLvalue object
  | _ => false

end

end MiniC.Typing
