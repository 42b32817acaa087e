import MiniC.Lowering.Emit
import MiniC.Syntax.Tree
/-!
Arithmetic on typed operands. A result is reduced to the width of its type, a comparison reads its
operands by their own types, and an integer added to a pointer counts objects.
-/
namespace MiniC.Lowering

open Code

/-- Reduces a value to the width of a scalar type; a constant is reduced at once. -/
def convert (r : Registry) (v : Operand) (ty : TypeId) : Lower Operand :=
  match r.access? ty with
  | none => return v
  | some access =>
    if 8 ≤ access.size then return v
    else
      match v with
      | .const n => return .const (access.truncate n)
      | v => define (.cast · v access)

/-- The size of what a pointer or array points to. -/
def stride? (r : Registry) (ty : TypeId) : Option Int64 :=
  (r.element? ty).map fun element => Int64.ofNat (r.sizeOf element)

def isUnsigned (r : Registry) (ty : TypeId) : Bool :=
  match r.ty ty with
  | .int _ signed => !signed
  | .pointer _ | .array .. => true
  | _ => false

/-- Narrow integers are compared as the signed integers that they promote to. -/
def comparesUnsigned (r : Registry) (ty : TypeId) : Bool :=
  isUnsigned r ty && decide (4 ≤ r.sizeOf ty)

def machineUnary : Syntax.UnaryOp → UnaryOp
  | .neg => .neg
  | .not => .not
  | .bitNot => .complement

def machineBinary (op : Syntax.BinaryOp) (unsigned : Bool) : BinaryOp :=
  match op, unsigned with
  | .add, _ => .add
  | .sub, _ => .sub
  | .mul, _ => .mul
  | .div, false => .div
  | .div, true => .udiv
  | .mod, false => .rem
  | .mod, true => .urem
  | .bitAnd, _ => .and
  | .bitOr, _ => .or
  | .bitXor, _ => .xor
  | .shl, _ => .shl
  | .shr, false => .shr
  | .shr, true => .ushr
  | .eq, _ => .eq
  | .ne, _ => .ne
  | .lt, false => .lt
  | .lt, true => .ult
  | .le, false => .le
  | .le, true => .ule
  | .gt, false => .gt
  | .gt, true => .ugt
  | .ge, false => .ge
  | .ge, true => .uge
  | .logAnd, _ => .and
  | .logOr, _ => .or

/-- A count of objects in bytes. -/
def scale (v : Operand) (stride : Int64) : Lower Operand :=
  if stride = 1 then return v
  else
    match v with
    | .const n => return .const (n * stride)
    | v => define (.binary · .mul v (.const stride))

def pointerDifference (left right : Operand) (stride : Int64) : Lower Operand := do
  let bytes ← define (.binary · .sub left right)
  if 1 < stride then define (.binary · .div bytes (.const stride)) else return bytes

def integerArithmetic (r : Registry) (op : Syntax.BinaryOp) (left : Operand) (leftTy : TypeId)
    (right : Operand) (rightTy : TypeId) (result : TypeId) : Lower Operand := do
  if op.isComparison then
    let unsigned := comparesUnsigned r leftTy || comparesUnsigned r rightTy
    define (.binary · (machineBinary op unsigned) left right)
  else
    let v ← define (.binary · (machineBinary op (isUnsigned r result)) left right)
    convert r v result

def arithmetic (r : Registry) (op : Syntax.BinaryOp) (left : Operand) (leftTy : TypeId)
    (right : Operand) (rightTy : TypeId) (result : TypeId) : Lower Operand := do
  match op, stride? r leftTy, stride? r rightTy with
  | .add, some stride, none =>
    let distance ← scale right stride
    define (.binary · .add left distance)
  | .sub, some stride, none =>
    let distance ← scale right stride
    define (.binary · .sub left distance)
  | .add, none, some stride =>
    let distance ← scale left stride
    define (.binary · .add right distance)
  | .sub, some stride, some _ => pointerDifference left right stride
  | _, _, _ => integerArithmetic r op left leftTy right rightTy result

end MiniC.Lowering
