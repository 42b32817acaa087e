import MiniC.Bytes
import MiniC.Code.Inst
import MiniC.Lowering.Error
import MiniC.Syntax.Constant
/-!
The bytes that a constant initializer puts into a global. What it does not mention stays zero.
-/
namespace MiniC.Lowering

open Syntax

namespace Static

def scalar (r : Registry) (ty : TypeId) (offset : Nat) (e : Expr) (image : Array UInt8) :
    Except LoweringError (Array UInt8) :=
  match e.constant?, r.access? ty with
  | none, _ => .error .notConstant
  | some _, none => .error .aggregateFromScalar
  | some v, some access => .ok (Bytes.writeWord image offset v.toUInt64 access.size)

/-- A text may fill an array of bytes; it is cut off at the array's end. -/
def single (r : Registry) (ty : TypeId) (offset : Nat) (e : Expr) (image : Array UInt8) :
    Except LoweringError (Array UInt8) :=
  match r.ty ty, e.kind with
  | .array _ length, .string text =>
    .ok (Bytes.writeList image offset ((Bytes.ofText text).take length))
  | _, _ => scalar r ty offset e image

mutual

def fill (r : Registry) (ty : TypeId) (offset : Nat) :
    Initializer → Array UInt8 → Except LoweringError (Array UInt8)
  | .expr e, image => single r ty offset e image
  | .list items _, image =>
    match r.ty ty with
    | .array element _ => elements r element offset items image
    | .struct s => members r offset (r.structType s).members items image
    | _ => first r ty offset items image

def elements (r : Registry) (element : TypeId) (offset : Nat) :
    List Initializer → Array UInt8 → Except LoweringError (Array UInt8)
  | [], image => .ok image
  | i :: is, image =>
    match fill r element offset i image with
    | .error e => .error e
    | .ok image => elements r element (offset + r.sizeOf element) is image

def members (r : Registry) (offset : Nat) (ms : List Member) :
    List Initializer → Array UInt8 → Except LoweringError (Array UInt8)
  | [], image => .ok image
  | i :: is, image =>
    match ms with
    | [] => .ok image
    | m :: ms =>
      match fill r m.ty (offset + m.offset) i image with
      | .error e => .error e
      | .ok image => members r offset ms is image

def first (r : Registry) (ty : TypeId) (offset : Nat) :
    List Initializer → Array UInt8 → Except LoweringError (Array UInt8)
  | [], image => .ok image
  | i :: _, image => fill r ty offset i image

end

def image (r : Registry) (ty : TypeId) (init : Initializer) :
    Except LoweringError (List UInt8) :=
  (fill r ty 0 init (Array.replicate (r.sizeOf ty) 0)).map Array.toList

end Static

def globalOf (r : Registry) (v : VarDecl) : Except LoweringError Code.Global := do
  let some ty := v.resolved | throw (.unresolved v.name)
  let size := r.sizeOf ty
  let align := r.alignOf ty
  match v.init with
  | none => return ⟨v.name, size, align, none⟩
  | some init => return ⟨v.name, size, align, some (← Static.image r ty init)⟩

end MiniC.Lowering
