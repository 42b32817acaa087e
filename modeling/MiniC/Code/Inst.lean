import MiniC.Code.Operator
import MiniC.Layout.Registry
/-!
Three-address code. A function body is a list of instructions over numbered temporaries; every
struct access has become a base address plus a byte offset.
-/
namespace MiniC.Code

abbrev Temp := Nat
abbrev Label := String

inductive Operand where
  | temp (t : Temp)
  | const (n : Int64)
  /-- The address of string data. -/
  | data (label : Label)
  deriving DecidableEq, Repr, Inhabited

inductive Inst where
  | label (name : Label)
  | copy (dst : Temp) (src : Operand)
  | unary (dst : Temp) (op : UnaryOp) (src : Operand)
  | binary (dst : Temp) (op : BinaryOp) (left right : Operand)
  | cast (dst : Temp) (src : Operand) (access : Access)
  | load (dst : Temp) (base : Operand) (offset : Int64) (access : Access)
  | store (base : Operand) (offset : Int64) (src : Operand) (size : Nat)
  | jump (target : Label)
  | branchIf (cond : Operand) (target : Label)
  | branchUnless (cond : Operand) (target : Label)
  | call (dst : Option Temp) (callee : String) (args : List Operand)
  | ret (value : Option Operand)
  | alloca (dst : Temp) (size align : Nat)
  | addressOf (dst : Temp) (name : String)
  /-- A scalar argument, or the address of a struct argument. -/
  | param (dst : Temp) (index : Nat)
  | comment (text : String)
  deriving DecidableEq, Repr, Inhabited

namespace Inst

/-- The temporary that an instruction writes. -/
def dst? : Inst → Option Temp
  | copy dst _ | unary dst _ _ | binary dst _ _ _ | cast dst _ _ | load dst _ _ _ => some dst
  | alloca dst _ _ | addressOf dst _ | param dst _ => some dst
  | call dst _ _ => dst
  | _ => none

/-- What an instruction reads, in order. -/
def operands : Inst → List Operand
  | copy _ src | unary _ _ src | cast _ src _ => [src]
  | binary _ _ left right => [left, right]
  | load _ base _ _ => [base]
  | store base _ src _ => [base, src]
  | branchIf cond _ | branchUnless cond _ => [cond]
  | call _ _ args => args
  | ret value => value.toList
  | _ => []

def mapOperands (f : Operand → Operand) : Inst → Inst
  | copy dst src => copy dst (f src)
  | unary dst op src => unary dst op (f src)
  | binary dst op left right => binary dst op (f left) (f right)
  | cast dst src access => cast dst (f src) access
  | load dst base offset access => load dst (f base) offset access
  | store base offset src size => store (f base) offset (f src) size
  | branchIf cond target => branchIf (f cond) target
  | branchUnless cond target => branchUnless (f cond) target
  | call dst callee args => call dst callee (args.map f)
  | ret value => ret (value.map f)
  | i => i

/-- The label to which control may go. -/
def target? : Inst → Option Label
  | jump target | branchIf _ target | branchUnless _ target => some target
  | _ => none

def label? : Inst → Option Label
  | label name => some name
  | _ => none

def isComment : Inst → Bool
  | comment _ => true
  | _ => false

/-- An unused result makes the whole instruction unnoticeable. -/
def isPure : Inst → Bool
  | copy .. | unary .. | cast .. | alloca .. | addressOf .. | param .. => true
  | binary _ op _ right =>
    !op.isDivision || (match right with | .const n => n != 0 | _ => false)
  | _ => false

/-- Control never goes on to the next instruction. -/
def endsBlock : Inst → Bool
  | jump _ | ret _ => true
  | _ => false

/-- Labels and comments do no work. -/
def isWork : Inst → Bool
  | label _ | comment _ => false
  | _ => true

@[simp] theorem operands_mapOperands (f : Operand → Operand) (i : Inst) :
    (i.mapOperands f).operands = i.operands.map f := by
  cases i with
  | ret value => cases value <;> rfl
  | _ => rfl

@[simp] theorem dst?_mapOperands (f : Operand → Operand) (i : Inst) :
    (i.mapOperands f).dst? = i.dst? := by
  cases i <;> rfl

@[simp] theorem target?_mapOperands (f : Operand → Operand) (i : Inst) :
    (i.mapOperands f).target? = i.target? := by
  cases i <;> rfl

end Inst

structure Param where
  name : String
  ty : TypeId
  deriving DecidableEq, Repr, Inhabited

structure Function where
  name : String
  params : List Param
  returns : TypeId
  body : List Inst
  /-- Every temporary of the body is below this number. -/
  temps : Nat
  deriving DecidableEq, Repr, Inhabited

def Function.work (f : Function) : Nat := f.body.countP (·.isWork)

/-- A global without an image starts out as zeros. -/
structure Global where
  name : String
  size : Nat
  align : Nat
  image : Option (List UInt8)
  deriving DecidableEq, Repr, Inhabited

/-- String data; a NUL follows it in memory. -/
structure Datum where
  label : Label
  text : String
  deriving DecidableEq, Repr, Inhabited

structure Module where
  functions : List Function
  globals : List Global
  data : List Datum
  deriving DecidableEq, Repr, Inhabited

def Module.mapFunctions (m : Module) (f : Function → Function) : Module :=
  { m with functions := m.functions.map f }

end MiniC.Code
