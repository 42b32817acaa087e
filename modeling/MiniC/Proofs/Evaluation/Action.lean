import MiniC.Lowering.Arithmetic
import MiniC.Machine.Fault
import MiniC.Machine.Memory
import MiniC.Syntax.Tree
/-!
Effects of evaluation. What operators on typed words yield is said first. An action of a function's
activation changes memory and the stack, and either yields something or is left in one of the ways in which
statements and calls are left. Nothing here knows of code, of temporaries or of labels.
-/
namespace MiniC.Evaluation

open Code (truth)
open Lowering (comparesUnsigned isUnsigned machineBinary stride?)
open Machine (Fault)

/-- What is left of a word in an object of a scalar type. -/
def convert (r : Registry) (v : Int64) (ty : TypeId) : Int64 :=
  match r.access? ty with
  | none => v
  | some access => access.truncate v

def operate (op : Code.BinaryOp) (left right : Int64) : Except Fault Int64 :=
  match op.eval left right with
  | none => .error .divisionByZero
  | some v => .ok v

def pointerDifference (left right stride : Int64) : Int64 :=
  if 1 < stride then (left - right) / stride else left - right

def integerArithmetic (r : Registry) (op : Syntax.BinaryOp) (left : Int64) (leftTy : TypeId)
    (right : Int64) (rightTy result : TypeId) : Except Fault Int64 :=
  if op.isComparison then
    operate (machineBinary op (comparesUnsigned r leftTy || comparesUnsigned r rightTy)) left right
  else
    match operate (machineBinary op (isUnsigned r result)) left right with
    | .error e => .error e
    | .ok v => .ok (convert r v result)

def arithmetic (r : Registry) (op : Syntax.BinaryOp) (left : Int64) (leftTy : TypeId)
    (right : Int64) (rightTy result : TypeId) : Except Fault Int64 :=
  match op, stride? r leftTy, stride? r rightTy with
  | .add, some stride, none => .ok (left + right * stride)
  | .sub, some stride, none => .ok (left - right * stride)
  | .add, none, some stride => .ok (right + left * stride)
  | .sub, some stride, some _ => .ok (pointerDifference left right stride)
  | _, _, _ => integerArithmetic r op left leftTy right rightTy result

/-! Actions. -/

open Machine (Fault Memory)

/-- What actions of one activation see. -/
structure Store where
  memory : Memory
  /-- The first free byte of the stack. -/
  stack : Nat
  /-- Where the locals lie, by the numbers of their declarations. -/
  homes : Nat → Option Int64

/-- How an action ends that yields nothing. -/
inductive Exit where
  | fault (e : Fault)
  | returned (v : Int64)
  | broke
  | continued
  /-- A loop would have gone on. -/
  | unfinished
  /-- The tree has no meaning. -/
  | stuck

abbrev Action := EStateM Exit Store

def lift {α : Type} : Except Fault α → Action α
  | .error e => throw (.fault e)
  | .ok a => return a

/-! Memory. -/

def read (address : Int64) (access : Access) : Action Int64 := do
  lift ((← get).memory.load address access.size access.signed)

def write (address : Int64) (size : Nat) (v : Int64) : Action Unit := do
  let memory ← lift ((← get).memory.store address size v)
  modify fun st => { st with memory }

/-- Storage for a local: what it got when its declaration was first evaluated in this activation,
or else the next aligned bytes of the stack. -/
def reside (j size align : Nat) : Action Int64 := do
  let st ← get
  match st.homes j with
  | some address => return address
  | none =>
    match Layout.alignTo st.stack (max align 1) with
    | none => throw (.fault (.stackOverflow size))
    | some start =>
      if start + size ≤ st.memory.size then
        let address := Int64.ofNat start
        set { st with
          stack := start + size
          homes := fun i => if i = j then some address else st.homes i }
        return address
      else throw (.fault (.stackOverflow size))

/-- The storage of a local that is in scope. -/
def home (j : Nat) : Action Int64 := do
  match (← get).homes j with
  | some address => return address
  | none => throw .stuck

/-- An object is read if it is a scalar; a struct or array has its address for a value. -/
def load (r : Registry) (ty : TypeId) (address : Int64) : Action Int64 := do
  if r.isArray ty || r.isStruct ty then return address
  else
    match r.access? ty with
    | some access => read address access
    | none => return 0

def store (r : Registry) (ty : TypeId) (address v : Int64) : Action Unit :=
  match r.access? ty with
  | some access => write address access.size v
  | none => throw .stuck

/-- A struct is copied scalar by scalar. -/
def copyMoves (target source : Int64) : List ScalarMove → Action Unit
  | [] => return ()
  | m :: ms => do
    let v ← read (source + Int64.ofNat m.offset) m.access
    write (target + Int64.ofNat m.offset) m.access.size v
    copyMoves target source ms

def copy (r : Registry) (ty : TypeId) (target source : Int64) : Action Unit :=
  copyMoves target source (r.moves ty)

def zeroMoves (target : Int64) : List ScalarMove → Action Unit
  | [] => return ()
  | m :: ms => do
    write (target + Int64.ofNat m.offset) m.access.size 0
    zeroMoves target ms

def zero (r : Registry) (ty : TypeId) (target : Int64) : Action Unit :=
  zeroMoves target (r.moves ty)

def storeBytes (target : Int64) : List UInt8 → Action Unit
  | [] => return ()
  | b :: bs => do
    write target 1 (Int64.ofNat b.toNat)
    storeBytes (target + 1) bs

/-! Expressions. -/

/-- What an expression denotes: an object, by its address, or a value. -/
inductive Denoted where
  | object (ty : TypeId) (address : Int64)
  | value (v : Int64)

def valueOf (r : Registry) (act : Action Denoted) : Action Int64 := do
  match ← act with
  | .object ty address => load r ty address
  | .value v => return v

def placeOf (act : Action Denoted) : Action (TypeId × Int64) := do
  match ← act with
  | .object ty address => return (ty, address)
  | .value _ => throw .stuck

/-- Where a struct or array lies; a value of such a type is its address. -/
def storageOf (act : Action Denoted) : Action Int64 := do
  match ← act with
  | .object _ address => return address
  | .value v => return v

def need {α : Type} : Option α → Action α
  | some a => return a
  | none => throw .stuck

/-- Where the elements of an array begin, or what a pointer points to. -/
def elementsOf (r : Registry) (ty : Option TypeId) (act : Action Denoted) : Action Int64 := do
  if r.isArray (← need ty) then storageOf act else valueOf r act

/-- The element is as many objects further on as the index says. -/
def subscript (stride : Int64) (base index : Action Int64) : Action Int64 := do
  let address ← base
  let i ← index
  return address + i * stride

/-- A value, reduced to a type. -/
def converted (r : Registry) (ty : TypeId) (act : Action Int64) : Action Int64 := do
  return convert r (← act) ty

def unary (r : Registry) (op : Syntax.UnaryOp) (ty : TypeId) (operand : Action Int64) :
    Action Int64 := do
  return convert r ((Lowering.machineUnary op).eval (← operand)) ty

def binary (r : Registry) (op : Syntax.BinaryOp) (leftTy rightTy : Option TypeId) (ty : TypeId)
    (left right : Action Int64) : Action Int64 := do
  let v ← left
  let w ← right
  lift (arithmetic r op v (← need leftTy) w (← need rightTy) ty)

def cast (r : Registry) (ty : TypeId) (operand : Action Int64) : Action Int64 := do
  let v ← operand
  return if r.isVoid ty then 0 else convert r v ty

/-- The right operand is evaluated only if the left leaves it open; the result is zero or one. -/
def logical (isAnd : Bool) (left right : Action Int64) : Action Int64 := do
  let l ← left
  if (l != 0) == isAnd then
    let r ← right
    return Code.truth (r != 0)
  else return Code.truth (l != 0)

def conditional {α : Type} (cond : Action Int64) (yes no : Action α) : Action α := do
  if (← cond) != 0 then yes else no

/-- The value is evaluated before the target. -/
def assignStruct (r : Registry) (source : Action Int64) (target : Action (TypeId × Int64)) :
    Action Int64 := do
  let v ← source
  let (ty, address) ← target
  copy r ty address v
  return address

def assignScalar (r : Registry) (ty : TypeId) (source : Action Int64)
    (target : Action (TypeId × Int64)) : Action Int64 := do
  let v ← converted r ty source
  let (targetTy, address) ← target
  store r targetTy address v
  return v

/-- The target is evaluated once, and read before the right operand is evaluated. -/
def assignCompound (r : Registry) (op : Syntax.BinaryOp) (ty : TypeId) (sourceTy : Option TypeId)
    (source : Action Int64) (target : Action (TypeId × Int64)) : Action Int64 := do
  let (targetTy, address) ← target
  let old ← load r targetTy address
  let v ← source
  let new ← lift (arithmetic r op old ty v (← need sourceTy) ty)
  store r targetTy address new
  return new

def step (r : Registry) (ty : TypeId) (decrement yieldsOld : Bool)
    (target : Action (TypeId × Int64)) : Action Int64 := do
  let (targetTy, address) ← target
  let old ← load r targetTy address
  let distance := (Lowering.stride? r ty).getD 1
  let new := convert r (if decrement then old - distance else old + distance) ty
  store r targetTy address new
  return if yieldsOld then old else new

/-! Loops. -/

/-- Whether the loop goes on after its body, which a break denies. -/
def caught (body : Action Unit) : Action Bool := fun st =>
  match body st with
  | .ok () st => .ok true st
  | .error .continued st => .ok true st
  | .error .broke st => .ok false st
  | .error e st => .error e st

/-- A round from the body on. -/
def round (body update again : Action Unit) : Action Unit := do
  if ← caught body then
    update
    again

/-- At most so many rounds of a loop that tests first. A break or continue of the test or of the
update is not the loop's own. -/
def rounds (test : Action Bool) (body update : Action Unit) : Nat → Action Unit
  | 0 => throw .unfinished
  | n + 1 => do if ← test then round body update (rounds test body update n)

def loop (testsFirst : Bool) (test : Action Bool) (body update : Action Unit) (n : Nat) :
    Action Unit :=
  if testsFirst then rounds test body update n else round body update (rounds test body update n)

/-! Calls. -/

/-- Evaluates a body in an activation of its own, which gives back its stack. A body that runs past
its end returns zero. -/
def activate (body : Action Unit) : Action Int64 := fun st =>
  match body { st with homes := fun _ => none } with
  | .ok () st' => .ok 0 { st with memory := st'.memory }
  | .error (.returned v) st' => .ok v { st with memory := st'.memory }
  | .error (.fault e) st' => .error (.fault e) { st with memory := st'.memory }
  | .error .unfinished st' => .error .unfinished { st with memory := st'.memory }
  | .error _ st' => .error .stuck { st with memory := st'.memory }

end MiniC.Evaluation
