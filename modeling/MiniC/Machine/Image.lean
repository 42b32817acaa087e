import Std.Data.HashMap
import MiniC.Code.Inst
import MiniC.Machine.Memory
/-!
Loading a module. Globals are placed in order from the null guard on, then string data, then the
stack; a module that does not fit is refused.
-/
namespace MiniC.Machine

open Code (Inst Label Module)

structure Limits where
  memory : Nat := 1048576
  callDepth : Nat := 256
  steps : Nat := 10000000
  deriving DecidableEq, Repr, Inhabited

/-- A function that is ready to run. -/
structure Routine where
  name : String
  arity : Nat
  temps : Nat
  body : Array Inst
  labels : Std.HashMap Label Nat

/-- What does not change while a program runs. -/
structure Program where
  limits : Limits
  routines : Std.HashMap String Routine
  symbols : Std.HashMap String Int64

structure State where
  memory : Memory
  /-- The first free byte of the stack. -/
  stack : Nat
  steps : Nat
  depth : Nat

structure Loaded where
  program : Program
  state : State

/-- An object of the image. -/
structure Placement where
  name : String
  address : Nat
  bytes : List UInt8
  deriving DecidableEq, Repr

namespace Image

/-- Addresses stop at the largest word. -/
def advance (cursor size : Nat) : Nat := min (cursor + size) (Layout.addressSpace - 1)

def placeGlobals (limits : Limits) (cursor : Nat) :
    List Code.Global → Except Fault (List Placement × Nat)
  | [] => .ok ([], cursor)
  | g :: gs =>
    match Layout.alignTo cursor (max g.align 1) with
    | none => .error (.outOfMemory (Layout.addressSpace - 1) limits.memory)
    | some address =>
      match placeGlobals limits (advance address g.size) gs with
      | .error e => .error e
      | .ok (ps, stop) => .ok (⟨g.name, address, g.image.getD []⟩ :: ps, stop)

def placeData (cursor : Nat) : List Code.Datum → List Placement × Nat
  | [] => ([], cursor)
  | d :: ds =>
    let bytes := Bytes.ofText d.text
    let (ps, stop) := placeData (advance cursor (bytes.length + 1)) ds
    (⟨d.label, cursor, bytes⟩ :: ps, stop)

def stackAlign : Nat := 16

/-- Where the stack begins above an image that ends at `cursor`. -/
def stackBase (limits : Limits) (cursor : Nat) : Except Fault Nat :=
  match Layout.alignTo cursor stackAlign with
  | some base =>
    if base ≤ limits.memory then .ok base else .error (.outOfMemory cursor limits.memory)
  | none => .error (.outOfMemory cursor limits.memory)

def address (p : Placement) : Int64 := Int64.ofNat p.address

def fill (m : Memory) : List Placement → Except Fault Memory
  | [] => .ok m
  | p :: ps =>
    if p.bytes.isEmpty then fill m ps
    else
      match m.writeBytes (address p) p.bytes with
      | .error e => .error e
      | .ok m => fill m ps

end Image

/-- The position of each label; of two equal ones the later counts. -/
def labelPositions (body : List Inst) : Std.HashMap Label Nat :=
  body.zipIdx.foldl (fun labels (i, pc) =>
    match i.label? with
    | some l => labels.insert l pc
    | none => labels) {}

def Routine.ofFunction (f : Code.Function) : Routine where
  name := f.name
  arity := f.params.length
  temps := f.temps
  body := f.body.toArray
  labels := labelPositions f.body

def load (m : Module) (limits : Limits) : Except Fault Loaded := do
  let (globals, cursor) ← Image.placeGlobals limits nullGuard m.globals
  let (data, cursor) := Image.placeData cursor m.data
  let stack ← Image.stackBase limits cursor
  let placements := globals ++ data
  let memory ← Image.fill (Memory.zeros limits.memory) placements
  let symbols := placements.foldl (fun s p => s.insert p.name (Image.address p)) {}
  let routines := m.functions.foldl (fun r f => r.insert f.name (Routine.ofFunction f)) {}
  return ⟨⟨limits, routines, symbols⟩, ⟨memory, stack, 0, 0⟩⟩

def Loaded.address? (l : Loaded) (name : String) : Option Int64 := l.program.symbols[name]?

end MiniC.Machine
