import MiniC.Code.Inst
import MiniC.Lowering.Error
/-!
Writing code. Temporaries are numbered within a function; labels and string data are numbered within
the whole unit.
-/
namespace MiniC.Lowering

open Code

/-- What surrounds a statement or an expression. -/
structure Context where
  registry : Registry
  returns : TypeId
  /-- Where a break goes, inside a loop. -/
  breakTo : Option Label
  /-- Where a continue goes, inside a loop. -/
  continueTo : Option Label

structure State where
  code : Array Inst
  temps : Nat
  labels : Nat
  data : Array Datum
  /-- The temporaries that hold the addresses of the locals, innermost scope and newest first. -/
  slots : List (List (String × Temp))

def State.initial : State := ⟨#[], 0, 0, #[], []⟩

abbrev Lower := StateT State (Except LoweringError)

def emit (i : Inst) : Lower Unit := fun s => .ok ((), { s with code := s.code.push i })

def freshTemp : Lower Temp := fun s => .ok (s.temps, { s with temps := s.temps + 1 })

def freshLabel (kind : String) : Lower Label := fun s =>
  .ok (s!".L{kind}_{s.labels}", { s with labels := s.labels + 1 })

/-- String data under a label of its own. -/
def addText (text : String) : Lower Label := fun s =>
  let label := s!".Lstr{s.data.size}"
  .ok (label, { s with data := s.data.push ⟨label, text⟩ })

/-- An instruction that writes a new temporary. -/
def define (make : Temp → Inst) : Lower Operand := do
  let t ← freshTemp
  emit (make t)
  return .temp t

def bind (name : String) (slot : Temp) : Lower Unit := fun s =>
  .ok ((), { s with
    slots := match s.slots with
      | [] => []
      | scope :: outer => ((name, slot) :: scope) :: outer })

def slot? (slots : List (List (String × Temp))) (name : String) : Option Temp :=
  slots.findSome? (·.lookup name)

/-- The address of a variable: its slot, or where the global of that name lies. -/
def variableAddress (name : String) : Lower Operand := do
  match slot? (← get).slots name with
  | some slot => return .temp slot
  | none => define (.addressOf · name)

/-- What is bound inside is forgotten afterwards. -/
def inScope (act : Lower α) : Lower α := do
  modify fun s => { s with slots := [] :: s.slots }
  let a ← act
  modify fun s => { s with slots := s.slots.tail }
  return a

def need (e : LoweringError) : Option α → Lower α
  | some a => pure a
  | none => throw e

end MiniC.Lowering
