import MiniC.Machine.Image
/-!
Running loaded code. `step` is one instruction of one frame; `execute` repeats it and runs calls to
their end. The step limit bounds every run, so it is also the measure that ends the recursion.
-/
namespace MiniC.Machine

open Code (Inst Label Operand Temp)

/-- One activation of a routine. A slot keeps the address that an allocation got the first time. -/
structure Frame where
  args : List Int64
  temps : Array Int64
  slots : Array (Option Int64)
  pc : Nat

namespace Frame

def enter (r : Routine) (args : List Int64) : Frame :=
  ⟨args, Array.replicate r.temps 0, Array.replicate r.temps none, 0⟩

def set (f : Frame) (t : Temp) (v : Int64) : Frame :=
  { f with temps := f.temps.setIfInBounds t v }

def setSlot (f : Frame) (t : Temp) (address : Int64) : Frame :=
  { f with
    temps := f.temps.setIfInBounds t address
    slots := f.slots.setIfInBounds t (some address) }

def goto (f : Frame) (pc : Nat) : Frame := { f with pc }

end Frame

/-- The function that the machine itself provides. -/
def assertName : String := "assert"

def runAssert : List Int64 → Except Fault Int64
  | [expected, actual] =>
    if expected = actual then .ok 0 else .error (.assertionFailed expected actual)
  | args => .error (.argumentCount assertName 2 args.length)

def value (p : Program) (f : Frame) : Operand → Except Fault Int64
  | .temp t => .ok (f.temps.getD t 0)
  | .const n => .ok n
  | .data label =>
    match p.symbols[label]? with
    | some address => .ok address
    | none => .error (.undefinedSymbol label)

def values (p : Program) (f : Frame) : List Operand → Except Fault (List Int64)
  | [] => .ok []
  | o :: os =>
    match value p f o with
    | .error e => .error e
    | .ok v =>
      match values p f os with
      | .error e => .error e
      | .ok vs => .ok (v :: vs)

def position (r : Routine) (label : Label) : Except Fault Nat :=
  match r.labels[label]? with
  | some pc => .ok pc
  | none => .error (.unknownLabel label)

/-- The address and the new end of the stack for an object. -/
def reserve (s : State) (size align : Nat) : Except Fault (Nat × Nat) :=
  match Layout.alignTo s.stack (max align 1) with
  | none => .error (.stackOverflow size)
  | some start =>
    if start + size ≤ s.memory.size then .ok (start, start + size)
    else .error (.stackOverflow size)

/-- What an instruction leads to. -/
inductive Next where
  | go (frame : Frame) (state : State)
  | call (dst : Option Temp) (callee : String) (args : List Int64) (frame : Frame) (state : State)
  | done (result : Except Fault Int64) (state : State)

/-- The next instruction, or the fault that keeps it from being reached. -/
def assign (f : Frame) (s : State) (dst : Temp) : Except Fault Int64 → Next
  | .error e => .done (.error e) s
  | .ok v => .go (f.set dst v) s

def jump (r : Routine) (f : Frame) (s : State) (target : Label) : Next :=
  match position r target with
  | .error e => .done (.error e) s
  | .ok pc => .go (f.goto pc) s

def branch (p : Program) (r : Routine) (f : Frame) (s : State) (cond : Operand) (target : Label)
    (taken : Int64 → Bool) : Next :=
  match value p f cond with
  | .error e => .done (.error e) s
  | .ok v => if taken v then jump r f s target else .go f s

def storeTo (p : Program) (f : Frame) (s : State) (base : Operand) (offset : Int64)
    (src : Operand) (size : Nat) : Next :=
  match value p f base with
  | .error e => .done (.error e) s
  | .ok address =>
    match value p f src with
    | .error e => .done (.error e) s
    | .ok v =>
      match s.memory.locate (address + offset) size with
      | .error e => .done (.error e) s
      | .ok start => .go f { s with memory := s.memory.put start size v }

def allocate (f : Frame) (s : State) (dst : Temp) (size align : Nat) : Next :=
  match f.slots.getD dst none with
  | some address => .go (f.set dst address) s
  | none =>
    match reserve s size align with
    | .error e => .done (.error e) s
    | .ok (start, stop) => .go (f.setSlot dst (Int64.ofNat start)) { s with stack := stop }

/-- One instruction, with the frame already at the next one. -/
def step (p : Program) (r : Routine) (f : Frame) (s : State) : Inst → Next
  | .label _ | .comment _ => .go f s
  | .copy dst src => assign f s dst (value p f src)
  | .unary dst op src =>
    assign f s dst (match value p f src with
      | .error e => .error e
      | .ok v => .ok (op.eval v))
  | .binary dst op left right =>
    assign f s dst (match value p f left with
      | .error e => .error e
      | .ok l =>
        match value p f right with
        | .error e => .error e
        | .ok r =>
          match op.eval l r with
          | none => .error .divisionByZero
          | some v => .ok v)
  | .cast dst src access =>
    assign f s dst (match value p f src with
      | .error e => .error e
      | .ok v => .ok (access.truncate v))
  | .load dst base offset access =>
    assign f s dst (match value p f base with
      | .error e => .error e
      | .ok address => s.memory.load (address + offset) access.size access.signed)
  | .store base offset src size => storeTo p f s base offset src size
  | .jump target => jump r f s target
  | .branchIf cond target => branch p r f s cond target (· != 0)
  | .branchUnless cond target => branch p r f s cond target (· == 0)
  | .call dst callee args =>
    match values p f args with
    | .error e => .done (.error e) s
    | .ok vs => .call dst callee vs f s
  | .ret (some o) => .done (value p f o) s
  | .ret none => .done (.ok 0) s
  | .alloca dst size align => allocate f s dst size align
  | .addressOf dst name =>
    assign f s dst (match p.symbols[name]? with
      | some address => .ok address
      | none => .error (.undefinedSymbol name))
  | .param dst index =>
    assign f s dst (match f.args[index]? with
      | some v => .ok v
      | none => .error (.argumentCount r.name (index + 1) f.args.length))

/-- The routine that a call enters: it exists, takes these arguments, and there is room for a
frame. -/
def callee (p : Program) (s : State) (name : String) (args : List Int64) : Except Fault Routine :=
  match p.routines[name]? with
  | none => .error (.undefinedFunction name)
  | some r =>
    if args.length = r.arity then
      if s.depth < p.limits.callDepth then .ok r
      else .error (.callDepthExceeded p.limits.callDepth)
    else .error (.argumentCount name r.arity args.length)

def deeper (s : State) : State := { s with depth := s.depth + 1 }

/-- A call gives back its stack and its depth, however it ended. -/
def leave (stack depth : Nat) (s : State) : State := { s with stack, depth }

def resume (f : Frame) : Option Temp → Int64 → Frame
  | some dst, v => f.set dst v
  | none, _ => f

/-- Runs a frame to its end. `fuel` is more than the steps that are left, so it never runs out. -/
def execute (p : Program) : (fuel : Nat) → Routine → Frame → State → Except Fault Int64 × State
  | 0, _, _, s => (.error (.stepLimitExceeded p.limits.steps), s)
  | fuel + 1, r, f, s =>
    match r.body[f.pc]? with
    | none => (.ok 0, s)
    | some inst =>
      if p.limits.steps ≤ s.steps then
        (.error (.stepLimitExceeded p.limits.steps), { s with steps := s.steps + 1 })
      else
        match step p r (f.goto (f.pc + 1)) { s with steps := s.steps + 1 } inst with
        | .done result s => (result, s)
        | .go f s => execute p fuel r f s
        | .call dst name args f s =>
          if name = assertName then
            match runAssert args with
            | .error e => (.error e, s)
            | .ok v => execute p fuel r (resume f dst v) s
          else
            match callee p s name args with
            | .error e => (.error e, s)
            | .ok r' =>
              let stack := s.stack
              let depth := s.depth
              match execute p fuel r' (Frame.enter r' args) (deeper s) with
              | (.error e, s) => (.error e, leave stack depth s)
              | (.ok v, s) => execute p fuel r (resume f dst v) (leave stack depth s)

/-- Calls a function by name, from outside. -/
def call (p : Program) (s : State) (name : String) (args : List Int64) :
    Except Fault Int64 × State :=
  if name = assertName then (runAssert args, s)
  else
    match callee p s name args with
    | .error e => (.error e, s)
    | .ok r =>
      let stack := s.stack
      let depth := s.depth
      let (result, s) :=
        execute p (p.limits.steps - s.steps + 1) r (Frame.enter r args) (deeper s)
      (result, leave stack depth s)

def Loaded.call (l : Loaded) (name : String) (args : List Int64) : Except Fault Int64 × Loaded :=
  let (result, state) := Machine.call l.program l.state name args
  (result, { l with state })

end MiniC.Machine
