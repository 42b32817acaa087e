import MiniC.Lowering.Tree
import MiniC.Machine.Run
import MiniC.Proofs.Evaluation.Action
/-!
Evaluation of analyzed trees and units. What a tree means is an action on the memory; it is found in one
pass that gives every declaration of a local a number within its function, and every text a number within
the unit. Operands are evaluated from left to right, and the value of an assignment before its target. A
call evaluates the body of the last function of its name in an activation of its own, in which each
argument is kept in storage like that of a local.
-/
namespace MiniC.Evaluation

open Machine (Fault)
open Syntax

/-- How many locals and texts there were before. -/
structure Counters where
  locals : Nat
  texts : Nat
  deriving DecidableEq, Repr, Inhabited

/-- Finding out what a tree means. -/
abbrev Resolve := StateM Counters

def newLocal : Resolve Nat := fun k => (k.locals, { k with locals := k.locals + 1 })

def newText : Resolve Nat := fun k => (k.texts, { k with texts := k.texts + 1 })

/-- The locals in scope with the numbers of their declarations, innermost scope and newest first. -/
abbrev Scopes := List (List (String × Nat))

def Scopes.declare (scopes : Scopes) (name : String) (j : Nat) : Scopes :=
  match scopes with
  | [] => []
  | scope :: outer => ((name, j) :: scope) :: outer

/-- What surrounds a statement or an expression. -/
structure Context where
  registry : Registry
  returns : TypeId
  /-- The addresses of the globals. -/
  global : String → Option Int64
  /-- The addresses of the texts. -/
  text : Nat → Int64
  /-- The value of a call. -/
  call : String → List Int64 → Action Int64
  /-- How many rounds of a loop are evaluated. -/
  rounds : Nat
  inLoop : Bool
  scopes : Scopes

namespace Context

/-- The innermost local of that name, or else the global. -/
def named (c : Context) (ty : TypeId) (name : String) : Action Denoted :=
  match c.scopes.findSome? (·.lookup name) with
  | some j => do return .object ty (← home j)
  | none =>
    match c.global name with
    | some address => return .object ty address
    | none => throw (.fault (.undefinedSymbol name))

/-- Outside a loop there is nothing to leave. -/
def leave (c : Context) (exit : Exit) : Action Unit := if c.inLoop then throw exit else return ()

def callOf (c : Context) (ty : TypeId) (callee : Expr) (args : Action (List Int64)) :
    Action Int64 :=
  match callee.kind with
  | .name name => do
    let vs ← args
    let v ← c.call name vs
    return if c.registry.isVoid ty then 0 else v
  | _ => throw .stuck

end Context

mutual

def expr (c : Context) : Expr → Resolve (Action Denoted)
  | ⟨_, _, none⟩ => return throw .stuck
  | ⟨kind, _, some ty⟩ => exprKind c ty kind

def exprKind (c : Context) (ty : TypeId) : ExprKind → Resolve (Action Denoted)
  | .integer n => return return .value n
  | .character b => return return .value (characterValue b)
  | .string _ => do
    let n ← newText
    return return .value (c.text n)
  | .name name => return c.named ty name
  | .binary op left right => do
    let l ← valueOf c.registry <$> expr c left
    let r ← valueOf c.registry <$> expr c right
    if op.isLogical then return .value <$> logical (op == .logAnd) l r
    else return .value <$> binary c.registry op left.ty right.ty ty l r
  | .unary op operand => do
    let v ← valueOf c.registry <$> expr c operand
    return .value <$> unary c.registry op ty v
  | .assign none target source => do
    let v ← valueOf c.registry <$> expr c source
    let p ← placeOf <$> expr c target
    if c.registry.isStruct ty then return .value <$> assignStruct c.registry v p
    else return .value <$> assignScalar c.registry ty v p
  | .assign (some op) target source =>
    if c.registry.isStruct ty then do
      let v ← valueOf c.registry <$> expr c source
      let p ← placeOf <$> expr c target
      return .value <$> assignStruct c.registry v p
    else do
      let p ← placeOf <$> expr c target
      let v ← valueOf c.registry <$> expr c source
      return .value <$> assignCompound c.registry op ty source.ty v p
  | .conditional cond yes no => do
    let b ← valueOf c.registry <$> expr c cond
    let v ← valueOf c.registry <$> expr c yes
    let w ← valueOf c.registry <$> expr c no
    return .value <$> conditional b (converted c.registry ty v) (converted c.registry ty w)
  | .call callee args => do
    let vs ← values c args
    return .value <$> c.callOf ty callee vs
  | .index array index => do
    let base ← elementsOf c.registry array.ty <$> expr c array
    let i ← match index.constant? with
      | some i => pure (return i)
      | none => valueOf c.registry <$> expr c index
    return .object ty <$> subscript (Int64.ofNat (c.registry.sizeOf ty)) base i
  | .member object _ resolved => do
    let o ← storageOf <$> expr c object
    return do
      let m ← need resolved
      return .object m.ty ((← o) + Int64.ofNat m.offset)
  | .pointerMember pointer _ resolved => do
    let p ← valueOf c.registry <$> expr c pointer
    return do
      let m ← need resolved
      return .object m.ty ((← p) + Int64.ofNat m.offset)
  | .cast _ operand => do
    let v ← valueOf c.registry <$> expr c operand
    return .value <$> cast c.registry ty v
  | .query .. | .typeQuery .. => return throw .stuck
  | .addressOf operand => do
    let p ← placeOf <$> expr c operand
    return (fun p => .value p.2) <$> p
  | .deref pointer => do
    let p ← valueOf c.registry <$> expr c pointer
    return .object ty <$> p
  | .step operand decrement yieldsOld => do
    let p ← placeOf <$> expr c operand
    return .value <$> step c.registry ty decrement yieldsOld p
  | .comma items => do
    let last ← lastValue c items
    return .value <$> last 0
  | .block ⟨items, _⟩ => do
    let last ← blockValue { c with scopes := [] :: c.scopes } items
    return .value <$> last

def values (c : Context) : List Expr → Resolve (Action (List Int64))
  | [] => return return []
  | e :: es => do
    let v ← valueOf c.registry <$> expr c e
    let vs ← values c es
    return do return (← v) :: (← vs)

/-- All values are evaluated, and the last one is kept; of none, the one that is given. -/
def lastValue (c : Context) : List Expr → Resolve (Int64 → Action Int64)
  | [] => return fun last => return last
  | e :: es => do
    let v ← valueOf c.registry <$> expr c e
    let rest ← lastValue c es
    return fun _ => do rest (← v)

def blockValue (c : Context) : List BlockItem → Resolve (Action Int64)
  | [] => return return 0
  | [.statement ⟨.expr e, _⟩] => valueOf c.registry <$> expr c e
  | i :: is => do
    let (first, scopes) ← blockItem c i
    let rest ← blockValue { c with scopes } is
    return do
      first
      rest

def blockItems (c : Context) : List BlockItem → Resolve (Action Unit)
  | [] => return return ()
  | i :: is => do
    let (first, scopes) ← blockItem c i
    let rest ← blockItems { c with scopes } is
    return do
      first
      rest

/-- With the scopes in which the next item is evaluated. -/
def blockItem (c : Context) : BlockItem → Resolve (Action Unit × Scopes)
  | .statement s => do return (← stmt c s, c.scopes)
  | .declaration d => declaration c d

def stmt (c : Context) : Stmt → Resolve (Action Unit)
  | ⟨kind, _⟩ => stmtKind c kind

def stmtKind (c : Context) : StmtKind → Resolve (Action Unit)
  | .expr e => do
    let v ← valueOf c.registry <$> expr c e
    return discard v
  | .empty => return return ()
  | .block ⟨items, _⟩ => blockItems { c with scopes := [] :: c.scopes } items
  | .if_ cond yes none => do
    let b ← valueOf c.registry <$> expr c cond
    let yes ← stmt c yes
    return conditional b yes (return ())
  | .if_ cond yes (some no) => do
    let b ← valueOf c.registry <$> expr c cond
    let yes ← stmt c yes
    let no ← stmt c no
    return conditional b yes no
  | .loop kind init cond update body => do
    let (init, scopes) ← loopInit { c with scopes := [] :: c.scopes } init
    let test ← test { c with scopes } cond
    let body ← stmt { c with scopes, inLoop := true } body
    let update ← effect { c with scopes } update
    return do
      init
      loop kind.testsFirst test body update c.rounds
  | .break_ => return c.leave .broke
  | .continue_ => return c.leave .continued
  | .return_ none => return throw (.returned 0)
  | .return_ (some e) => do
    let v ← valueOf c.registry <$> expr c e
    return do throw (.returned (← converted c.registry c.returns v))

/-- With the scopes of the rest of the loop. -/
def loopInit (c : Context) : Option LoopInit → Resolve (Action Unit × Scopes)
  | none => return (return (), c.scopes)
  | some (.expr e) => do
    let v ← valueOf c.registry <$> expr c e
    return (discard v, c.scopes)
  | some (.declaration d) => declaration c d

def test (c : Context) : Option Expr → Resolve (Action Bool)
  | none => return return true
  | some e => do
    let v ← valueOf c.registry <$> expr c e
    return (· != 0) <$> v

def effect (c : Context) : Option Expr → Resolve (Action Unit)
  | none => return return ()
  | some e => do
    let v ← valueOf c.registry <$> expr c e
    return discard v

def declaration (c : Context) : Declaration → Resolve (Action Unit × Scopes)
  | ⟨.vars vars, _⟩ => varDecls c vars
  | ⟨.struct _, _⟩ => return (return (), c.scopes)

def varDecls (c : Context) : List VarDecl → Resolve (Action Unit × Scopes)
  | [] => return (return (), c.scopes)
  | v :: vs => do
    let (first, scopes) ← localVar c v
    let (rest, scopes) ← varDecls { c with scopes } vs
    return (do first; rest, scopes)

/-- A local is in scope in its own initializer. What a braced list, or any initializer of an array,
leaves out is zero. -/
def localVar (c : Context) : VarDecl → Resolve (Action Unit × Scopes)
  | ⟨_, _, _, _, none⟩ => return (throw .stuck, c.scopes)
  | ⟨name, _, none, _, some ty⟩ => do
    let j ← newLocal
    let place := reside j (c.registry.sizeOf ty) (c.registry.alignOf ty)
    return (discard place, c.scopes.declare name j)
  | ⟨name, _, some i, _, some ty⟩ => do
    let j ← newLocal
    let scopes := c.scopes.declare name j
    let fill ← initializer { c with scopes } ty i
    return (do
      let address ← reside j (c.registry.sizeOf ty) (c.registry.alignOf ty)
      if Lowering.needsZeros c.registry ty i then zero c.registry ty address
      fill address, scopes)

/-- What an initializer puts at an address. -/
def initializer (c : Context) (ty : TypeId) : Initializer → Resolve (Int64 → Action Unit)
  | .expr e =>
    match c.registry.ty ty, e.kind with
    | .array _ length, .string text =>
      return fun address => storeBytes address ((Bytes.ofText text).take length)
    | .struct _, _ => do
      let v ← valueOf c.registry <$> expr c e
      return fun address => do copy c.registry ty address (← v)
    | _, _ => do
      let v ← valueOf c.registry <$> expr c e
      return fun address => do store c.registry ty address (← converted c.registry ty v)
  | .list items _ =>
    match c.registry.ty ty with
    | .array element _ => elements c element items
    | .struct s => members c (c.registry.structType s).members items
    | _ => firstItem c ty items

def elements (c : Context) (element : TypeId) : List Initializer → Resolve (Int64 → Action Unit)
  | [] => return fun _ => return ()
  | i :: is => do
    let first ← initializer c element i
    let rest ← elements c element is
    return fun address => do
      first address
      rest (address + Int64.ofNat (c.registry.sizeOf element))

def members (c : Context) (ms : List Member) :
    List Initializer → Resolve (Int64 → Action Unit)
  | [] => return fun _ => return ()
  | i :: is =>
    match ms with
    | [] => return fun _ => return ()
    | m :: ms => do
      let first ← initializer c m.ty i
      let rest ← members c ms is
      return fun address => do
        first (address + Int64.ofNat m.offset)
        rest address

def firstItem (c : Context) (ty : TypeId) : List Initializer → Resolve (Int64 → Action Unit)
  | [] => return fun _ => return ()
  | i :: _ => initializer c ty i

end

/-- An item is not the value of its block, unless it is an expression at the end. -/
theorem blockValue_cons (c : Context) (i : BlockItem) (is : List BlockItem) :
    blockValue c (i :: is) = (do
        let (first, scopes) ← blockItem c i
        let rest ← blockValue { c with scopes } is
        return do
          first
          rest) ∨
      ∃ e span, i = .statement ⟨.expr e, span⟩ ∧ is = [] := by
  rw [blockValue.eq_def]
  split
  · rename_i h
    cases h
  · rename_i e span h
    obtain ⟨rfl, rfl⟩ := List.cons.inj h
    exact .inr ⟨e, span, rfl, rfl⟩
  · rename_i h
    obtain ⟨rfl, rfl⟩ := List.cons.inj h
    exact .inl rfl

/-! Units. -/

open Machine (Fault Memory)
open Syntax

/-- What a function does with its arguments. -/
structure Procedure where
  name : String
  arity : Nat
  body : List Int64 → Action Unit

/-- A struct arrives as its address, and is copied. -/
def receive (r : Registry) (ty : TypeId) (j : Nat) (arg : Int64) : Action Unit := do
  let address ← reside j (r.sizeOf ty) (r.alignOf ty)
  if r.isStruct ty then copy r ty address arg else store r ty address arg

def receiveAll (c : Context) : List ParamDecl → Resolve ((List Int64 → Action Unit) × Scopes)
  | [] => return (fun _ => return (), c.scopes)
  | p :: ps => do
    let j ← newLocal
    let (rest, scopes) ← receiveAll { c with scopes := c.scopes.declare (p.name.getD "") j } ps
    return (fun args => do
      let arg ← need args.head?
      let ty ← need p.resolved
      receive c.registry ty j arg
      rest args.tail, scopes)

def procedure (c : Context) (f : FuncDecl) (body : Block) : Resolve Procedure := do
  modify fun k => { k with locals := 0 }
  let (keep, scopes) ← receiveAll { c with scopes := [[]] } f.params
  let items ← blockItems { c with returns := f.resolvedReturn.getD Registry.void, scopes } body.items
  return ⟨f.name, f.params.length, fun args => do keep args; items⟩

def procedures (c : Context) : List TopDecl → Resolve (List Procedure)
  | [] => return []
  | .declaration _ :: ds => procedures c ds
  | .function f :: ds =>
    match f.body with
    | none => procedures c ds
    | some body => do
      let p ← procedure c f body
      let ps ← procedures c ds
      return p :: ps

/-- A unit, with where its globals and texts lie. -/
structure Program where
  registry : Registry
  unit : CompilationUnit
  global : String → Option Int64
  text : Nat → Int64
  callDepth : Nat

namespace Program

def procedures (p : Program) (rounds : Nat) (call : String → List Int64 → Action Int64) :
    List Procedure :=
  (Evaluation.procedures ⟨p.registry, Registry.void, p.global, p.text, call, rounds, false, []⟩
    p.unit.decls ⟨0, 0⟩).1

/-- A call of one of some functions, if there is room for another activation. -/
def answer (p : Program) (fs : List Procedure) (room : Bool) (name : String) (args : List Int64) :
    Action Int64 :=
  if name = Machine.assertName then lift (Machine.runAssert args)
  else
    match fs.reverse.find? (·.name == name) with
    | none => throw (.fault (.undefinedFunction name))
    | some f =>
      if args.length ≠ f.arity then throw (.fault (.argumentCount name f.arity args.length))
      else if room then activate (f.body args)
      else throw (.fault (.callDepthExceeded p.callDepth))

/-- A call with room for `room` activations, in which loops are evaluated for at most `rounds`
rounds. -/
def invoke (p : Program) (rounds : Nat) : (room : Nat) → String → List Int64 → Action Int64
  | 0 => p.answer (p.procedures rounds fun _ _ => throw .stuck) false
  | room + 1 => p.answer (p.procedures rounds (invoke p rounds room)) true

/-- What surrounds the trees of a function that may make calls `room` deep. -/
def context (p : Program) (rounds room : Nat) (returns : TypeId) (scopes : Scopes) (inLoop : Bool) :
    Context :=
  ⟨p.registry, returns, p.global, p.text, p.invoke rounds room, rounds, inLoop, scopes⟩

/-- What a call from outside comes to, unless loops are left unfinished. -/
def evaluate (p : Program) (rounds : Nat) (s : Machine.State) (name : String) (args : List Int64) :
    Option (Except Fault Int64 × Memory) :=
  match p.invoke rounds (p.callDepth - s.depth) name args ⟨s.memory, s.stack, fun _ => none⟩ with
  | .ok v st => some (.ok v, st.memory)
  | .error (.fault e) st => some (.error e, st.memory)
  | .error _ _ => none

end Program

end MiniC.Evaluation
