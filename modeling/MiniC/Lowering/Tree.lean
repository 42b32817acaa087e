import MiniC.Bytes
import MiniC.Lowering.Arithmetic
import MiniC.Lowering.Control
import MiniC.Lowering.Place
import MiniC.Syntax.Constant
/-!
Code for expressions and statements. An expression that names an object becomes a place, of which
nothing is read yet; any other becomes a value. Operands are evaluated from left to right.
-/
namespace MiniC.Lowering

open Syntax
open Code (Operand)

inductive Lowered where
  | place (p : Place)
  | value (v : Operand)
  deriving DecidableEq, Repr, Inhabited

def valueOf (r : Registry) (code : Lower Lowered) : Lower Operand := do
  match ← code with
  | .place p => p.load r
  | .value v => return v

/-- The place that is assigned to, or whose address is taken. -/
def placeOf (e : Expr) (code : Lower Lowered) : Lower Place := do
  match ← code with
  | .place p => return p
  | .value _ => throw (.notLvalue e.span)

/-- The inside of a struct or array: a value of such a type is its address. -/
def storageOf (code : Lower Lowered) (offset : Int64) (ty : TypeId) : Lower Place := do
  match ← code with
  | .place p => return p.further offset ty
  | .value v => return ⟨v, offset, ty⟩

def typeOf (e : Expr) : Lower TypeId := need (.untyped e.span) e.ty

/-- Subscripting by a constant moves the offset, by anything else the base. -/
def subscript (element : Place) (stride : Int64) (constant : Option Int64)
    (index : Lower Operand) : Lower Place := do
  match constant with
  | some i => return element.further (i * stride) element.ty
  | none =>
    let i ← index
    let distance ← define (.binary · .mul i (.const stride))
    let base ← define (.binary · .add element.base distance)
    return { element with base }

/-- The value is computed before the place of the target is. -/
def assignStruct (r : Registry) (ty : TypeId) (source : Lower Operand) (target : Lower Place) :
    Lower Operand := do
  let v ← source
  let p ← target
  p.copy r ⟨v, 0, ty⟩
  p.address

def assignScalar (r : Registry) (ty : TypeId) (source : Lower Operand) (target : Lower Place) :
    Lower Operand := do
  let v ← source
  let v ← convert r v ty
  let p ← target
  p.store r v
  return v

/-- The target is read before the value is computed. -/
def assignCompound (r : Registry) (op : BinaryOp) (ty : TypeId) (source : Expr)
    (code : Lower Operand) (target : Lower Place) : Lower Operand := do
  let p ← target
  let old ← p.load r
  let v ← code
  let sourceTy ← typeOf source
  let v ← arithmetic r op old ty v sourceTy ty
  p.store r v
  return v

def step (r : Registry) (ty : TypeId) (decrement yieldsOld : Bool) (target : Lower Place) :
    Lower Operand := do
  let p ← target
  let old ← p.load r
  let distance := (stride? r ty).getD 1
  let new ← define (.binary · (if decrement then .sub else .add) old (.const distance))
  let new ← convert r new ty
  p.store r new
  return if yieldsOld then old else new

/-- A call for nothing yields zero. -/
def call (r : Registry) (ty : TypeId) (callee : Expr) (args : Lower (List Operand)) :
    Lower Operand := do
  match callee.kind with
  | .name name =>
    let args ← args
    if r.isVoid ty then
      emit (.call none name args)
      return .const 0
    else define fun t => .call (some t) name args
  | _ => throw .indirectCall

def cast (r : Registry) (ty : TypeId) (v : Operand) : Lower Operand :=
  if r.isVoid ty then return .const 0 else convert r v ty

/-- What a braced list, or any initializer of an array, leaves out is zero. -/
def needsZeros (r : Registry) (ty : TypeId) : Initializer → Bool
  | .list .. => true
  | .expr _ => r.isArray ty

mutual

def expr (c : Context) : Expr → Lower Lowered
  | ⟨_, span, none⟩ => throw (.untyped span)
  | ⟨kind, _, some ty⟩ => exprKind c ty kind

def exprKind (c : Context) (ty : TypeId) : ExprKind → Lower Lowered
  | .integer n => return .value (.const n)
  | .character b => return .value (.const (characterValue b))
  | .string text => return .value (.data (← addText text))
  | .name name => return .place ⟨← variableAddress name, 0, ty⟩
  | .binary op left right => do
    if op.isLogical then
      .value <$> logical (op == .logAnd) (valueOf c.registry (expr c left))
        (valueOf c.registry (expr c right))
    else
      let l ← valueOf c.registry (expr c left)
      let r ← valueOf c.registry (expr c right)
      .value <$> arithmetic c.registry op l (← typeOf left) r (← typeOf right) ty
  | .unary op operand => do
    let v ← valueOf c.registry (expr c operand)
    let v ← define (.unary · (machineUnary op) v)
    .value <$> convert c.registry v ty
  | .assign op target source => do
    let value := valueOf c.registry (expr c source)
    let place := placeOf target (expr c target)
    if c.registry.isStruct ty then .value <$> assignStruct c.registry ty value place
    else
      match op with
      | none => .value <$> assignScalar c.registry ty value place
      | some op => .value <$> assignCompound c.registry op ty source value place
  | .conditional cond yes no => do
    let cond := valueOf c.registry (expr c cond)
    let yes := do convert c.registry (← valueOf c.registry (expr c yes)) ty
    let no := do convert c.registry (← valueOf c.registry (expr c no)) ty
    .value <$> conditional cond yes no
  | .call callee args => .value <$> call c.registry ty callee (values c args)
  | .index array index => do
    let stride := Int64.ofNat (c.registry.sizeOf ty)
    let element ←
      if c.registry.isArray (← typeOf array) then storageOf (expr c array) 0 ty
      else pure ⟨← valueOf c.registry (expr c array), 0, ty⟩
    .place <$> subscript element stride index.constant? (valueOf c.registry (expr c index))
  | .member object _ resolved => do
    let m ← need .unresolvedMember resolved
    .place <$> storageOf (expr c object) (Int64.ofNat m.offset) m.ty
  | .pointerMember pointer _ resolved => do
    let m ← need .unresolvedMember resolved
    return .place ⟨← valueOf c.registry (expr c pointer), Int64.ofNat m.offset, m.ty⟩
  | .cast _ operand => do .value <$> cast c.registry ty (← valueOf c.registry (expr c operand))
  | .query .. | .typeQuery .. => throw .sizeQuery
  | .addressOf operand => do .value <$> (← placeOf operand (expr c operand)).address
  | .deref pointer => return .place ⟨← valueOf c.registry (expr c pointer), 0, ty⟩
  | .step operand decrement yieldsOld =>
    .value <$> step c.registry ty decrement yieldsOld (placeOf operand (expr c operand))
  | .comma items => .value <$> lastValue c (.const 0) items
  | .block ⟨items, _⟩ => .value <$> inScope (blockValue c items)

def values (c : Context) : List Expr → Lower (List Operand)
  | [] => return []
  | e :: es => do
    let v ← valueOf c.registry (expr c e)
    return v :: (← values c es)

/-- All values are computed; `last` is that of an empty list. -/
def lastValue (c : Context) (last : Operand) : List Expr → Lower Operand
  | [] => return last
  | e :: es => do lastValue c (← valueOf c.registry (expr c e)) es

/-- A block yields the value of an expression statement at its end, and otherwise zero. -/
def blockValue (c : Context) : List BlockItem → Lower Operand
  | [] => return .const 0
  | [.statement ⟨.expr e, _⟩] => valueOf c.registry (expr c e)
  | i :: is => do
    blockItem c i
    blockValue c is

def blockItems (c : Context) : List BlockItem → Lower Unit
  | [] => return ()
  | i :: is => do
    blockItem c i
    blockItems c is

def blockItem (c : Context) : BlockItem → Lower Unit
  | .statement s => stmt c s
  | .declaration d => declaration c d

def stmt (c : Context) : Stmt → Lower Unit
  | ⟨kind, _⟩ => stmtKind c kind

def stmtKind (c : Context) : StmtKind → Lower Unit
  | .expr e => discard (valueOf c.registry (expr c e))
  | .empty => return ()
  | .block ⟨items, _⟩ => inScope (blockItems c items)
  | .if_ cond yes none => ifOnly (valueOf c.registry (expr c cond)) (stmt c yes)
  | .if_ cond yes (some no) => ifElse (valueOf c.registry (expr c cond)) (stmt c yes) (stmt c no)
  | .loop kind init cond update body => inScope do
    loopInit c init
    loop kind.testsFirst (test c cond)
      (fun stop next => stmt { c with breakTo := some stop, continueTo := some next } body)
      (effect c update)
  | .break_ => leave c.breakTo
  | .continue_ => leave c.continueTo
  | .return_ none => emit (.ret none)
  | .return_ (some e) => do
    let v ← valueOf c.registry (expr c e)
    let v ← convert c.registry v c.returns
    emit (.ret (some v))

def loopInit (c : Context) : Option LoopInit → Lower Unit
  | none => return ()
  | some (.expr e) => discard (valueOf c.registry (expr c e))
  | some (.declaration d) => declaration c d

/-- Leaves the loop if the condition, where there is one, is zero. -/
def test (c : Context) : Option Expr → (stop : Code.Label) → Lower Unit
  | none, _ => return ()
  | some e, stop => do branchUnless (← valueOf c.registry (expr c e)) stop

def effect (c : Context) : Option Expr → Lower Unit
  | none => return ()
  | some e => discard (valueOf c.registry (expr c e))

def declaration (c : Context) : Declaration → Lower Unit
  | ⟨.vars vars, _⟩ => varDecls c vars
  | ⟨.struct _, _⟩ => return ()

def varDecls (c : Context) : List VarDecl → Lower Unit
  | [] => return ()
  | v :: vs => do
    localVar c v
    varDecls c vs

/-- The name is bound before the initializer runs. -/
def localVar (c : Context) : VarDecl → Lower Unit
  | ⟨name, _, init, _, resolved⟩ => do
    let ty ← need (.unresolved name) resolved
    let slot ← allocate c.registry ty
    bind name slot
    match init with
    | none => return ()
    | some i =>
      if needsZeros c.registry ty i then Place.zero c.registry ⟨.temp slot, 0, ty⟩
      initializer c ⟨.temp slot, 0, ty⟩ i

def initializer (c : Context) (target : Place) : Initializer → Lower Unit
  | .expr e => do
    match c.registry.ty target.ty, e.kind with
    | .array _ length, .string text => target.storeBytes ((Bytes.ofText text).take length)
    | .struct _, _ =>
      let v ← valueOf c.registry (expr c e)
      target.copy c.registry ⟨v, 0, target.ty⟩
    | _, _ =>
      let v ← valueOf c.registry (expr c e)
      let v ← convert c.registry v target.ty
      target.store c.registry v
  | .list items _ =>
    match c.registry.ty target.ty with
    | .array element _ => elements c element target items
    | .struct s => members c target (c.registry.structType s).members items
    | _ => firstItem c target items

def elements (c : Context) (element : TypeId) (target : Place) : List Initializer → Lower Unit
  | [] => return ()
  | i :: is => do
    initializer c { target with ty := element } i
    elements c element (target.further (Int64.ofNat (c.registry.sizeOf element)) target.ty) is

def members (c : Context) (target : Place) (ms : List Member) : List Initializer → Lower Unit
  | [] => return ()
  | i :: is => do
    match ms with
    | [] => return ()
    | m :: ms =>
      initializer c (target.further (Int64.ofNat m.offset) m.ty) i
      members c target ms is

def firstItem (c : Context) (target : Place) : List Initializer → Lower Unit
  | [] => return ()
  | i :: _ => initializer c target i

end

end MiniC.Lowering
