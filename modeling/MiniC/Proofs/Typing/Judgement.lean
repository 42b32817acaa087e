import MiniC.Proofs.Typing.Names
/-!
The typing judgement: which analyzed trees make sense, as rules that mention no state, no failure
and no order of analysis. An expression has the type that stands in it; its value has the type to
which that decays. Declarations lead from one site to the next, as each is in scope after it.
-/
namespace MiniC

/-- An object into which a value is moved, by one store or member by member. -/
def Registry.Movable (r : Registry) (t : TypeId) : Prop :=
  r.isScalar t = true ∨ r.isStruct t = true

/-- A type of the registry. -/
def Registry.Valid (r : Registry) (t : TypeId) : Prop := t.index < r.types.size

/-- The type of a value, given that of its expression. -/
def Registry.Decays (r : Registry) (t t' : TypeId) : Prop :=
  match r.ty t with
  | .array element _ => r.ty t' = .pointer element
  | _ => t' = t

namespace Typing

open Syntax

/-- The symbols of the locals, innermost scope and newest first. -/
abbrev Frames := List (List Symbol)

def Frames.symbol? (Γ : Frames) (name : String) : Option Symbol :=
  Γ.findSome? (·.find? (·.name == name))

def Frames.declare (Γ : Frames) (sym : Symbol) : Frames :=
  match Γ with
  | [] => []
  | frame :: outer => (sym :: frame) :: outer

/-- What holds throughout a unit. -/
structure Env where
  registry : Registry
  globals : List Symbol

/-- What surrounds a construct. -/
structure Site where
  frames : Frames
  loops : Nat
  returns : Option TypeId

/-- The symbol that a variable declares. -/
def symbolOf (isGlobal : Bool) (v : VarDecl) : Symbol :=
  ⟨v.name, .variable isGlobal, v.resolved.getD Registry.void, v.span⟩

namespace Site

def inner (C : Site) : Site := { C with frames := [] :: C.frames }

def declare (C : Site) (sym : Symbol) : Site := { C with frames := C.frames.declare sym }

def inLoop (C : Site) : Site := { C with loops := C.loops + 1 }

/-- Outside all functions. -/
def isGlobal (C : Site) : Bool := C.frames.isEmpty

theorem isGlobal_declare (C : Site) (sym : Symbol) : (C.declare sym).isGlobal = C.isGlobal := by
  obtain ⟨frames, loops, returns⟩ := C
  cases frames <;> rfl

def afterVar (C : Site) (v : VarDecl) : Site := C.declare (symbolOf C.isGlobal v)

def afterVars (C : Site) (vs : List VarDecl) : Site := vs.foldl afterVar C

def afterDecl (C : Site) : Declaration → Site
  | ⟨.vars vs, _⟩ => C.afterVars vs
  | ⟨.struct _, _⟩ => C

def afterItem (C : Site) : BlockItem → Site
  | .statement _ => C
  | .declaration d => C.afterDecl d

def afterItems (C : Site) (is : List BlockItem) : Site := is.foldl afterItem C

def afterInit (C : Site) : Option LoopInit → Site
  | some (.declaration d) => C.afterDecl d
  | _ => C

end Site

variable (E : Env)

/-- What a source of some type may be assigned to, plainly or by an operator. -/
def Assigns (op : Option BinaryOp) (target value : TypeId) (source : Expr) (span : Span) : Prop :=
  match op with
  | none => isAssignable E.registry target value source = true
  | some op => checkCompound E.registry op target value span = .ok ()

/-- An argument fits its parameter; past the parameters it is no struct. -/
def Passes (param : Option TypeId) (value : TypeId) (arg : Expr) : Prop :=
  match param with
  | some p => isAssignable E.registry p value arg = true
  | none => E.registry.isStruct value = false

/-- An array that is declared without a length has as many elements as its initializer gives it. -/
def Counted (ty : TypeExpr) (init : Option Initializer) (t : TypeId) : Prop :=
  ∀ element, ty.kind = .array element none →
    ∃ u length, impliedLength? init = some length ∧ E.registry.ty t = .array u length

/-- A number has the type of its literal, or that of a size. -/
def Numbers (n : Int64) (t : TypeId) : Prop :=
  t = integerType n ∨ t = E.registry.cLong false

/-- A block expression has the value of the expression statement at its end, if there is one. -/
def Yields (b : Block) (t : TypeId) : Prop :=
  match b.trailing?.bind (·.ty) with
  | some last => E.registry.Decays last t
  | none => t = Registry.void

mutual

inductive HasType : Site → Expr → TypeId → Prop
  | integer {C n span t} : E.registry.isInteger t = true → Numbers E n t →
      HasType C ⟨.integer n, span, some t⟩ t
  | character {C b span} : HasType C ⟨.character b, span, some Registry.cInt⟩ Registry.cInt
  | string {C text span t} :
      E.registry.ty t = .array Registry.cChar (text.utf8ByteSize + 1) →
      HasType C ⟨.string text, span, some t⟩ t
  | «local» {C name span sym} : C.frames.symbol? name = some sym →
      HasType C ⟨.name name, span, some sym.ty⟩ sym.ty
  | global {C name span sym} : C.frames.symbol? name = none → sym ∈ E.globals →
      sym.name = name → sym.IsObject →
      HasType C ⟨.name name, span, some sym.ty⟩ sym.ty
  | binary {C op left right span l r t} : HasValue C left l → HasValue C right r →
      binaryType E.registry op l r span = .ok t →
      HasType C ⟨.binary op left right, span, some t⟩ t
  | unary {C op operand span o t} : HasValue C operand o →
      unaryType E.registry op o operand.span span = .ok t →
      HasType C ⟨.unary op operand, span, some t⟩ t
  | assign {C op target source span v t} : HasType C target t → isLvalue target = true →
      E.registry.Movable t → HasValue C source v → Assigns E op t v source span →
      HasType C ⟨.assign op target source, span, some t⟩ t
  | conditional {C cond yes no span c y n t} : HasValue C cond c →
      E.registry.isScalar c = true → HasValue C yes y → HasValue C no n →
      conditionalType E.registry y n yes no span = .ok t →
      HasType C ⟨.conditional cond yes no, span, some t⟩ t
  | call {C callee args span name sym sig} : callee.kind = .name name →
      C.frames.symbol? name = none → sym ∈ E.globals → sym.name = name →
      sym.kind = .function sig → sig.Takes args.length → Arguments C sig.params args →
      HasType C ⟨.call callee args, span, some sym.ty⟩ sym.ty
  | index {C array subscript span a i t} : HasType C array a → HasValue C subscript i →
      E.registry.isInteger i = true → elementType E.registry a span = .ok t →
      HasType C ⟨.index array subscript, span, some t⟩ t
  | member {C object field span o m} : HasType C object o →
      E.registry.member o field = .ok m →
      HasType C ⟨.member object field (some m), span, some m.ty⟩ m.ty
  | pointerMember {C pointer field span p target m} : HasValue C pointer p →
      E.registry.pointee? p = some target → E.registry.member target field = .ok m →
      HasType C ⟨.pointerMember pointer field (some m), span, some m.ty⟩ m.ty
  | cast {C target operand span o t} : HasValue C operand o →
      checkCast E.registry t o operand.span span = .ok t →
      HasType C ⟨.cast target operand, span, some t⟩ t
  | addressOf {C operand span o t} : HasType C operand o → isLvalue operand = true →
      E.registry.ty t = .pointer o → HasType C ⟨.addressOf operand, span, some t⟩ t
  | deref {C operand span o t} : HasValue C operand o → derefType E.registry o span = .ok t →
      HasType C ⟨.deref operand, span, some t⟩ t
  | step {C operand decrement yieldsOld span t} : HasType C operand t →
      isLvalue operand = true → E.registry.isScalar t = true →
      checkStep E.registry t span = .ok () →
      HasType C ⟨.step operand decrement yieldsOld, span, some t⟩ t
  | comma {C items span t} : LastValue C Registry.void items t →
      HasType C ⟨.comma items, span, some t⟩ t
  | block {C b span t} : IsItems C.inner b.items → Yields E b t →
      HasType C ⟨.block b, span, some t⟩ t

inductive HasValue : Site → Expr → TypeId → Prop
  | decays {C e t t'} : HasType C e t → E.registry.Decays t t' → HasValue C e t'

/-- The last of several values; the first index is the type of an empty list. -/
inductive LastValue : Site → TypeId → List Expr → TypeId → Prop
  | nil {C t} : LastValue C t [] t
  | cons {C e es last t u} : HasValue C e t → LastValue C t es u → LastValue C last (e :: es) u

inductive Arguments : Site → List TypeId → List Expr → Prop
  | nil {C params} : Arguments C params []
  | cons {C params e es t} : HasValue C e t → Passes E params.head? t e →
      Arguments C params.tail es → Arguments C params (e :: es)

inductive IsItems : Site → List BlockItem → Prop
  | nil {C} : IsItems C []
  | statement {C s is} : IsStmt C s → IsItems C is → IsItems C (.statement s :: is)
  | declaration {C d is} : IsDecl C d → IsItems (C.afterDecl d) is →
      IsItems C (.declaration d :: is)

inductive IsStmt : Site → Stmt → Prop
  | expr {C e span t} : HasType C e t → E.registry.Valid t → IsStmt C ⟨.expr e, span⟩
  | empty {C span} : IsStmt C ⟨.empty, span⟩
  | block {C b span} : IsItems C.inner b.items → IsStmt C ⟨.block b, span⟩
  | if_ {C cond yes no span} : IsCondition C (some cond) → IsStmt C yes → IsStmt? C no →
      IsStmt C ⟨.if_ cond yes no, span⟩
  | loop {C kind init cond update body span} : IsLoopInit C.inner init →
      IsCondition (C.inner.afterInit init) cond → IsExpr? (C.inner.afterInit init) update →
      IsStmt (C.inner.afterInit init).inLoop body → IsStmt C ⟨.loop kind init cond update body, span⟩
  | break_ {C span} : 0 < C.loops → IsStmt C ⟨.break_, span⟩
  | continue_ {C span} : 0 < C.loops → IsStmt C ⟨.continue_, span⟩
  | return_ {C e span} : IsReturn C e → IsStmt C ⟨.return_ e, span⟩

inductive IsStmt? : Site → Option Stmt → Prop
  | none {C} : IsStmt? C none
  | some {C s} : IsStmt C s → IsStmt? C (some s)

inductive IsExpr? : Site → Option Expr → Prop
  | none {C} : IsExpr? C none
  | some {C e t} : HasType C e t → IsExpr? C (some e)

/-- A condition that is left out always holds. -/
inductive IsCondition : Site → Option Expr → Prop
  | none {C} : IsCondition C none
  | some {C e t} : HasValue C e t → E.registry.isScalar t = true → IsCondition C (some e)

inductive IsReturn : Site → Option Expr → Prop
  | none {C t} : C.returns = some t → IsReturn C none
  | some {C e t v} : C.returns = some t → E.registry.isVoid t = false → HasValue C e v →
      isAssignable E.registry t v e = true → IsReturn C (some e)

inductive IsLoopInit : Site → Option LoopInit → Prop
  | none {C} : IsLoopInit C none
  | expr {C e t} : HasType C e t → IsLoopInit C (some (.expr e))
  | declaration {C d} : IsDecl C d → IsLoopInit C (some (.declaration d))

inductive IsDecl : Site → Declaration → Prop
  | vars {C vs span} : IsVars C vs → IsDecl C ⟨.vars vs, span⟩
  | struct {C spec span} : IsDecl C ⟨.struct spec, span⟩

/-- A variable is in scope in its own initializer. -/
inductive IsVars : Site → List VarDecl → Prop
  | nil {C} : IsVars C []
  | cons {C v t vs} : v.resolved = some t → E.registry.isVoid t = false →
      Counted E v.ty v.init t → Initializes? (C.afterVar v) t v.init → IsVars (C.afterVar v) vs →
      IsVars C (v :: vs)

inductive Initializes? : Site → TypeId → Option Initializer → Prop
  | none {C t} : Initializes? C t none
  | some {C t i} : Initializes C t i → Initializes? C t (some i)

/-- Outside functions an initial value is a constant. -/
inductive Initializes : Site → TypeId → Initializer → Prop
  | text {C t element length text span ty} : E.registry.ty t = .array element length →
      E.registry.sizeOf element = 1 → E.registry.isInteger element = true →
      text.utf8ByteSize ≤ length → HasType C ⟨.string text, span, some ty⟩ ty →
      Initializes C t (.expr ⟨.string text, span, some ty⟩)
  | value {C t e v} : E.registry.Movable t → HasValue C e v →
      isAssignable E.registry t v e = true → (C.isGlobal = true → e.constant?.isSome = true) →
      Initializes C t (.expr e)
  | elements {C t element length items span} : E.registry.ty t = .array element length →
      InitializesAll C (List.replicate length element) items → Initializes C t (.list items span)
  | members {C t s items span} : E.registry.ty t = .struct s →
      InitializesAll C ((E.registry.structType s).members.map (·.ty)) items →
      Initializes C t (.list items span)
  | scalar {C t e span} : E.registry.isScalar t = true → Initializes C t (.expr e) →
      Initializes C t (.list [.expr e] span)

/-- What is left out at the end stays zero. -/
inductive InitializesAll : Site → List TypeId → List Initializer → Prop
  | nil {C ts} : InitializesAll C ts []
  | cons {C t ts i is} : Initializes C t i → InitializesAll C ts is →
      InitializesAll C (t :: ts) (i :: is)

end

/-- A parameter has a type, and in a definition also a name. -/
def IsParam (hasBody : Bool) (p : ParamDecl) : Prop :=
  (∃ t, p.resolved = some t ∧ E.registry.Movable t) ∧ (hasBody = true → p.name.isSome = true)

def addParam (syms : List Symbol) (p : ParamDecl) : List Symbol :=
  match p.name, p.resolved with
  | some name, some t => ⟨name, .parameter, t, p.span⟩ :: syms
  | _, _ => syms

/-- The symbols of the parameters, newest first. -/
def paramSymbols (ps : List ParamDecl) : List Symbol := ps.foldl addParam []

/-- The site of a function body: parameters share a frame with the outermost locals. -/
def Site.ofFunction (f : FuncDecl) : Site := ⟨[paramSymbols f.params], 0, f.resolvedReturn⟩

structure IsFunction (f : FuncDecl) : Prop where
  returns : ∃ t, f.resolvedReturn = some t ∧
    (E.registry.isVoid t = true ∨ E.registry.isScalar t = true)
  params : ∀ p ∈ f.params, IsParam E f.isDefinition p
  body : ∀ b, f.body = some b → IsItems E (Site.ofFunction f) b.items

def Site.outermost : Site := ⟨[], 0, none⟩

def IsTopDecl : TopDecl → Prop
  | .declaration d => IsDecl E Site.outermost d
  | .function f => IsFunction E f

def IsUnit (u : CompilationUnit) : Prop := ∀ d ∈ u.decls, IsTopDecl E d

theorem HasType.ty_eq {C : Site} {e : Expr} {t : TypeId} (h : HasType E C e t) : e.ty = some t := by
  cases h <;> rfl

theorem HasValue.exists_ty {C : Site} {e : Expr} {v : TypeId} (h : HasValue E C e v) :
    ∃ t, e.ty = some t := by
  cases h with
  | decays he _ => exact ⟨_, he.ty_eq⟩

end Typing
end MiniC
