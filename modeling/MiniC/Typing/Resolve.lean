import MiniC.Layout.Struct
import MiniC.Machine.Run
import MiniC.Typing.Rules
/-!
The state of an analysis, and what written types stand for. A struct specifier is resolved once;
whatever went wrong, the state holds what was found before.
-/
namespace MiniC.Typing

open Syntax (TypeExpr TypeKind StructSpec StructMember Initializer IntWidth)

structure State where
  registry : Registry
  scope : Scope
  /-- Struct specifiers resolved so far, by number. -/
  specs : Table Nat TypeId
  errors : Array TypingError
  returns : Option TypeId
  loopDepth : Nat

def assertSymbol (r : Registry) : Symbol where
  name := Machine.assertName
  kind := .function ⟨[r.cLong true, r.cLong true], false, true, true⟩
  ty := Registry.cInt
  span := Span.nowhere

def State.initial (config : Layout.Config) : State :=
  let registry := Registry.initial config
  ⟨registry, Scope.empty.replace (assertSymbol registry), {}, #[], none, 0⟩

/-- A check that may change the state and may fail; a failure keeps the changes. -/
abbrev Check := ExceptT TypingError (StateM State)

namespace Check

def registry : Check Registry := do return (← get).registry

def rule (f : Registry → Verdict α) : Check α := do
  match f (← registry) with
  | .ok a => return a
  | .error e => throw e

def name (cause : NameCause) (span : Span) : Check α := throw (.name cause span)

def type (cause : TypeCause) (span : Span) : Check α := throw (.type cause span)

/-- Adds a type to the registry; an error is placed at the construct that needs the type. -/
def intern (f : Registry → Except LayoutError (TypeId × Registry)) (span : Span) :
    Check TypeId := do
  match f (← registry) with
  | .ok (id, registry) =>
    modify ({ · with registry })
    return id
  | .error e => throw (.ofLayout e span)

def pointerTo (t : TypeId) (span : Span) : Check TypeId := intern (·.pointerTo t) span

def arrayOf (t : TypeId) (length : Nat) (span : Span) : Check TypeId :=
  intern (·.arrayOf t length) span

def buildStruct (name : Option String) (members : List MemberDecl) (span : Span) :
    Check TypeId := do
  let (result, registry) := (← registry).buildStruct name members
  modify ({ · with registry })
  match result with
  | .ok id => return id
  | .error e => throw (.ofLayout e span)

def enter (f : Scope → Except ScopeError Scope) (span : Span) : Check Unit := do
  match f (← get).scope with
  | .ok scope => modify ({ · with scope })
  | .error e => name (.scope e) span

def define (s : Symbol) : Check Unit := enter (·.define s) s.span

/-- In value context an array is a pointer to its first element. -/
def decay (t : TypeId) (span : Span) : Check TypeId := do
  match (← registry).ty t with
  | .array element _ => pointerTo element span
  | _ => return t

end Check

open Check

def intType (r : Registry) (width : IntWidth) (signed : Bool) : TypeId :=
  match width with
  | .char => Registry.int 1 signed
  | .short => Registry.int 2 signed
  | .int => Registry.int 4 signed
  | .long => r.cLong signed
  | .longLong => Registry.int 8 signed

def checkElement (t : TypeId) (span : Span) : Check Unit := do
  if (← registry).isVoid t then type .voidElement span

/-- The written nesting of a type is bounded before it is followed. -/
def checkWritten (depth : Nat) (span : Span) : Check Unit := do
  let limit := (← registry).config.maxDepth
  if limit < depth then throw (.layout (.typeTooDeep limit span))

mutual

def resolveAt (depth : Nat) : TypeExpr → Check TypeId
  | ⟨kind, _, span⟩ => do
    checkWritten depth span
    resolveKind depth span kind

def resolveKind (depth : Nat) (span : Span) : TypeKind → Check TypeId
  | .void => return Registry.void
  | .int width signed => return intType (← registry) width signed
  | .pointer inner => do
    let inner ← resolveAt (depth + 1) inner
    pointerTo inner span
  | .array element size => do
    let t ← resolveAt (depth + 1) element
    checkElement t element.span
    match size with
    | some length => arrayOf t length span
    | none => type .incompleteArray span
  | .struct spec => resolveSpec depth spec

def resolveSpec (depth : Nat) : StructSpec → Check TypeId
  | ⟨id, name, members, span⟩ => do
    match (← get).specs[id]? with
    | some t => return t
    | none =>
      let t ← resolveBody depth name span members
      modify fun s => { s with specs := s.specs.insert id t }
      return t

/-- A body is a new struct, bound to its tag if it has one; without a body the tag is looked up. -/
def resolveBody (depth : Nat) (tag : Option String) (span : Span) :
    Option (List StructMember) → Check TypeId
  | some members => do
    let decls ← resolveMembers (depth + 1) members
    let t ← buildStruct tag decls span
    match tag with
    | some name => enter (·.defineTag ⟨name, t, span⟩) span
    | none => pure ()
    return t
  | none => do
    let tag := tag.getD ""
    match (← get).scope.lookupTag tag with
    | some t => return t
    | none => name (.unknownStruct tag) span

def resolveMembers (depth : Nat) : List StructMember → Check (List MemberDecl)
  | [] => return []
  | m :: ms => do
    let decl ← resolveMember depth m
    return decl :: (← resolveMembers depth ms)

def resolveMember (depth : Nat) : StructMember → Check MemberDecl
  | ⟨name, ty, span⟩ => do
    let t ← resolveAt depth ty
    if (← registry).isVoid t then type (.voidMember name) span
    return ⟨name, t, span⟩

end

def resolve (ty : TypeExpr) : Check TypeId := resolveAt 1 ty

/-- The number of elements that an initializer gives to an array without a size. -/
def impliedLength? : Option Initializer → Option Nat
  | some (.list items _) => some items.length
  | some (.expr ⟨.string text, _, _⟩) => some (text.utf8ByteSize + 1)
  | _ => none

def resolveObject (ty : TypeExpr) (init : Option Initializer) : Check TypeId := do
  match ty.kind with
  | .array element none =>
    match impliedLength? init with
    | some length =>
      let t ← resolveAt 2 element
      checkElement t element.span
      arrayOf t length ty.span
    | none => type .incompleteArray ty.span
  | _ => resolve ty

/-- A parameter of array type is a pointer. -/
def resolveParam (ty : TypeExpr) : Check TypeId := do
  match ty.kind with
  | .array element _ =>
    let t ← resolveAt 2 element
    pointerTo t ty.span
  | _ => resolve ty

end MiniC.Typing
