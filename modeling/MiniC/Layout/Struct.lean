import MiniC.Layout.Registry
/-!
Laying out a struct. Members are placed in order of declaration, each at the next offset that its
alignment allows. The struct is aligned like its most aligned member, and its size is rounded up to
that, so that every element of an array of it is aligned as well.
-/
namespace MiniC

structure MemberDecl where
  name : String
  ty : TypeId
  span : Span
  deriving DecidableEq, Repr, Inhabited

/-- A struct with some of its members placed. -/
structure StructDraft where
  members : List Member
  cursor : Nat
  align : Nat
  depth : Nat
  deriving DecidableEq, Repr

namespace StructDraft

def empty : StructDraft := ⟨[], 0, 1, 1⟩

/-- The offset and the end of a member placed after `cursor`. -/
def fit (cursor size align : Nat) : Option (Nat × Nat) :=
  match Layout.alignTo cursor align with
  | none => none
  | some offset =>
    if offset + size ≤ Layout.maxObjectSize then some (offset, offset + size) else none

def place (r : Registry) (d : StructDraft) (m : MemberDecl) : Except LayoutError StructDraft :=
  match d.members.find? (·.name == m.name) with
  | some previous => .error (.duplicateMember m.name m.span previous.span)
  | none =>
    match fit d.cursor (r.sizeOf m.ty) (r.alignOf m.ty) with
    | none => .error (.typeTooLarge m.span)
    | some (offset, stop) =>
      .ok ⟨d.members ++ [⟨m.name, m.ty, offset, m.span⟩], stop,
        max d.align (r.alignOf m.ty), max d.depth (r.depthOf m.ty + 1)⟩

def finish (d : StructDraft) (name : Option String) : Except LayoutError StructType :=
  match fit d.cursor 0 d.align with
  | none => .error (.typeTooLarge Span.nowhere)
  | some (size, _) => .ok ⟨name, d.members, size, d.align, d.depth⟩

end StructDraft

namespace Registry

/-- Places members up to the first that does not fit; their names are known from then on. -/
def placeAll (r : Registry) (d : StructDraft) :
    List MemberDecl → Except LayoutError StructDraft × Registry
  | [] => (.ok d, r)
  | m :: ms =>
    let r := r.noteName m.name
    match d.place r m with
    | .error e => (.error e, r)
    | .ok d => r.placeAll d ms

def finishStruct (r : Registry) (d : StructDraft) (name : Option String) :
    Except LayoutError TypeId × Registry :=
  match d.finish name with
  | .error e => (.error e, r)
  | .ok s =>
    match r.addStruct s with
    | .error e => (.error e, r)
    | .ok (id, r) => (.ok id, r)

def buildStruct (r : Registry) (name : Option String) (members : List MemberDecl) :
    Except LayoutError TypeId × Registry :=
  match r.placeAll StructDraft.empty members with
  | (.error e, r) => (.error e, r)
  | (.ok d, r) => r.finishStruct d name

end Registry
end MiniC
