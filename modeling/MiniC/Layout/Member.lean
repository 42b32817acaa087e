import MiniC.Layout.Render
/-!
Members by name. Nested structs are stored in place, so the offsets along a path add up.
-/
namespace MiniC

structure MemberRef where
  ty : TypeId
  offset : Nat
  deriving DecidableEq, Repr, Inhabited

namespace Registry

def member (r : Registry) (id : TypeId) (name : String) : Except LayoutError MemberRef :=
  match r.asStruct? id with
  | none => .error (.notAStruct (r.display id) Span.nowhere)
  | some s =>
    match s.members.find? (·.name == name) with
    | some m => .ok ⟨m.ty, m.offset⟩
    | none => .error (.unknownMember name (r.display id) Span.nowhere)

/-- Follows names from a member that has been reached already. -/
def pathFrom (r : Registry) (reached : MemberRef) : List String → Except LayoutError MemberRef
  | [] => .ok reached
  | name :: names =>
    match r.member reached.ty name with
    | .error e => .error e
    | .ok m => r.pathFrom ⟨m.ty, reached.offset + m.offset⟩ names

def path (r : Registry) (id : TypeId) (names : List String) : Except LayoutError MemberRef :=
  r.pathFrom ⟨id, 0⟩ names

/-- The scalars that make up a value, in order of address; padding is left out. -/
def moves (r : Registry) (id : TypeId) : List ScalarMove :=
  match r.ty id with
  | .void => []
  | .int bytes signed => [⟨0, ⟨bytes, signed⟩⟩]
  | .pointer _ => [⟨0, ⟨r.config.model.pointerSize, false⟩⟩]
  | .array element length =>
    if element.index < id.index then
      let inner := r.moves element
      let stride := r.sizeOf element
      (List.range length).flatMap fun i => inner.map (·.shift (i * stride))
    else []
  | .struct s =>
    (r.structType s).members.flatMap fun m =>
      if m.ty.index < id.index then (r.moves m.ty).map (·.shift m.offset) else []
termination_by id.index

end Registry
end MiniC
