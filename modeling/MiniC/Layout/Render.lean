import MiniC.Layout.Registry
/-!
The spelling of types in messages, and layout tables.
-/
namespace MiniC.Registry

def intName (model : DataModel) (bytes : Nat) (signed : Bool) : String :=
  let base :=
    if bytes = 1 then "char"
    else if bytes = 2 then "short"
    else if bytes = 4 then "int"
    else if model.longSize = 8 then "long"
    else "long long"
  if signed then base else "unsigned " ++ base

def display (r : Registry) (id : TypeId) : String :=
  match r.ty id with
  | .void => "void"
  | .int bytes signed => intName r.config.model bytes signed
  | .pointer inner => if inner.index < id.index then r.display inner ++ "*" else "*"
  | .array element length =>
    if element.index < id.index then s!"{r.display element}[{length}]" else s!"[{length}]"
  | .struct s =>
    match (r.structType s).name with
    | some name => "struct " ++ name
    | none => "struct <anonymous>"
termination_by id.index

def padLeft (width : Nat) (s : String) : String :=
  String.ofList (List.replicate (width - s.length) ' ') ++ s

def padRight (width : Nat) (s : String) : String :=
  s ++ String.ofList (List.replicate (width - s.length) ' ')

def describeMember (r : Registry) (m : Member) : String :=
  let offset := padLeft 6 (toString m.offset)
  s!"  {offset}  {padRight 12 m.name} {r.display m.ty} (size {r.sizeOf m.ty})\n"

def describeStruct (r : Registry) (index : Nat) (s : StructType) : String :=
  let title := match s.name with
    | some name => "struct " ++ name
    | none => s!"struct <anonymous #{index}>"
  s!"{title}: size {s.size}, align {s.align}\n" ++ String.join (s.members.map r.describeMember)

/-- The layout of every struct, in order of definition. -/
def describeStructs (r : Registry) : List String :=
  r.structs.toList.zipIdx.map fun (s, i) => r.describeStruct i s

end MiniC.Registry
