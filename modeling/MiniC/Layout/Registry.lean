import Std.Data.HashSet
import MiniC.Layout.Access
import MiniC.Layout.DataModel
import MiniC.Layout.Error
/-!
The types of one compilation unit. Equal types other than structs share an id, a struct is equal
only to itself, and size, alignment and depth are computed once, when a type enters. A type refers
only to types that entered before it.
-/
namespace MiniC

/-- A map, as the list of its entries with the last one first. -/
structure Table (κ ν : Type) where
  entries : List (κ × ν)

namespace Table

variable {κ ν : Type} [BEq κ]

instance : EmptyCollection (Table κ ν) := ⟨⟨[]⟩⟩

instance : GetElem? (Table κ ν) κ ν fun m k => (m.entries.lookup k).isSome where
  getElem m k h := (m.entries.lookup k).get h
  getElem? m k := m.entries.lookup k

def insert (m : Table κ ν) (k : κ) (v : ν) : Table κ ν := ⟨(k, v) :: m.entries⟩

end Table

structure TypeId where
  index : Nat
  deriving DecidableEq, Hashable, Repr, Inhabited

structure StructId where
  index : Nat
  deriving DecidableEq, Hashable, Repr, Inhabited

inductive Ty where
  | void
  | int (bytes : Nat) (signed : Bool)
  | pointer (pointee : TypeId)
  | array (element : TypeId) (length : Nat)
  | struct (id : StructId)
  deriving DecidableEq, Hashable, Repr, Inhabited

structure Member where
  name : String
  ty : TypeId
  offset : Nat
  span : Span
  deriving DecidableEq, Repr, Inhabited

/-- A laid-out struct. Its depth is one more than that of its deepest member. -/
structure StructType where
  name : Option String
  members : List Member
  size : Nat
  align : Nat
  depth : Nat
  deriving DecidableEq, Repr, Inhabited

structure TypeInfo where
  ty : Ty
  size : Nat
  align : Nat
  depth : Nat
  deriving DecidableEq, Repr

instance : Inhabited TypeInfo := ⟨⟨.void, 0, 1, 1⟩⟩

structure Registry where
  config : Layout.Config
  types : Array TypeInfo
  ids : Table Ty TypeId
  structs : Array StructType
  /-- Every member name ever mentioned, also in a struct that failed. -/
  names : Std.HashSet String

namespace Registry

/-- Entered first and in this order, so the ids of the scalars are fixed. -/
def scalars : List Ty :=
  [.void, .int 1 true, .int 1 false, .int 2 true, .int 2 false,
    .int 4 true, .int 4 false, .int 8 true, .int 8 false]

def scalarInfo (model : DataModel) : Ty → TypeInfo
  | .int bytes signed => ⟨.int bytes signed, bytes, model.intAlign bytes, 1⟩
  | ty => ⟨ty, 0, 1, 1⟩

def initial (config : Layout.Config) : Registry where
  config
  types := (scalars.map (scalarInfo config.model)).toArray
  ids := ⟨scalars.zipIdx.map fun (ty, i) => (ty, ⟨i⟩)⟩
  structs := #[]
  names := {}

def info (r : Registry) (id : TypeId) : TypeInfo := r.types.getD id.index default
def ty (r : Registry) (id : TypeId) : Ty := (r.info id).ty
def sizeOf (r : Registry) (id : TypeId) : Nat := (r.info id).size
def alignOf (r : Registry) (id : TypeId) : Nat := (r.info id).align
def depthOf (r : Registry) (id : TypeId) : Nat := (r.info id).depth

def structType (r : Registry) (id : StructId) : StructType := r.structs.getD id.index default

/-- An id has four bytes. -/
def capacity : Nat := Bytes.range 4

def insert (r : Registry) (info : TypeInfo) : Except LayoutError (TypeId × Registry) :=
  if r.types.size < capacity then
    let id : TypeId := ⟨r.types.size⟩
    .ok (id, { r with types := r.types.push info, ids := r.ids.insert info.ty id })
  else .error (.typeTooLarge Span.nowhere)

def checkDepth (r : Registry) (depth : Nat) : Except LayoutError Unit :=
  if r.config.maxDepth < depth then .error (.typeTooDeep r.config.maxDepth Span.nowhere)
  else .ok ()

/-- Size, alignment and depth of a type that is about to enter. -/
def measure (r : Registry) : Ty → Except LayoutError TypeInfo
  | .void => .ok (scalarInfo r.config.model .void)
  | .int bytes signed => .ok (scalarInfo r.config.model (.int bytes signed))
  | .pointer pointee =>
    .ok ⟨.pointer pointee, r.config.model.pointerSize, r.config.model.pointerAlign,
      r.depthOf pointee + 1⟩
  | .array element length =>
    let size := r.sizeOf element * length
    if size ≤ Layout.maxObjectSize then
      .ok ⟨.array element length, size, r.alignOf element, r.depthOf element + 1⟩
    else .error (.typeTooLarge Span.nowhere)
  | .struct id =>
    let s := r.structType id
    .ok ⟨.struct id, s.size, s.align, s.depth⟩

/-- The id of a type, which enters the registry if it is new and not too deep. -/
def intern (r : Registry) (ty : Ty) : Except LayoutError (TypeId × Registry) :=
  match r.ids[ty]? with
  | some id => .ok (id, r)
  | none =>
    match r.measure ty with
    | .error e => .error e
    | .ok info =>
      match r.checkDepth info.depth with
      | .error e => .error e
      | .ok () => r.insert info

def pointerTo (r : Registry) (pointee : TypeId) : Except LayoutError (TypeId × Registry) :=
  r.intern (.pointer pointee)

def arrayOf (r : Registry) (element : TypeId) (length : Nat) :
    Except LayoutError (TypeId × Registry) :=
  r.intern (.array element length)

/-- Every struct that enters is a type of its own. -/
def addStruct (r : Registry) (s : StructType) : Except LayoutError (TypeId × Registry) :=
  match r.checkDepth s.depth with
  | .error e => .error e
  | .ok () =>
    let id : StructId := ⟨r.structs.size⟩
    { r with structs := r.structs.push s }.insert ⟨.struct id, s.size, s.align, s.depth⟩

def noteName (r : Registry) (name : String) : Registry :=
  { r with names := r.names.insert name }

def knowsName (r : Registry) (name : String) : Bool := r.names.contains name

def void : TypeId := ⟨0⟩

/-- The integer of 1, 2, 4 or 8 bytes. -/
def int (bytes : Nat) (signed : Bool) : TypeId :=
  ⟨1 + 2 * bytes.log2 + if signed then 0 else 1⟩

def cInt : TypeId := int 4 true
def cChar : TypeId := int 1 true

def cLong (r : Registry) (signed : Bool) : TypeId := int r.config.model.longSize signed

def asStruct? (r : Registry) (id : TypeId) : Option StructType :=
  match r.ty id with
  | .struct s => some (r.structType s)
  | _ => none

def isVoid (r : Registry) (id : TypeId) : Bool :=
  match r.ty id with | .void => true | _ => false

def isInteger (r : Registry) (id : TypeId) : Bool :=
  match r.ty id with | .int .. => true | _ => false

def isSigned (r : Registry) (id : TypeId) : Bool :=
  match r.ty id with | .int _ signed => signed | _ => false

def isPointer (r : Registry) (id : TypeId) : Bool :=
  match r.ty id with | .pointer _ => true | _ => false

def isArray (r : Registry) (id : TypeId) : Bool :=
  match r.ty id with | .array .. => true | _ => false

def isStruct (r : Registry) (id : TypeId) : Bool :=
  match r.ty id with | .struct _ => true | _ => false

/-- A value that one load or store moves. -/
def isScalar (r : Registry) (id : TypeId) : Bool := r.isInteger id || r.isPointer id

def pointee? (r : Registry) (id : TypeId) : Option TypeId :=
  match r.ty id with | .pointer inner => some inner | _ => none

/-- What subscripting or following a value of this type reaches. -/
def element? (r : Registry) (id : TypeId) : Option TypeId :=
  match r.ty id with
  | .pointer inner => some inner
  | .array element _ => some element
  | _ => none

def access? (r : Registry) (id : TypeId) : Option Access :=
  match r.ty id with
  | .int bytes signed => some ⟨bytes, signed⟩
  | .pointer _ => some ⟨r.config.model.pointerSize, false⟩
  | _ => none

end Registry
end MiniC
