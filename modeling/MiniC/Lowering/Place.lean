import MiniC.Layout.Member
import MiniC.Lowering.Emit
/-!
Places: a base address and the bytes to go on from there. Members and constant subscripts only move
the offset, and nothing is loaded before a scalar is read. A struct or an array is never loaded as a
whole: its value is its address, and it is copied scalar by scalar, without the padding.
-/
namespace MiniC.Lowering

open Code

structure Place where
  base : Operand
  offset : Int64
  ty : TypeId
  deriving DecidableEq, Repr, Inhabited

namespace Place

/-- The object that lies `distance` bytes further on. -/
def further (p : Place) (distance : Int64) (ty : TypeId) : Place :=
  ⟨p.base, p.offset + distance, ty⟩

def member (p : Place) (m : MemberRef) : Place := p.further (Int64.ofNat m.offset) m.ty

def address (p : Place) : Lower Operand :=
  if p.offset = 0 then return p.base
  else
    match p.base with
    | .const n => return .const (n + p.offset)
    | base => define (.binary · .add base (.const p.offset))

/-- A place of no value, such as one of type void, reads as zero. -/
def load (r : Registry) (p : Place) : Lower Operand :=
  if r.isArray p.ty || r.isStruct p.ty then p.address
  else
    match r.access? p.ty with
    | some access => define (.load · p.base p.offset access)
    | none => return .const 0

def store (r : Registry) (p : Place) (v : Operand) : Lower Unit := do
  let access ← need (.notScalar (r.display p.ty)) (r.access? p.ty)
  emit (.store p.base p.offset v access.size)

def copyMoves (dst src : Place) : List ScalarMove → Lower Unit
  | [] => pure ()
  | m :: ms => do
    let distance := Int64.ofNat m.offset
    let v ← define (.load · src.base (src.offset + distance) m.access)
    emit (.store dst.base (dst.offset + distance) v m.access.size)
    copyMoves dst src ms

def copy (r : Registry) (dst src : Place) : Lower Unit := copyMoves dst src (r.moves dst.ty)

def zeroMoves (p : Place) : List ScalarMove → Lower Unit
  | [] => pure ()
  | m :: ms => do
    emit (.store p.base (p.offset + Int64.ofNat m.offset) (.const 0) m.access.size)
    zeroMoves p ms

def zero (r : Registry) (p : Place) : Lower Unit := zeroMoves p (r.moves p.ty)

/-- One store for each byte. -/
def storeBytes (p : Place) : List UInt8 → Lower Unit
  | [] => pure ()
  | b :: bs => do
    emit (.store p.base p.offset (.const (Int64.ofNat b.toNat)) 1)
    storeBytes (p.further 1 p.ty) bs

end Place

/-- Storage for a local object. -/
def allocate (r : Registry) (ty : TypeId) : Lower Temp := do
  let t ← freshTemp
  emit (.alloca t (r.sizeOf ty) (r.alignOf ty))
  return t

end MiniC.Lowering
