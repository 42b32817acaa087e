import MiniC.Bytes
import MiniC.Machine.Fault
/-!
Byte-addressed memory. The first `nullGuard` bytes are never reached through an address, so that a
null pointer with a small offset faults.
-/
namespace MiniC.Machine

def nullGuard : Nat := 16

structure Memory where
  bytes : Array UInt8

namespace Memory

def zeros (size : Nat) : Memory := ⟨Array.replicate size 0⟩

def size (m : Memory) : Nat := m.bytes.size

/-- Where an access of `size` bytes begins, if all of it is accessible. -/
def locate (m : Memory) (address : Int64) (size : Nat) : Except Fault Nat :=
  if address < 0 then .error (.outOfBounds address size)
  else
    let start := address.toNatClampNeg
    if start < nullGuard then .error (.nullPointer address)
    else if start + size ≤ m.bytes.size then .ok start
    else .error (.outOfBounds address size)

def load (m : Memory) (address : Int64) (size : Nat) (signed : Bool) : Except Fault Int64 :=
  match m.locate address size with
  | .error fault => .error fault
  | .ok start => .ok (Bytes.extend size signed (Bytes.readNat m.bytes start size))

/-- Writes without a check; `locate` says where. -/
def put (m : Memory) (start size : Nat) (value : Int64) : Memory :=
  ⟨Bytes.writeWord m.bytes start value.toUInt64 size⟩

def store (m : Memory) (address : Int64) (size : Nat) (value : Int64) : Except Fault Memory :=
  match m.locate address size with
  | .error fault => .error fault
  | .ok start => .ok (m.put start size value)

def writeBytes (m : Memory) (address : Int64) (data : List UInt8) : Except Fault Memory :=
  match m.locate address data.length with
  | .error fault => .error fault
  | .ok start => .ok ⟨Bytes.writeList m.bytes start data⟩

def readBytes (m : Memory) (address : Int64) (count : Nat) : Except Fault (List UInt8) :=
  match m.locate address count with
  | .error fault => .error fault
  | .ok start => .ok (m.bytes.extract start (start + count)).toList

@[simp] theorem size_put (m : Memory) (start size : Nat) (value : Int64) :
    (m.put start size value).size = m.size := by
  simp [put, Memory.size]

end Memory
end MiniC.Machine
