import MiniC.Bytes
/-!
The width and sign of one scalar load or store. `Access.truncate` reduces a word to a width.
-/
namespace MiniC

structure Access where
  size : Nat
  signed : Bool
  deriving DecidableEq, Repr, Inhabited

/-- The low bytes of a word, read back with the sign of the access. -/
def Access.truncate (a : Access) (v : Int64) : Int64 :=
  if 8 ≤ a.size then v
  else if a.signed then Int64.ofInt (v.toInt.bmod (Bytes.range a.size))
  else Int64.ofInt (v.toInt % (Bytes.range a.size : Nat))

/-- One scalar of a flattened aggregate. -/
structure ScalarMove where
  offset : Nat
  access : Access
  deriving DecidableEq, Repr, Inhabited

def ScalarMove.shift (m : ScalarMove) (distance : Nat) : ScalarMove :=
  { m with offset := distance + m.offset }

end MiniC
