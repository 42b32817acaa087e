import MiniC.Bytes
/-!
Data models. The sizes and alignments of the scalars are the only facts about a target that layout
uses; everything composite follows from them through `alignTo`.
-/
namespace MiniC

inductive DataModel where
  | lp64
  | m68k
  deriving DecidableEq, Repr, Inhabited

namespace DataModel

def name : DataModel → String
  | lp64 => "lp64"
  | m68k => "m68k"

def longSize : DataModel → Nat
  | lp64 => 8
  | m68k => 4

def pointerSize : DataModel → Nat
  | lp64 => 8
  | m68k => 4

def pointerAlign : DataModel → Nat
  | lp64 => 8
  | m68k => 2

/-- On the 68000 everything wider than a byte is aligned to a word. -/
def intAlign : DataModel → Nat → Nat
  | lp64, bytes => bytes
  | m68k, bytes => if bytes = 1 then 1 else 2

end DataModel

namespace Layout

def defaultMaxDepth : Nat := 64

/-- One more than the largest address. -/
def addressSpace : Nat := Bytes.range 8

/-- The largest size of an object: every offset into one fits a signed word. -/
def maxObjectSize : Nat := addressSpace / 2 - 1

/-- The next multiple of a power of two, unless rounding leaves the address space. -/
def alignTo (offset align : Nat) : Option Nat :=
  let top := offset + (align - 1)
  if top < addressSpace then some (top - (top &&& (align - 1))) else none

/-- How types are laid out. A scalar has depth one, so the limit is never below one. -/
structure Config where
  model : DataModel
  maxDepth : Nat := defaultMaxDepth
  deriving DecidableEq, Repr, Inhabited

def Config.withMaxDepth (c : Config) (depth : Nat) : Config :=
  { c with maxDepth := max depth 1 }

end Layout
end MiniC
