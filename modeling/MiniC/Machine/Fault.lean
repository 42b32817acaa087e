import MiniC.Text.Quoted
/-!
The ways in which a program fails while it is loaded or run.
-/
namespace MiniC.Machine

inductive Fault where
  | assertionFailed (expected actual : Int64)
  | nullPointer (address : Int64)
  | outOfBounds (address : Int64) (size : Nat)
  | stackOverflow (requested : Nat)
  | outOfMemory (needed available : Nat)
  | callDepthExceeded (limit : Nat)
  | stepLimitExceeded (limit : Nat)
  | undefinedFunction (name : String)
  | undefinedSymbol (name : String)
  | unknownLabel (name : String)
  | argumentCount (name : String) (expected got : Nat)
  | divisionByZero
  deriving DecidableEq, Repr, Inhabited

/-- An address as an unsigned word. -/
def showAddress (address : Int64) : String :=
  "0x" ++ Text.hex address.toUInt64.toNat

def Fault.message : Fault → String
  | assertionFailed expected actual =>
    s!"assertion failed: expected {expected.toInt}, got {actual.toInt}"
  | nullPointer address => s!"null pointer access at {showAddress address}"
  | outOfBounds address size =>
    s!"out of bounds access of {size} bytes at {showAddress address}"
  | stackOverflow requested => s!"stack overflow: frame needs {requested} bytes"
  | outOfMemory needed available =>
    s!"program image of {needed} bytes does not fit in {available} bytes of memory"
  | callDepthExceeded limit => s!"call depth exceeds {limit}"
  | stepLimitExceeded limit => s!"step limit of {limit} instructions exceeded"
  | undefinedFunction name => s!"undefined function '{name}'"
  | undefinedSymbol name => s!"undefined symbol '{name}'"
  | unknownLabel name => s!"unknown label '{name}'"
  | argumentCount name expected got =>
    s!"function '{name}' expects {expected} arguments, got {got}"
  | divisionByZero => "division by zero"

end MiniC.Machine
