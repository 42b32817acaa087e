/-!
Operators on 64-bit words. Signed and unsigned readings of one operation are separate operators, and
only the four divisions can trap.
-/
namespace MiniC.Code

inductive BinaryOp where
  | add | sub | mul
  | div | udiv | rem | urem
  | and | or | xor
  | shl | shr | ushr
  | eq | ne | lt | le | gt | ge
  | ult | ule | ugt | uge
  deriving DecidableEq, Repr, Inhabited

inductive UnaryOp where
  | neg | not | complement
  deriving DecidableEq, Repr, Inhabited

def truth (b : Bool) : Int64 := if b then 1 else 0

namespace BinaryOp

def isDivision : BinaryOp → Bool
  | div | udiv | rem | urem => true
  | _ => false

/-- The value of an operator whose divisor, if it has one, is not zero. -/
def apply (op : BinaryOp) (l r : Int64) : Int64 :=
  match op with
  | add => l + r
  | sub => l - r
  | mul => l * r
  | div => l / r
  | udiv => (l.toUInt64 / r.toUInt64).toInt64
  | rem => l % r
  | urem => (l.toUInt64 % r.toUInt64).toInt64
  | and => l &&& r
  | or => l ||| r
  | xor => l ^^^ r
  | shl => l <<< r
  | shr => l >>> r
  | ushr => (l.toUInt64 >>> r.toUInt64).toInt64
  | eq => truth (l == r)
  | ne => truth (l != r)
  | lt => truth (l < r)
  | le => truth (l ≤ r)
  | gt => truth (r < l)
  | ge => truth (r ≤ l)
  | ult => truth (l.toUInt64 < r.toUInt64)
  | ule => truth (l.toUInt64 ≤ r.toUInt64)
  | ugt => truth (r.toUInt64 < l.toUInt64)
  | uge => truth (r.toUInt64 ≤ l.toUInt64)

/-- Shifts use the amount modulo 64; a zero divisor has no value. -/
def eval (op : BinaryOp) (l r : Int64) : Option Int64 :=
  if op.isDivision && r == 0 then none else some (op.apply l r)

def symbol : BinaryOp → String
  | add => "+" | sub => "-" | mul => "*"
  | div => "/" | udiv => "/u" | rem => "%" | urem => "%u"
  | and => "&" | or => "|" | xor => "^"
  | shl => "<<" | shr => ">>" | ushr => ">>u"
  | eq => "==" | ne => "!=" | lt => "<" | le => "<=" | gt => ">" | ge => ">="
  | ult => "<u" | ule => "<=u" | ugt => ">u" | uge => ">=u"

def all : List BinaryOp :=
  [add, sub, mul, div, udiv, rem, urem, and, or, xor, shl, shr, ushr,
    eq, ne, lt, le, gt, ge, ult, ule, ugt, uge]

theorem mem_all (op : BinaryOp) : op ∈ all := by
  cases op <;> decide

theorem eval_eq_none_iff {op : BinaryOp} {l r : Int64} :
    op.eval l r = none ↔ op.isDivision = true ∧ r = 0 := by
  simp [eval]

end BinaryOp

namespace UnaryOp

def eval (op : UnaryOp) (v : Int64) : Int64 :=
  match op with
  | neg => -v
  | not => truth (v == 0)
  | complement => ~~~v

def symbol : UnaryOp → String
  | neg => "-"
  | not => "!"
  | complement => "~"

def all : List UnaryOp := [neg, not, complement]

end UnaryOp
end MiniC.Code
