import MiniC.Syntax.Tree
/-!
Constant expressions. Arithmetic on literals is done exactly; a result that fits no word is no
constant.
-/
namespace MiniC.Syntax

def checkedWord (n : Int) : Option Int64 :=
  let word := Int64.ofInt n
  if word.toInt = n then some word else none

/-- A quotient or remainder exists when the quotient is a word. -/
def checkedQuotient (l r : Int64) (result : Int) : Option Int64 :=
  if r = 0 then none
  else (checkedWord (l.toInt.tdiv r.toInt)).map fun _ => Int64.ofInt result

def BinaryOp.constant? (op : BinaryOp) (l r : Int64) : Option Int64 :=
  match op with
  | add => checkedWord (l.toInt + r.toInt)
  | sub => checkedWord (l.toInt - r.toInt)
  | mul => checkedWord (l.toInt * r.toInt)
  | div => checkedQuotient l r (l.toInt.tdiv r.toInt)
  | mod => checkedQuotient l r (l.toInt.tmod r.toInt)
  | _ => none

/-- A character constant is a signed byte. -/
def characterValue (b : UInt8) : Int64 := b.toInt8.toInt64

mutual

def Expr.constant? : Expr → Option Int64
  | ⟨kind, _, _⟩ => kind.constant?

def ExprKind.constant? : ExprKind → Option Int64
  | .integer value => some value
  | .character value => some (characterValue value)
  | .unary .neg operand => operand.constant?.map fun n => -n
  | .binary op left right =>
    match left.constant? with
    | none => none
    | some l =>
      match right.constant? with
      | none => none
      | some r => op.constant? l r
  | _ => none

end

end MiniC.Syntax
