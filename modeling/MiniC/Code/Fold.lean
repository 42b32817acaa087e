import Std.Data.HashMap
import MiniC.Code.Inst
/-!
Constant folding. A temporary that is written once, with a constant, is that constant wherever it
is read later; operators on constants are evaluated as the machine would, except that a division by
zero stays to trap when it is run; a branch on a constant becomes a jump or nothing.
-/
namespace MiniC.Code.Fold

/-- How often each temporary is written. -/
abbrev Counts := Std.HashMap Temp Nat

/-- The constants met so far. -/
abbrev Known := Std.HashMap Temp Int64

def countWrites (body : List Inst) : Counts :=
  body.foldl (fun counts i =>
    match i.dst? with
    | some t => counts.insert t (counts.getD t 0 + 1)
    | none => counts) {}

def resolve (known : Known) : Operand → Operand
  | .temp t =>
    match known[t]? with
    | some n => .const n
    | none => .temp t
  | o => o

def resolves (known : Known) : Operand → Bool
  | .temp t => known.contains t
  | _ => false

/-- The temporary and the constant that an instruction gives it. -/
def constant? : Inst → Option (Temp × Int64)
  | .copy dst (.const n) => some (dst, n)
  | .unary dst op (.const n) => some (dst, op.eval n)
  | .binary dst op (.const l) (.const r) => (op.eval l r).map fun n => (dst, n)
  | .cast dst (.const n) access => some (dst, access.truncate n)
  | _ => none

/-- A branch on a constant is taken or it is not; anything else stays. -/
def settle : Inst → List Inst × Bool
  | .branchIf (.const n) target => (if n != 0 then [.jump target] else [], true)
  | .branchUnless (.const n) target => (if n == 0 then [.jump target] else [], true)
  | i => ([i], false)

structure Outcome where
  known : Known
  insts : List Inst
  changed : Bool

def inst (counts : Counts) (known : Known) (i : Inst) : Outcome :=
  let read := i.operands.any (resolves known)
  let i := i.mapOperands (resolve known)
  match constant? i with
  | some (dst, n) =>
    let copy := Inst.copy dst (.const n)
    ⟨if counts.getD dst 0 = 1 then known.insert dst n else known, [copy], read || i != copy⟩
  | none =>
    let (insts, settled) := settle i
    ⟨known, insts, read || settled⟩

def insts (counts : Counts) (known : Known) : List Inst → List Inst × Bool
  | [] => ([], false)
  | i :: rest =>
    let o := inst counts known i
    let (rest, changed) := insts counts o.known rest
    (o.insts ++ rest, o.changed || changed)

/-- The folded body, and whether anything is different. -/
def body (b : List Inst) : List Inst × Bool := insts (countWrites b) {} b

end MiniC.Code.Fold
