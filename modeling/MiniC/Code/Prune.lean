import Std.Data.HashSet
import MiniC.Code.Inst
/-!
Removing code that does nothing: what no path reaches, labels that no jump names, jumps to the next
instruction, and pure instructions whose result is never read. Each removal may enable another, so
they are repeated until nothing more goes away.
-/
namespace MiniC.Code.Prune

/-- Code after a jump or a return is reached only from its next label on. -/
def unreachable (reached : Bool) : List Inst → List Inst
  | [] => []
  | i :: rest =>
    let reached := reached || i.label?.isSome
    let rest := unreachable (reached && !i.endsBlock) rest
    if reached then i :: rest else rest

def targets (body : List Inst) : Std.HashSet Label :=
  Std.HashSet.ofList (body.filterMap Inst.target?)

def unusedLabels (body : List Inst) : List Inst :=
  let used := targets body
  body.filter fun i =>
    match i.label? with
    | some l => used.contains l
    | none => true

/-- The label that comes next, if only comments come before it. -/
def nextLabel? (body : List Inst) : Option Label :=
  match body.find? (fun i => !i.isComment) with
  | some i => i.label?
  | none => none

def jumpsToNext : List Inst → List Inst
  | [] => []
  | i :: rest =>
    if i.target?.isSome && i.target? == nextLabel? rest then jumpsToNext rest
    else i :: jumpsToNext rest

def temp? : Operand → Option Temp
  | .temp t => some t
  | _ => none

def reads (body : List Inst) : Std.HashSet Temp :=
  Std.HashSet.ofList (body.flatMap fun i => i.operands.filterMap temp?)

def unusedOnce (body : List Inst) : List Inst :=
  let read := reads body
  body.filter fun i =>
    match i.dst? with
    | some t => !i.isPure || read.contains t
    | none => true

theorem length_unusedOnce_le (body : List Inst) : (unusedOnce body).length ≤ body.length :=
  List.length_filter_le _ _

/-- What an unused instruction read may now be unused itself. -/
def unusedResults (body : List Inst) : List Inst :=
  if (unusedOnce body).length < body.length then unusedResults (unusedOnce body) else body
termination_by body.length

def round (body : List Inst) : List Inst :=
  unusedResults (jumpsToNext (unusedLabels (unreachable true body)))

def rounds (body : List Inst) : List Inst :=
  if (round body).length < body.length then rounds (round body) else body
termination_by body.length

/-- The pruned body, and whether anything is gone. -/
def body (b : List Inst) : List Inst × Bool :=
  let b' := rounds b
  (b', b'.length != b.length)

end MiniC.Code.Prune
