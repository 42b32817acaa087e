import MiniC.Lowering.Emit
/-!
The shapes of branches and loops, around code that is given as actions. Labels are numbered in the
order in which a shape asks for them.
-/
namespace MiniC.Lowering

open Code

def branchUnless (cond : Operand) (target : Label) : Lower Unit := emit (.branchUnless cond target)

/-- The label of an end that is not reached by a jump is numbered all the same. -/
def ifOnly (cond : Lower Operand) (yes : Lower Unit) : Lower Unit := do
  let cond ← cond
  let skip ← freshLabel "else"
  let _ ← freshLabel "endif"
  branchUnless cond skip
  yes
  emit (.label skip)

def ifElse (cond : Lower Operand) (yes no : Lower Unit) : Lower Unit := do
  let cond ← cond
  let other ← freshLabel "else"
  let stop ← freshLabel "endif"
  branchUnless cond other
  yes
  emit (.jump stop)
  emit (.label other)
  no
  emit (.label stop)

/-- The next round begins at `next`, where a continue goes; a break goes to the end. -/
def loop (testsFirst : Bool) (test : (stop : Label) → Lower Unit)
    (body : (stop next : Label) → Lower Unit) (update : Lower Unit) : Lower Unit := do
  let top ← freshLabel "loop"
  let entry ← freshLabel "body"
  let next ← freshLabel "next"
  let stop ← freshLabel "endloop"
  if !testsFirst then emit (.jump entry)
  emit (.label top)
  test stop
  emit (.label entry)
  body stop next
  emit (.label next)
  update
  emit (.jump top)
  emit (.label stop)

/-- Only the chosen branch runs. -/
def conditional (cond yes no : Lower Operand) : Lower Operand := do
  let cond ← cond
  let other ← freshLabel "ternelse"
  let stop ← freshLabel "ternend"
  let result ← freshTemp
  branchUnless cond other
  emit (.copy result (← yes))
  emit (.jump stop)
  emit (.label other)
  emit (.copy result (← no))
  emit (.label stop)
  return .temp result

/-- The operator is `&&`, or else `||`. The right operand runs only if the left leaves it open. -/
def logical (isAnd : Bool) (left right : Lower Operand) : Lower Operand := do
  let result ← freshTemp
  let short ← freshLabel "shortcircuit"
  let stop ← freshLabel "logend"
  let l ← left
  emit (if isAnd then .branchUnless l short else .branchIf l short)
  let r ← right
  let truth ← define (.binary · .ne r (.const 0))
  emit (.copy result truth)
  emit (.jump stop)
  emit (.label short)
  emit (.copy result (.const (if isAnd then 0 else 1)))
  emit (.label stop)
  return .temp result

/-- Outside a loop there is nowhere to go. -/
def leave : Option Label → Lower Unit
  | some target => emit (.jump target)
  | none => pure ()

end MiniC.Lowering
