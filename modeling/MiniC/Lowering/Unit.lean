import MiniC.Lowering.Static
import MiniC.Lowering.Tree
/-!
Code for a whole unit. Each function begins with copies of its arguments into slots of its own and
ends with a return, should control get there.
-/
namespace MiniC.Lowering

open Syntax
open Code (Function Global Module Operand Param)

def params : List ParamDecl → Except LoweringError (List Param)
  | [] => return []
  | p :: ps => do
    let name := p.name.getD ""
    let some ty := p.resolved | throw (.unresolved name)
    return ⟨name, ty⟩ :: (← params ps)

/-- A struct arrives as its address. -/
def receive (r : Registry) (index : Nat) (p : Param) : Lower Unit := do
  let incoming ← define (.param · index)
  let slot ← allocate r p.ty
  let target : Place := ⟨.temp slot, 0, p.ty⟩
  if r.isStruct p.ty then target.copy r ⟨incoming, 0, p.ty⟩ else target.store r incoming
  bind p.name slot

def receiveAll (r : Registry) (index : Nat) : List Param → Lower Unit
  | [] => return ()
  | p :: ps => do
    receive r index p
    receiveAll r (index + 1) ps

/-- What a function returns that runs past its last statement. -/
def fallthrough (r : Registry) (returns : TypeId) : Option Operand :=
  if r.isVoid returns then none else some (.const 0)

def function (r : Registry) (f : FuncDecl) (body : Block) : Lower Function := do
  let returns ← need (.unresolved f.name) f.resolvedReturn
  let ps ← params f.params
  modify fun s => { s with code := #[], temps := 0, slots := [[]] }
  receiveAll r 0 ps
  blockItems ⟨r, returns, none, none⟩ body.items
  emit (.ret (fallthrough r returns))
  let s ← get
  return ⟨f.name, ps, returns, s.code.toList, s.temps⟩

def globals (r : Registry) : DeclKind → Except LoweringError (List Global)
  | .vars vars => vars.mapM (globalOf r)
  | .struct _ => return []

def topDecls (r : Registry) : List TopDecl → Lower (List Function × List Global)
  | [] => return ([], [])
  | .declaration d :: ds => do
    let here ← globals r d.kind
    let (functions, later) ← topDecls r ds
    return (functions, here ++ later)
  | .function f :: ds => do
    match f.body with
    | none => topDecls r ds
    | some body =>
      let here ← function r f body
      let (functions, globals) ← topDecls r ds
      return (here :: functions, globals)

/-- The code of an analyzed unit. -/
def lower (r : Registry) (u : CompilationUnit) : Except LoweringError Module := do
  let ((functions, globals), s) ← (topDecls r u.decls).run State.initial
  return ⟨functions, globals, s.data.toList⟩

end MiniC.Lowering
