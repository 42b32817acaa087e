import MiniC.Proofs.Code.Flow
import MiniC.Syntax.Tree
/-!
Trees whose names mean something. A name of an object is that of a local in scope or of a global,
and a call has as many arguments as what it calls takes. Declarations are in scope from their own
initializer on.
-/
namespace MiniC.Syntax

/-- The names of the locals, innermost scope and newest first. -/
abbrev Locals := List (List String)

def Locals.declare (L : Locals) (name : String) : Locals :=
  match L with
  | [] => []
  | scope :: outer => (name :: scope) :: outer

def Locals.declareAll (L : Locals) (vars : List VarDecl) : Locals :=
  vars.foldl (fun L v => L.declare v.name) L

/-- The locals after a declaration. -/
def Declaration.locals (L : Locals) : Declaration → Locals
  | ⟨.vars vars, _⟩ => L.declareAll vars
  | ⟨.struct _, _⟩ => L

def BlockItem.locals (L : Locals) : BlockItem → Locals
  | .statement _ => L
  | .declaration d => d.locals L

def LoopInit.locals (L : Locals) : Option LoopInit → Locals
  | some (.declaration d) => d.locals L
  | _ => L

def BlockItem.localsAfter (L : Locals) (items : List BlockItem) : Locals :=
  items.foldl BlockItem.locals L

/-- The parameters of a function share a scope with the outermost names of its body. -/
def Locals.ofNames (names : List String) : Locals := names.foldl Locals.declare [[]]

def DeclKind.declared : DeclKind → List VarDecl
  | .vars vs => vs
  | .struct _ => []

/-- The names of the globals that a declaration makes. -/
def TopDecl.globals : TopDecl → List String
  | .declaration d => d.kind.declared.map (·.name)
  | .function _ => []

/-- A parameter without a name has an empty one. -/
def ParamDecl.label (p : ParamDecl) : String := p.name.getD ""

theorem Locals.tail_declare (L : Locals) (name : String) : (L.declare name).tail = L.tail := by
  cases L <;> rfl

/-- Outside all scopes, declared names are those of globals. -/
def Locals.fresh (L : Locals) (names : List String) : List String :=
  match L with
  | [] => names
  | _ :: _ => []

theorem Locals.fresh_nil (L : Locals) : L.fresh [] = [] := by
  cases L <;> rfl

theorem Locals.fresh_append (L : Locals) (name : String) (names : List String) :
    L.fresh [name] ++ (L.declare name).fresh names = L.fresh (name :: names) := by
  cases L <;> rfl

theorem Locals.declareAll_congr (L : Locals) {vs ws : List VarDecl}
    (h : vs.map (·.name) = ws.map (·.name)) : L.declareAll vs = L.declareAll ws := by
  have hfold (vs : List VarDecl) : L.declareAll vs = (vs.map (·.name)).foldl Locals.declare L := by
    rw [List.foldl_map]
    rfl
  rw [hfold, hfold, h]

theorem Locals.tail_declareAll (L : Locals) (vars : List VarDecl) :
    (L.declareAll vars).tail = L.tail := by
  induction vars generalizing L with
  | nil => rfl
  | cons v vs ih => exact (ih _).trans (L.tail_declare v.name)

theorem Declaration.tail_locals (L : Locals) (d : Declaration) : (d.locals L).tail = L.tail := by
  obtain ⟨kind, span⟩ := d
  cases kind with
  | vars vars => exact L.tail_declareAll vars
  | struct spec => rfl

theorem BlockItem.tail_localsAfter (L : Locals) (items : List BlockItem) :
    (BlockItem.localsAfter L items).tail = L.tail := by
  induction items generalizing L with
  | nil => rfl
  | cons i is ih =>
    refine (ih _).trans ?_
    cases i with
    | statement s => rfl
    | declaration d => exact d.tail_locals L

theorem LoopInit.tail_locals (L : Locals) (i : Option LoopInit) :
    (LoopInit.locals L i).tail = L.tail := by
  cases i with
  | none => rfl
  | some i =>
    cases i with
    | expr e => rfl
    | declaration d => exact d.tail_locals L

theorem Declaration.locals_nil (d : Declaration) : d.locals [] = [] := by
  obtain ⟨kind, span⟩ := d
  cases kind with
  | vars vars =>
    show Locals.declareAll [] vars = []
    induction vars with
    | nil => rfl
    | cons v vs ih => exact ih
  | struct spec => rfl

/-! A scope that is open stays the innermost one. -/

theorem Locals.declareAll_cons (scope : List String) (L : Locals) (vars : List VarDecl) :
    ∃ scope', Locals.declareAll (scope :: L) vars = scope' :: L := by
  induction vars generalizing scope with
  | nil => exact ⟨scope, rfl⟩
  | cons v vs ih => exact ih (v.name :: scope)

theorem Locals.ofNames_cons (names : List String) :
    ∃ scope, Locals.ofNames names = [scope] := by
  have hfold (names scope : List String) :
      ∃ scope', names.foldl Locals.declare [scope] = [scope'] := by
    induction names generalizing scope with
    | nil => exact ⟨scope, rfl⟩
    | cons name names ih => exact ih (name :: scope)
  exact hfold names []

theorem Declaration.locals_cons (scope : List String) (L : Locals) (d : Declaration) :
    ∃ scope', d.locals (scope :: L) = scope' :: L := by
  obtain ⟨kind, span⟩ := d
  cases kind with
  | vars vars => exact Locals.declareAll_cons scope L vars
  | struct spec => exact ⟨scope, rfl⟩

theorem BlockItem.locals_cons (scope : List String) (L : Locals) (i : BlockItem) :
    ∃ scope', i.locals (scope :: L) = scope' :: L := by
  cases i with
  | statement s => exact ⟨scope, rfl⟩
  | declaration d => exact d.locals_cons scope L

theorem BlockItem.localsAfter_cons (scope : List String) (L : Locals) (items : List BlockItem) :
    ∃ scope', BlockItem.localsAfter (scope :: L) items = scope' :: L := by
  induction items generalizing scope with
  | nil => exact ⟨scope, rfl⟩
  | cons i is ih =>
    obtain ⟨scope', h⟩ := i.locals_cons scope L
    obtain ⟨scope'', h'⟩ := ih scope'
    exact ⟨scope'', (congrArg (BlockItem.localsAfter · is) h).trans h'⟩

theorem LoopInit.locals_cons (scope : List String) (L : Locals) (i : Option LoopInit) :
    ∃ scope', LoopInit.locals (scope :: L) i = scope' :: L := by
  cases i with
  | none => exact ⟨scope, rfl⟩
  | some i =>
    cases i with
    | expr e => exact ⟨scope, rfl⟩
    | declaration d => exact d.locals_cons scope L

open Code (Names)

variable (N : Names)

namespace Scoped

def fitsCall (callee : Expr) (count : Nat) : Prop :=
  ∀ name, callee.kind = .name name → N.fits name count

mutual

def expr (L : Locals) : Expr → Prop
  | ⟨kind, _, _⟩ => exprKind L kind

def exprKind (L : Locals) : ExprKind → Prop
  | .integer _ | .character _ | .string _ | .query .. | .typeQuery .. => True
  | .name name => (∃ scope ∈ L, name ∈ scope) ∨ N.globals name
  | .binary _ left right => expr L left ∧ expr L right
  | .unary _ operand => expr L operand
  | .assign _ target source => expr L target ∧ expr L source
  | .conditional cond yes no => expr L cond ∧ expr L yes ∧ expr L no
  | .call callee args => fitsCall N callee args.length ∧ exprs L args
  | .index array index => expr L array ∧ expr L index
  | .member object _ _ => expr L object
  | .pointerMember pointer _ _ => expr L pointer
  | .cast _ operand => expr L operand
  | .addressOf operand => expr L operand
  | .deref operand => expr L operand
  | .step operand _ _ => expr L operand
  | .comma items => exprs L items
  | .block ⟨items, _⟩ => blockItems ([] :: L) items

def exprs (L : Locals) : List Expr → Prop
  | [] => True
  | e :: es => expr L e ∧ exprs L es

def blockItems (L : Locals) : List BlockItem → Prop
  | [] => True
  | i :: is => blockItem L i ∧ blockItems (i.locals L) is

def blockItem (L : Locals) : BlockItem → Prop
  | .statement s => stmt L s
  | .declaration d => declaration L d

def stmt (L : Locals) : Stmt → Prop
  | ⟨kind, _⟩ => stmtKind L kind

def stmtKind (L : Locals) : StmtKind → Prop
  | .expr e => expr L e
  | .empty | .break_ | .continue_ => True
  | .block ⟨items, _⟩ => blockItems ([] :: L) items
  | .if_ cond yes no => expr L cond ∧ stmt L yes ∧ stmt? L no
  | .loop _ init cond update body =>
    loopInit ([] :: L) init ∧ expr? (LoopInit.locals ([] :: L) init) cond ∧
      expr? (LoopInit.locals ([] :: L) init) update ∧ stmt (LoopInit.locals ([] :: L) init) body
  | .return_ e => expr? L e

def stmt? (L : Locals) : Option Stmt → Prop
  | none => True
  | some s => stmt L s

def expr? (L : Locals) : Option Expr → Prop
  | none => True
  | some e => expr L e

def loopInit (L : Locals) : Option LoopInit → Prop
  | none => True
  | some (.expr e) => expr L e
  | some (.declaration d) => declaration L d

def declaration (L : Locals) : Declaration → Prop
  | ⟨.vars vars, _⟩ => varDecls L vars
  | ⟨.struct _, _⟩ => True

def varDecls (L : Locals) : List VarDecl → Prop
  | [] => True
  | v :: vs => varDecl L v ∧ varDecls (L.declare v.name) vs

def varDecl (L : Locals) : VarDecl → Prop
  | ⟨name, _, init, _, _⟩ => initializer? (L.declare name) init

def initializer? (L : Locals) : Option Initializer → Prop
  | none => True
  | some i => initializer L i

def initializer (L : Locals) : Initializer → Prop
  | .expr e => expr L e
  | .list items _ => initializers L items

def initializers (L : Locals) : List Initializer → Prop
  | [] => True
  | i :: is => initializer L i ∧ initializers L is

end

/-- Outside functions no name is looked up when a program runs. -/
def topDecl : TopDecl → Prop
  | .declaration _ => True
  | .function f => ∀ body, f.body = some body →
    blockItems { N with arity := f.params.length } (Locals.ofNames (f.params.map (·.label))) body.items

end Scoped
end MiniC.Syntax
