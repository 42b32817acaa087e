import MiniC.Syntax.Tree
/-!
Types as they are written in a tree. A script lists them in the order of the source, with the scopes
in which they stand. A struct specifier occurs wherever the type occurs that
it is part of, so one that several declarators share occurs several times.
-/
namespace MiniC.Syntax

/-! The struct specifiers of a type. -/

mutual

def TypeExpr.specs : TypeExpr → List StructSpec
  | ⟨kind, _, _⟩ => kind.specs

def TypeKind.specs : TypeKind → List StructSpec
  | .void | .int .. => []
  | .pointer inner => inner.specs
  | .array element _ => element.specs
  | .struct spec => spec.specs

/-- The specifier itself, and those of its members. -/
def StructSpec.specs : StructSpec → List StructSpec
  | ⟨id, name, members, span⟩ => ⟨id, name, members, span⟩ :: specsOfBody members

def specsOfBody : Option (List StructMember) → List StructSpec
  | none => []
  | some ms => specsOfMembers ms

def specsOfMembers : List StructMember → List StructSpec
  | [] => []
  | m :: ms => m.specs ++ specsOfMembers ms

def StructMember.specs : StructMember → List StructSpec
  | ⟨_, ty, _⟩ => ty.specs

end

def StructSpec.hasBody (spec : StructSpec) : Bool := spec.members.isSome

/-- A type that is written, with what it is the type of. A declaration may consist of a struct
specifier alone. -/
inductive Written where
  | value (ty : TypeExpr)
  /-- An initializer may give an array its length. -/
  | object (ty : TypeExpr) (init : Option Initializer)
  | param (ty : TypeExpr)
  | struct (spec : StructSpec)

def Written.specs : Written → List StructSpec
  | .value ty | .object ty _ | .param ty => ty.specs
  | .struct spec => spec.specs

inductive Script where
  | done
  | written (x : Written) (rest : Script)
  | scope (inner rest : Script)
  /-- The condition of such a loop stands after its body. -/
  | doWhile (body cond rest : Script)

namespace Script

def append : Script → Script → Script
  | .done, o => o
  | .written x rest, o => .written x (rest.append o)
  | .scope inner rest, o => .scope inner (rest.append o)
  | .doWhile body cond rest, o => .doWhile body cond (rest.append o)

/-- All that is written, in whatever scope. -/
def all : Script → List Written
  | .done => []
  | .written x rest => x :: rest.all
  | .scope inner rest => inner.all ++ rest.all
  | .doWhile body cond rest => body.all ++ (cond.all ++ rest.all)

def specs (o : Script) : List StructSpec := o.all.flatMap Written.specs

variable (o o' o'' : Script)

@[simp]
theorem all_append : (o.append o').all = o.all ++ o'.all := by
  induction o with
  | done => rfl
  | written x rest ih => simp [append, all, ih]
  | scope inner rest _ ih => simp [append, all, ih]
  | doWhile body cond rest _ _ ih => simp [append, all, ih]

@[simp]
theorem append_done : o.append .done = o := by
  induction o with
  | done => rfl
  | written x rest ih => rw [append, ih]
  | scope inner rest _ ih => rw [append, ih]
  | doWhile body cond rest _ _ ih => rw [append, ih]

theorem append_assoc : (o.append o').append o'' = o.append (o'.append o'') := by
  induction o with
  | done => rfl
  | written x rest ih => rw [append, append, append, ih]
  | scope inner rest _ ih => rw [append, append, append, ih]
  | doWhile body cond rest _ _ ih => rw [append, append, append, ih]

@[simp]
theorem specs_done : done.specs = [] := rfl

@[simp]
theorem specs_append : (o.append o').specs = o.specs ++ o'.specs := by
  simp [specs]

@[simp]
theorem specs_written (x : Written) : (written x o).specs = x.specs ++ o.specs := rfl

@[simp]
theorem specs_scope : (scope o o').specs = o.specs ++ o'.specs := by
  simp [specs, all]

@[simp]
theorem specs_doWhile : (doWhile o o' o'').specs = o.specs ++ (o'.specs ++ o''.specs) := by
  simp [specs, all]

end Script

/-! The script of a tree. -/

mutual

def Expr.script : Expr → Script
  | ⟨kind, _, _⟩ => kind.script

def ExprKind.script : ExprKind → Script
  | .integer _ | .character _ | .string _ | .name _ => .done
  | .binary _ left right => left.script.append right.script
  | .unary _ operand => operand.script
  | .assign _ target source => target.script.append source.script
  | .conditional cond yes no => cond.script.append (yes.script.append no.script)
  | .call callee args => callee.script.append (scriptOfExprs args)
  | .index array index => array.script.append index.script
  | .member object _ _ => object.script
  | .pointerMember pointer _ _ => pointer.script
  | .cast ty operand => .written (.value ty) operand.script
  | .query _ operand => operand.script
  | .typeQuery _ ty => .written (.value ty) .done
  | .addressOf operand => operand.script
  | .deref operand => operand.script
  | .step operand _ _ => operand.script
  | .comma items => scriptOfExprs items
  | .block b => .scope b.script .done

def scriptOfExprs : List Expr → Script
  | [] => .done
  | e :: es => e.script.append (scriptOfExprs es)

/-- The items of a block, without its scope. -/
def Block.script : Block → Script
  | ⟨items, _⟩ => scriptOfItems items

def scriptOfItems : List BlockItem → Script
  | [] => .done
  | i :: is => i.script.append (scriptOfItems is)

def BlockItem.script : BlockItem → Script
  | .statement s => s.script
  | .declaration d => d.script

def Stmt.script : Stmt → Script
  | ⟨kind, _⟩ => kind.script

def StmtKind.script : StmtKind → Script
  | .expr e => e.script
  | .empty | .break_ | .continue_ => .done
  | .block b => .scope b.script .done
  | .if_ cond yes no => cond.script.append (yes.script.append (scriptOfStmt? no))
  | .loop kind init cond update body =>
    .scope ((scriptOfInit? init).append
      (if kind.testsFirst then
        (scriptOfExpr? cond).append ((scriptOfExpr? update).append body.script)
      else .doWhile body.script ((scriptOfExpr? cond).append (scriptOfExpr? update)) .done)) .done
  | .return_ e => scriptOfExpr? e

def scriptOfStmt? : Option Stmt → Script
  | none => .done
  | some s => s.script

def scriptOfExpr? : Option Expr → Script
  | none => .done
  | some e => e.script

def scriptOfInit? : Option LoopInit → Script
  | none => .done
  | some i => i.script

def LoopInit.script : LoopInit → Script
  | .expr e => e.script
  | .declaration d => d.script

def Declaration.script : Declaration → Script
  | ⟨kind, _⟩ => kind.script

def DeclKind.script : DeclKind → Script
  | .vars vars => scriptOfVars vars
  | .struct spec => .written (.struct spec) .done

def scriptOfVars : List VarDecl → Script
  | [] => .done
  | v :: vs => v.script.append (scriptOfVars vs)

def VarDecl.script : VarDecl → Script
  | ⟨_, ty, init, _, _⟩ => .written (.object ty init) (scriptOfInitializer? init)

def scriptOfInitializer? : Option Initializer → Script
  | none => .done
  | some i => i.script

def Initializer.script : Initializer → Script
  | .expr e => e.script
  | .list items _ => scriptOfInitializers items

def scriptOfInitializers : List Initializer → Script
  | [] => .done
  | i :: is => i.script.append (scriptOfInitializers is)

end

def scriptOfParams : List ParamDecl → Script
  | [] => .done
  | p :: ps => .written (.param p.ty) (scriptOfParams ps)

/-- The parameters of a definition are in scope in its body, but their types are outside. -/
def FuncDecl.script (f : FuncDecl) : Script :=
  .written (.value f.returns) ((scriptOfParams f.params).append
    (f.body.elim .done fun b => .scope b.script .done))

def TopDecl.script : TopDecl → Script
  | .declaration d => d.script
  | .function f => f.script

def scriptOfDecls : List TopDecl → Script
  | [] => .done
  | d :: ds => d.script.append (scriptOfDecls ds)

def CompilationUnit.script (u : CompilationUnit) : Script := scriptOfDecls u.decls

/-! The specifiers of lists. -/

theorem specsOfMembers_eq (ms : List StructMember) :
    specsOfMembers ms = ms.flatMap fun m => m.ty.specs := by
  induction ms with
  | nil => rw [specsOfMembers, List.flatMap_nil]
  | cons m ms ih =>
    obtain ⟨name, ty, span⟩ := m
    rw [specsOfMembers, StructMember.specs, ih, List.flatMap_cons]

@[simp]
theorem specs_scriptOfExprs (es : List Expr) :
    (scriptOfExprs es).specs = es.flatMap (·.script.specs) := by
  induction es with
  | nil => rw [scriptOfExprs, List.flatMap_nil, Script.specs_done]
  | cons e es ih => rw [scriptOfExprs, Script.specs_append, ih, List.flatMap_cons]

@[simp]
theorem specs_scriptOfItems (is : List BlockItem) :
    (scriptOfItems is).specs = is.flatMap (·.script.specs) := by
  induction is with
  | nil => rw [scriptOfItems, List.flatMap_nil, Script.specs_done]
  | cons i is ih => rw [scriptOfItems, Script.specs_append, ih, List.flatMap_cons]

@[simp]
theorem specs_scriptOfVars (vs : List VarDecl) :
    (scriptOfVars vs).specs = vs.flatMap (·.script.specs) := by
  induction vs with
  | nil => rw [scriptOfVars, List.flatMap_nil, Script.specs_done]
  | cons v vs ih => rw [scriptOfVars, Script.specs_append, ih, List.flatMap_cons]

@[simp]
theorem specs_scriptOfInitializers (is : List Initializer) :
    (scriptOfInitializers is).specs = is.flatMap (·.script.specs) := by
  induction is with
  | nil => rw [scriptOfInitializers, List.flatMap_nil, Script.specs_done]
  | cons i is ih => rw [scriptOfInitializers, Script.specs_append, ih, List.flatMap_cons]

@[simp]
theorem specs_scriptOfParams (ps : List ParamDecl) :
    (scriptOfParams ps).specs = ps.flatMap (·.ty.specs) := by
  induction ps with
  | nil => rfl
  | cons p ps ih =>
    rw [scriptOfParams, Script.specs_written, ih, List.flatMap_cons]
    rfl

@[simp]
theorem specs_scriptOfDecls (ds : List TopDecl) :
    (scriptOfDecls ds).specs = ds.flatMap (·.script.specs) := by
  induction ds with
  | nil => rfl
  | cons d ds ih => rw [scriptOfDecls, Script.specs_append, ih, List.flatMap_cons]

end MiniC.Syntax
