import MiniC.Proofs.Typing.Judgement
/-!
What lowering reads of a tree: the types of expressions, the members that were resolved, and the types
of what is declared. Main statements: every place of a tree that makes sense does so itself, and all
that is read there is there and right.
-/
namespace MiniC.Typing

open Syntax

/-- A place in a tree that carries annotations. -/
inductive Node where
  | expr (e : Expr)
  | var (v : VarDecl)
  | function (f : FuncDecl)

namespace Node

mutual

def ofExpr : Expr → List Node
  | ⟨kind, span, ty⟩ => .expr ⟨kind, span, ty⟩ :: ofKind kind

/-- What is called is only named. -/
def ofKind : ExprKind → List Node
  | .integer _ | .character _ | .string _ | .name _ | .typeQuery .. => []
  | .binary _ left right => ofExpr left ++ ofExpr right
  | .unary _ operand => ofExpr operand
  | .assign _ target source => ofExpr target ++ ofExpr source
  | .conditional cond yes no => ofExpr cond ++ (ofExpr yes ++ ofExpr no)
  | .call _ args => ofExprs args
  | .index array index => ofExpr array ++ ofExpr index
  | .member object _ _ => ofExpr object
  | .pointerMember pointer _ _ => ofExpr pointer
  | .cast _ operand => ofExpr operand
  | .query _ operand => ofExpr operand
  | .addressOf operand => ofExpr operand
  | .deref operand => ofExpr operand
  | .step operand _ _ => ofExpr operand
  | .comma items => ofExprs items
  | .block ⟨items, _⟩ => ofItems items

def ofExprs : List Expr → List Node
  | [] => []
  | e :: es => ofExpr e ++ ofExprs es

def ofItems : List BlockItem → List Node
  | [] => []
  | i :: is => ofItem i ++ ofItems is

def ofItem : BlockItem → List Node
  | .statement s => ofStmt s
  | .declaration d => ofDecl d

def ofStmt : Stmt → List Node
  | ⟨kind, _⟩ => ofStmtKind kind

def ofStmtKind : StmtKind → List Node
  | .expr e => ofExpr e
  | .empty | .break_ | .continue_ => []
  | .block ⟨items, _⟩ => ofItems items
  | .if_ cond yes no => ofExpr cond ++ (ofStmt yes ++ ofStmt? no)
  | .loop _ init cond update body =>
    ofInit init ++ (ofExpr? cond ++ (ofExpr? update ++ ofStmt body))
  | .return_ e => ofExpr? e

def ofStmt? : Option Stmt → List Node
  | none => []
  | some s => ofStmt s

def ofExpr? : Option Expr → List Node
  | none => []
  | some e => ofExpr e

def ofInit : Option LoopInit → List Node
  | none => []
  | some (.expr e) => ofExpr e
  | some (.declaration d) => ofDecl d

def ofDecl : Declaration → List Node
  | ⟨.vars vars, _⟩ => ofVars vars
  | ⟨.struct _, _⟩ => []

def ofVars : List VarDecl → List Node
  | [] => []
  | v :: vs => ofVar v ++ ofVars vs

def ofVar : VarDecl → List Node
  | ⟨name, ty, init, span, resolved⟩ => .var ⟨name, ty, init, span, resolved⟩ :: ofInitializer? init

def ofInitializer? : Option Initializer → List Node
  | none => []
  | some i => ofInitializer i

def ofInitializer : Initializer → List Node
  | .expr e => ofExpr e
  | .list items _ => ofInitializers items

def ofInitializers : List Initializer → List Node
  | [] => []
  | i :: is => ofInitializer i ++ ofInitializers is

end

def ofTopDecl : TopDecl → List Node
  | .declaration d => ofDecl d
  | .function f => .function f :: (f.body.elim [] fun b => ofItems b.items)

def ofUnit (u : CompilationUnit) : List Node := u.decls.flatMap ofTopDecl

end Node

/-- Every expression has a type, a member is the one that its object's type has, and there is no size
query left; what is declared has a type. -/
def Annotated (r : Registry) : Node → Prop
  | .expr e => e.ty.isSome = true ∧
    match e.kind with
    | .member object field resolved =>
      ∃ t m, object.ty = some t ∧ r.member t field = .ok m ∧ resolved = some m
    | .pointerMember pointer field resolved =>
      ∃ t target m, pointer.ty = some t ∧ r.element? t = some target ∧
        r.member target field = .ok m ∧ resolved = some m
    | .query .. | .typeQuery .. => False
    | _ => True
  | .var v => v.resolved.isSome = true
  | .function f => f.resolvedReturn.isSome = true ∧ ∀ p ∈ f.params, p.resolved.isSome = true

def AllAnnotated (r : Registry) (ns : List Node) : Prop := ∀ n ∈ ns, Annotated r n

variable {E : Env}

/-- What stands at a place makes sense somewhere. -/
def Sensible (E : Env) : Node → Prop
  | .expr e => ∃ C t, HasType E C e t
  | .var v => ∃ C t, v.resolved = some t ∧ Counted E v.ty v.init t ∧ Initializes? E C t v.init
  | .function f => IsFunction E f

def AllSensible (E : Env) (ns : List Node) : Prop := ∀ n ∈ ns, Sensible E n

theorem allSensible_nil : AllSensible E [] := List.forall_mem_nil _

theorem AllSensible.append {ns ns' : List Node} (h : AllSensible E ns) (h' : AllSensible E ns') :
    AllSensible E (ns ++ ns') :=
  fun n hn => (List.mem_append.mp hn).elim (h n) (h' n)

theorem AllSensible.cons {n : Node} {ns : List Node} (hn : Sensible E n) (h : AllSensible E ns) :
    AllSensible E (n :: ns) :=
  List.forall_mem_cons.mpr ⟨hn, h⟩

mutual

theorem sensible_expr (C : Site) (t : TypeId) : ∀ e, HasType E C e t → AllSensible E (Node.ofExpr e)
  | ⟨kind, span, ty⟩, h => by
    obtain rfl := h.ty_eq
    rw [Node.ofExpr]
    exact (sensible_exprKind C t span kind h).cons ⟨C, t, h⟩

theorem sensible_value (C : Site) (v : TypeId) : ∀ e, HasValue E C e v → AllSensible E (Node.ofExpr e)
  | ⟨kind, span, ty⟩, .decays h _ => by
    obtain rfl := h.ty_eq
    rw [Node.ofExpr]
    exact (sensible_exprKind C _ span kind h).cons ⟨C, _, h⟩

theorem sensible_exprKind (C : Site) (t : TypeId) (span : Span) : ∀ k,
    HasType E C ⟨k, span, some t⟩ t → AllSensible E (Node.ofKind k)
  | .integer _, _ | .character _, _ | .string _, _ | .name _, _ => by
    rw [Node.ofKind]
    exact allSensible_nil
  | .binary op left right, .binary hl hr _ => by
    rw [Node.ofKind]
    exact (sensible_value C _ left hl).append (sensible_value C _ right hr)
  | .unary op operand, .unary ho _ => by
    rw [Node.ofKind]
    exact sensible_value C _ operand ho
  | .assign op target source, .assign ht _ _ hs _ => by
    rw [Node.ofKind]
    exact (sensible_expr C _ target ht).append (sensible_value C _ source hs)
  | .conditional cond yes no, .conditional hc _ hy hn _ => by
    rw [Node.ofKind]
    exact (sensible_value C _ cond hc).append
      ((sensible_value C _ yes hy).append (sensible_value C _ no hn))
  | .call callee args, h => by
    rw [Node.ofKind]
    cases h with
    | call _ _ _ _ _ _ hargs => exact sensible_arguments C _ args hargs
  | .index array index, .index ha hi _ _ => by
    rw [Node.ofKind]
    exact (sensible_expr C _ array ha).append (sensible_value C _ index hi)
  | .member object field resolved, h => by
    rw [Node.ofKind]
    cases h with
    | member ho _ => exact sensible_expr C _ object ho
  | .pointerMember pointer field resolved, h => by
    rw [Node.ofKind]
    cases h with
    | pointerMember hp _ _ => exact sensible_value C _ pointer hp
  | .cast target operand, .cast ho _ => by
    rw [Node.ofKind]
    exact sensible_value C _ operand ho
  | .addressOf operand, .addressOf ho _ _ => by
    rw [Node.ofKind]
    exact sensible_expr C _ operand ho
  | .deref operand, .deref ho _ => by
    rw [Node.ofKind]
    exact sensible_value C _ operand ho
  | .step operand decrement yieldsOld, .step ho _ _ _ => by
    rw [Node.ofKind]
    exact sensible_expr C _ operand ho
  | .comma items, .comma hitems => by
    rw [Node.ofKind]
    exact sensible_lastValue C _ _ items hitems
  | .block ⟨items, _⟩, .block hitems _ => by
    rw [Node.ofKind]
    exact sensible_items C.inner items hitems

theorem sensible_arguments (C : Site) (params : List TypeId) : ∀ es, Arguments E C params es →
    AllSensible E (Node.ofExprs es)
  | [], _ => by
    rw [Node.ofExprs]
    exact allSensible_nil
  | e :: es, .cons he _ hes => by
    rw [Node.ofExprs]
    exact (sensible_value C _ e he).append (sensible_arguments C _ es hes)

theorem sensible_lastValue (C : Site) (last t : TypeId) : ∀ es, LastValue E C last es t →
    AllSensible E (Node.ofExprs es)
  | [], _ => by
    rw [Node.ofExprs]
    exact allSensible_nil
  | e :: es, .cons he hes => by
    rw [Node.ofExprs]
    exact (sensible_value C _ e he).append (sensible_lastValue C _ t es hes)

theorem sensible_items (C : Site) : ∀ is, IsItems E C is → AllSensible E (Node.ofItems is)
  | [], _ => by
    rw [Node.ofItems]
    exact allSensible_nil
  | .statement s :: is, .statement hs his => by
    rw [Node.ofItems, Node.ofItem]
    exact (sensible_stmt C s hs).append (sensible_items C is his)
  | .declaration d :: is, .declaration hd his => by
    rw [Node.ofItems, Node.ofItem]
    exact (sensible_decl C d hd).append (sensible_items _ is his)

theorem sensible_stmt (C : Site) : ∀ s, IsStmt E C s → AllSensible E (Node.ofStmt s)
  | ⟨.expr e, _⟩, .expr he _ => by
    rw [Node.ofStmt, Node.ofStmtKind]
    exact sensible_expr C _ e he
  | ⟨.empty, _⟩, _ | ⟨.break_, _⟩, _ | ⟨.continue_, _⟩, _ => by
    rw [Node.ofStmt, Node.ofStmtKind]
    exact allSensible_nil
  | ⟨.block ⟨items, _⟩, _⟩, .block hitems => by
    rw [Node.ofStmt, Node.ofStmtKind]
    exact sensible_items C.inner items hitems
  | ⟨.if_ cond yes no, _⟩, .if_ (.some hc _) hy hn => by
    rw [Node.ofStmt, Node.ofStmtKind]
    exact (sensible_value C _ cond hc).append ((sensible_stmt C yes hy).append
      (sensible_stmt? C no hn))
  | ⟨.loop kind init cond update body, _⟩, .loop hinit hcond hupdate hbody => by
    rw [Node.ofStmt, Node.ofStmtKind]
    exact (sensible_init C.inner init hinit).append ((sensible_condition _ cond hcond).append
      ((sensible_expr? _ update hupdate).append (sensible_stmt _ body hbody)))
  | ⟨.return_ e, _⟩, .return_ he => by
    rw [Node.ofStmt, Node.ofStmtKind]
    exact sensible_return C e he

theorem sensible_stmt? (C : Site) : ∀ s, IsStmt? E C s → AllSensible E (Node.ofStmt? s)
  | none, _ => by
    rw [Node.ofStmt?]
    exact allSensible_nil
  | some s, .some hs => by
    rw [Node.ofStmt?]
    exact sensible_stmt C s hs

theorem sensible_expr? (C : Site) : ∀ e, IsExpr? E C e → AllSensible E (Node.ofExpr? e)
  | none, _ => by
    rw [Node.ofExpr?]
    exact allSensible_nil
  | some e, .some he => by
    rw [Node.ofExpr?]
    exact sensible_expr C _ e he

theorem sensible_condition (C : Site) : ∀ e, IsCondition E C e → AllSensible E (Node.ofExpr? e)
  | none, _ => by
    rw [Node.ofExpr?]
    exact allSensible_nil
  | some e, .some he _ => by
    rw [Node.ofExpr?]
    exact sensible_value C _ e he

theorem sensible_return (C : Site) : ∀ e, IsReturn E C e → AllSensible E (Node.ofExpr? e)
  | none, _ => by
    rw [Node.ofExpr?]
    exact allSensible_nil
  | some e, .some _ _ he _ => by
    rw [Node.ofExpr?]
    exact sensible_value C _ e he

theorem sensible_init (C : Site) : ∀ i, IsLoopInit E C i → AllSensible E (Node.ofInit i)
  | none, _ => by
    rw [Node.ofInit]
    exact allSensible_nil
  | some (.expr e), .expr he => by
    rw [Node.ofInit]
    exact sensible_expr C _ e he
  | some (.declaration d), .declaration hd => by
    rw [Node.ofInit]
    exact sensible_decl C d hd

theorem sensible_decl (C : Site) : ∀ d, IsDecl E C d → AllSensible E (Node.ofDecl d)
  | ⟨.vars vars, _⟩, .vars hvars => by
    rw [Node.ofDecl]
    exact sensible_vars C vars hvars
  | ⟨.struct _, _⟩, _ => by
    rw [Node.ofDecl]
    exact allSensible_nil

theorem sensible_vars (C : Site) : ∀ vs, IsVars E C vs → AllSensible E (Node.ofVars vs)
  | [], _ => by
    rw [Node.ofVars]
    exact allSensible_nil
  | ⟨name, ty, init, span, resolved⟩ :: vs, .cons hresolved _ hcounted hinit hvs => by
    rw [Node.ofVars, Node.ofVar]
    refine ((sensible_initializer? _ _ init hinit).cons ?_).append (sensible_vars _ vs hvs)
    exact ⟨_, _, hresolved, hcounted, hinit⟩

theorem sensible_initializer? (C : Site) (t : TypeId) : ∀ i, Initializes? E C t i →
    AllSensible E (Node.ofInitializer? i)
  | none, _ => by
    rw [Node.ofInitializer?]
    exact allSensible_nil
  | some i, .some hi => by
    rw [Node.ofInitializer?]
    exact sensible_initializer C t i hi

theorem sensible_initializer (C : Site) (t : TypeId) : ∀ i, Initializes E C t i →
    AllSensible E (Node.ofInitializer i)
  | .expr e, h => by
    have hexpr (t : TypeId) := sensible_expr C t e
    have hvalue (v : TypeId) := sensible_value C v e
    rw [Node.ofInitializer]
    cases h with
    | text _ _ _ _ he => exact hexpr _ he
    | value _ he _ _ => exact hvalue _ he
  | .list items _, h => by
    have hitems (ts : List TypeId) := sensible_initializers C ts items
    rw [Node.ofInitializer]
    cases h with
    | elements _ his => exact hitems _ his
    | members _ his => exact hitems _ his
    | scalar _ he => exact hitems [t] (.cons he .nil)

theorem sensible_initializers (C : Site) (ts : List TypeId) : ∀ is, InitializesAll E C ts is →
    AllSensible E (Node.ofInitializers is)
  | [], _ => by
    rw [Node.ofInitializers]
    exact allSensible_nil
  | i :: is, .cons hi his => by
    rw [Node.ofInitializers]
    exact (sensible_initializer C _ i hi).append (sensible_initializers C _ is his)

end

/-- In a unit that makes sense every place does. -/
theorem sensible_unit {u : CompilationUnit} (h : IsUnit E u) : AllSensible E (Node.ofUnit u) := by
  intro n hn
  obtain ⟨d, hd, hn⟩ := List.mem_flatMap.mp hn
  have hsensible := h d hd
  cases d with
  | declaration d => exact sensible_decl _ d hsensible n hn
  | function f =>
    rcases List.mem_cons.mp hn with rfl | hn
    · exact hsensible
    · cases hbody : f.body with
      | none => rw [hbody] at hn; cases hn
      | some b =>
        rw [hbody] at hn
        exact sensible_items _ b.items (hsensible.body b hbody) n hn

/-- What a pointer points to is what an array that decays to it consists of. -/
theorem element_of_decays {r : Registry} {t t' target : TypeId} (h : r.Decays t t')
    (htarget : r.pointee? t' = some target) : r.element? t = some target := by
  unfold Registry.Decays at h
  unfold Registry.pointee? at htarget
  unfold Registry.element?
  cases hty : r.ty t with
  | array element length =>
    simp only [hty] at h
    simp only [h] at htarget ⊢
    exact htarget
  | _ =>
    simp only [hty] at h
    subst h
    simpa only [hty] using htarget

theorem annotated_of_sensible {n : Node} (h : Sensible E n) : Annotated E.registry n := by
  cases n with
  | expr e =>
    obtain ⟨C, t, he⟩ := h
    refine ⟨Option.isSome_of_eq_some he.ty_eq, ?_⟩
    cases he with
    | member ho hm => exact ⟨_, _, ho.ty_eq, hm, rfl⟩
    | pointerMember hp htarget hm =>
      cases hp with
      | decays hp hdecays => exact ⟨_, _, _, hp.ty_eq, element_of_decays hdecays htarget, hm, rfl⟩
    | _ => trivial
  | var v =>
    obtain ⟨C, t, hresolved, -⟩ := h
    exact Option.isSome_of_eq_some hresolved
  | function f =>
    obtain ⟨ret, hret, -⟩ := h.returns
    refine ⟨Option.isSome_of_eq_some hret, fun p hp => ?_⟩
    obtain ⟨⟨t, ht, -⟩, -⟩ := h.params p hp
    exact Option.isSome_of_eq_some ht

/-- A unit that makes sense is annotated. -/
theorem annotated_unit {u : CompilationUnit} (h : IsUnit E u) :
    AllAnnotated E.registry (Node.ofUnit u) :=
  fun n hn => annotated_of_sensible (sensible_unit h n hn)

end MiniC.Typing
