import MiniC.Proofs.Syntax.Scoped
import MiniC.Proofs.Typing.Annotated
/-!
Calls as they are written. Main statement: in a tree that is scoped, what may be called may be taken to
be no more than what the tree calls.
-/
namespace MiniC

/-- A call of that name with so many arguments. -/
def Syntax.Expr.IsCallOf (name : String) (count : Nat) (e : Expr) : Prop :=
  ∃ callee args, e.kind = .call callee args ∧ callee.kind = .name name ∧ args.length = count

/-- The same names, where only those calls fit that are written at one of the places. -/
def Code.Names.among (N : Code.Names) (ns : List Typing.Node) : Code.Names :=
  { N with fits := fun name n => N.fits name n ∧ ∃ e, .expr e ∈ ns ∧ e.IsCallOf name n }

namespace Typing

open Syntax
open Code (Names)

variable {N : Names} {ns : List Node}

theorem fitsCall_among {callee : Expr} {args : List Expr} {span : Span} {ty : Option TypeId}
    (hmem : .expr ⟨.call callee args, span, ty⟩ ∈ ns) (h : Scoped.fitsCall N callee args.length) :
    Scoped.fitsCall (N.among ns) callee args.length := by
  intro name hname
  exact ⟨h name hname, _, hmem, callee, args, rfl, hname, rfl⟩

mutual

theorem among_expr : ∀ L e, Node.ofExpr e ⊆ ns → Scoped.expr N L e → Scoped.expr (N.among ns) L e
  | L, ⟨kind, span, ty⟩, hns, h => by
    rw [Node.ofExpr] at hns
    rw [Scoped.expr] at h ⊢
    obtain ⟨hmem, hns⟩ := List.cons_subset.mp hns
    exact among_exprKind L span ty kind hmem hns h

theorem among_exprKind (L : Locals) (span : Span) (ty : Option TypeId) : ∀ kind,
    .expr ⟨kind, span, ty⟩ ∈ ns → Node.ofKind kind ⊆ ns → Scoped.exprKind N L kind →
      Scoped.exprKind (N.among ns) L kind
  | .integer _, _, _, h | .character _, _, _, h | .string _, _, _, h | .query .., _, _, h
  | .typeQuery .., _, _, h => by
    rw [Scoped.exprKind] at h ⊢
    exact h
  | .name name, _, _, h => by
    rw [Scoped.exprKind] at h ⊢
    exact h
  | .binary _ left right, _, hns, h => by
    rw [Node.ofKind, List.append_subset] at hns
    rw [Scoped.exprKind] at h ⊢
    exact ⟨among_expr L left hns.1 h.1, among_expr L right hns.2 h.2⟩
  | .assign _ target source, _, hns, h => by
    rw [Node.ofKind, List.append_subset] at hns
    rw [Scoped.exprKind] at h ⊢
    exact ⟨among_expr L target hns.1 h.1, among_expr L source hns.2 h.2⟩
  | .conditional cond yes no, _, hns, h => by
    rw [Node.ofKind, List.append_subset, List.append_subset] at hns
    rw [Scoped.exprKind] at h ⊢
    obtain ⟨hcond, hyes, hno⟩ := h
    exact ⟨among_expr L cond hns.1 hcond, among_expr L yes hns.2.1 hyes, among_expr L no hns.2.2 hno⟩
  | .call callee args, hmem, hns, h => by
    rw [Node.ofKind] at hns
    rw [Scoped.exprKind] at h ⊢
    exact ⟨fitsCall_among hmem h.1, among_exprs L args hns h.2⟩
  | .index array index, _, hns, h => by
    rw [Node.ofKind, List.append_subset] at hns
    rw [Scoped.exprKind] at h ⊢
    exact ⟨among_expr L array hns.1 h.1, among_expr L index hns.2 h.2⟩
  | .unary _ e, _, hns, h | .member e _ _, _, hns, h | .pointerMember e _ _, _, hns, h
  | .cast _ e, _, hns, h | .addressOf e, _, hns, h | .deref e, _, hns, h | .step e _ _, _, hns, h => by
    rw [Node.ofKind] at hns
    rw [Scoped.exprKind] at h ⊢
    exact among_expr L e hns h
  | .comma items, _, hns, h => by
    rw [Node.ofKind] at hns
    rw [Scoped.exprKind] at h ⊢
    exact among_exprs L items hns h
  | .block ⟨items, _⟩, _, hns, h => by
    rw [Node.ofKind] at hns
    rw [Scoped.exprKind] at h ⊢
    exact among_blockItems ([] :: L) items hns h

theorem among_exprs : ∀ L es, Node.ofExprs es ⊆ ns → Scoped.exprs N L es →
    Scoped.exprs (N.among ns) L es
  | L, [], _, h => by
    rw [Scoped.exprs] at h ⊢
    exact h
  | L, e :: es, hns, h => by
    rw [Node.ofExprs, List.append_subset] at hns
    rw [Scoped.exprs] at h ⊢
    exact ⟨among_expr L e hns.1 h.1, among_exprs L es hns.2 h.2⟩

theorem among_blockItems : ∀ L is, Node.ofItems is ⊆ ns → Scoped.blockItems N L is →
    Scoped.blockItems (N.among ns) L is
  | L, [], _, h => by
    rw [Scoped.blockItems] at h ⊢
    exact h
  | L, i :: is, hns, h => by
    rw [Node.ofItems, List.append_subset] at hns
    rw [Scoped.blockItems] at h ⊢
    exact ⟨among_blockItem L i hns.1 h.1, among_blockItems _ is hns.2 h.2⟩

theorem among_blockItem : ∀ L i, Node.ofItem i ⊆ ns → Scoped.blockItem N L i →
    Scoped.blockItem (N.among ns) L i
  | L, .statement s, hns, h => by
    rw [Node.ofItem] at hns
    rw [Scoped.blockItem] at h ⊢
    exact among_stmt L s hns h
  | L, .declaration d, hns, h => by
    rw [Node.ofItem] at hns
    rw [Scoped.blockItem] at h ⊢
    exact among_declaration L d hns h

theorem among_stmt : ∀ L s, Node.ofStmt s ⊆ ns → Scoped.stmt N L s → Scoped.stmt (N.among ns) L s
  | L, ⟨kind, _⟩, hns, h => by
    rw [Node.ofStmt] at hns
    rw [Scoped.stmt] at h ⊢
    exact among_stmtKind L kind hns h

theorem among_stmtKind : ∀ L kind, Node.ofStmtKind kind ⊆ ns → Scoped.stmtKind N L kind →
    Scoped.stmtKind (N.among ns) L kind
  | L, .expr e, hns, h => by
    rw [Node.ofStmtKind] at hns
    rw [Scoped.stmtKind] at h ⊢
    exact among_expr L e hns h
  | L, .empty, _, h | L, .break_, _, h | L, .continue_, _, h => by
    rw [Scoped.stmtKind] at h ⊢
    exact h
  | L, .block ⟨items, _⟩, hns, h => by
    rw [Node.ofStmtKind] at hns
    rw [Scoped.stmtKind] at h ⊢
    exact among_blockItems ([] :: L) items hns h
  | L, .if_ cond yes no, hns, h => by
    rw [Node.ofStmtKind, List.append_subset, List.append_subset] at hns
    rw [Scoped.stmtKind] at h ⊢
    obtain ⟨hcond, hyes, hno⟩ := h
    exact ⟨among_expr L cond hns.1 hcond, among_stmt L yes hns.2.1 hyes, among_stmt? L no hns.2.2 hno⟩
  | L, .loop _ init cond update body, hns, h => by
    rw [Node.ofStmtKind, List.append_subset, List.append_subset, List.append_subset] at hns
    rw [Scoped.stmtKind] at h ⊢
    obtain ⟨hinit, hcond, hupdate, hbody⟩ := h
    exact ⟨among_loopInit _ init hns.1 hinit, among_expr? _ cond hns.2.1 hcond,
      among_expr? _ update hns.2.2.1 hupdate, among_stmt _ body hns.2.2.2 hbody⟩
  | L, .return_ e, hns, h => by
    rw [Node.ofStmtKind] at hns
    rw [Scoped.stmtKind] at h ⊢
    exact among_expr? L e hns h

theorem among_stmt? : ∀ L s, Node.ofStmt? s ⊆ ns → Scoped.stmt? N L s →
    Scoped.stmt? (N.among ns) L s
  | L, none, _, h => by
    rw [Scoped.stmt?] at h ⊢
    exact h
  | L, some s, hns, h => by
    rw [Node.ofStmt?] at hns
    rw [Scoped.stmt?] at h ⊢
    exact among_stmt L s hns h

theorem among_expr? : ∀ L e, Node.ofExpr? e ⊆ ns → Scoped.expr? N L e →
    Scoped.expr? (N.among ns) L e
  | L, none, _, h => by
    rw [Scoped.expr?] at h ⊢
    exact h
  | L, some e, hns, h => by
    rw [Node.ofExpr?] at hns
    rw [Scoped.expr?] at h ⊢
    exact among_expr L e hns h

theorem among_loopInit : ∀ L i, Node.ofInit i ⊆ ns → Scoped.loopInit N L i →
    Scoped.loopInit (N.among ns) L i
  | L, none, _, h => by
    rw [Scoped.loopInit] at h ⊢
    exact h
  | L, some (.expr e), hns, h => by
    rw [Node.ofInit] at hns
    rw [Scoped.loopInit] at h ⊢
    exact among_expr L e hns h
  | L, some (.declaration d), hns, h => by
    rw [Node.ofInit] at hns
    rw [Scoped.loopInit] at h ⊢
    exact among_declaration L d hns h

theorem among_declaration : ∀ L d, Node.ofDecl d ⊆ ns → Scoped.declaration N L d →
    Scoped.declaration (N.among ns) L d
  | L, ⟨.vars vars, _⟩, hns, h => by
    rw [Node.ofDecl] at hns
    rw [Scoped.declaration] at h ⊢
    exact among_varDecls L vars hns h
  | L, ⟨.struct _, _⟩, _, h => by
    rw [Scoped.declaration] at h ⊢
    exact h

theorem among_varDecls : ∀ L vs, Node.ofVars vs ⊆ ns → Scoped.varDecls N L vs →
    Scoped.varDecls (N.among ns) L vs
  | L, [], _, h => by
    rw [Scoped.varDecls] at h ⊢
    exact h
  | L, v :: vs, hns, h => by
    rw [Node.ofVars, List.append_subset] at hns
    rw [Scoped.varDecls] at h ⊢
    exact ⟨among_varDecl L v hns.1 h.1, among_varDecls _ vs hns.2 h.2⟩

theorem among_varDecl : ∀ L v, Node.ofVar v ⊆ ns → Scoped.varDecl N L v →
    Scoped.varDecl (N.among ns) L v
  | L, ⟨name, _, init, _, _⟩, hns, h => by
    rw [Node.ofVar] at hns
    rw [Scoped.varDecl] at h ⊢
    exact among_initializer? _ init (List.cons_subset.mp hns).2 h

theorem among_initializer? : ∀ L i, Node.ofInitializer? i ⊆ ns → Scoped.initializer? N L i →
    Scoped.initializer? (N.among ns) L i
  | L, none, _, h => by
    rw [Scoped.initializer?] at h ⊢
    exact h
  | L, some i, hns, h => by
    rw [Node.ofInitializer?] at hns
    rw [Scoped.initializer?] at h ⊢
    exact among_initializer L i hns h

theorem among_initializer : ∀ L i, Node.ofInitializer i ⊆ ns → Scoped.initializer N L i →
    Scoped.initializer (N.among ns) L i
  | L, .expr e, hns, h => by
    rw [Node.ofInitializer] at hns
    rw [Scoped.initializer] at h ⊢
    exact among_expr L e hns h
  | L, .list items _, hns, h => by
    rw [Node.ofInitializer] at hns
    rw [Scoped.initializer] at h ⊢
    exact among_initializers L items hns h

theorem among_initializers : ∀ L is, Node.ofInitializers is ⊆ ns → Scoped.initializers N L is →
    Scoped.initializers (N.among ns) L is
  | L, [], _, h => by
    rw [Scoped.initializers] at h ⊢
    exact h
  | L, i :: is, hns, h => by
    rw [Node.ofInitializers, List.append_subset] at hns
    rw [Scoped.initializers] at h ⊢
    exact ⟨among_initializer L i hns.1 h.1, among_initializers L is hns.2 h.2⟩

end

/-- A unit that is scoped calls only what is written in it. -/
theorem among_topDecl {u : CompilationUnit} {d : TopDecl} (hd : d ∈ u.decls)
    (h : Scoped.topDecl N d) : Scoped.topDecl (N.among (Node.ofUnit u)) d := by
  cases d with
  | declaration d => exact trivial
  | function f =>
    intro body hbody
    have hnodes : Node.ofItems body.items ⊆ Node.ofUnit u := by
      intro n hn
      refine List.mem_flatMap.mpr ⟨_, hd, List.mem_cons_of_mem _ ?_⟩
      rw [hbody]
      exact hn
    exact among_blockItems (N := { N with arity := f.params.length }) _ _ hnodes (h body hbody)

end Typing
end MiniC
