import MiniC.Proofs.Typing.Walks
/-!
The steps of each analysis, one form of the tree at a time. Main statements: expressions, statements
and declarations take the steps that their scripts ask for, and the types that they then have are
among those that were found.
-/
namespace MiniC.Typing

open Syntax Check

theorem claimsOf_ofExpr {kind : ExprKind} {span : Span} {ty : Option TypeId}
    (h : (Node.expr ⟨kind, span, ty⟩).claims = []) :
    claimsOf (Node.ofExpr ⟨kind, span, ty⟩) = claimsOf (Node.ofKind kind) := by
  rw [Node.ofExpr, claimsOf_cons, h, List.nil_append]

/-- The check gives this if it gives anything. -/
def Gives {α : Type} (c : Check α) (a : α) : Prop := ∀ b, (∃ s s', outcome c s = (.ok b, s')) → b = a

namespace Gives

variable {α β : Type} {a : α}

theorem pure (a : α) : Gives (pure a : Check α) a := fun b h => by
  obtain ⟨s, s', h⟩ := h
  cases h
  rfl

theorem registry_bind {k : Registry → Check α} (hk : ∀ r, Gives (k r) a) :
    Gives (Check.registry >>= k) a := fun b h => by
  obtain ⟨s, s', h⟩ := h
  exact hk s.registry b ⟨s, s', h⟩

/-- Past a test that only fails. -/
theorem guard {p : Prop} [Decidable p] {e : TypingError} {k : β → Check α} {c : Check α}
    (hc : Gives c a) : Gives (if p then throw e >>= k else c) a := by
  split
  · rintro b ⟨s, s', h⟩
    cases h
  · exact hc

end Gives

theorem eq_of_checkCast {t v u : TypeId} {operandSpan span : Span} {r : Registry}
    (h : checkCast r t v operandSpan span = .ok u) : u = t := by
  unfold checkCast at h
  split at h
  · cases h
    rfl
  · split at h
    · cases hscalar : checkScalar r v operandSpan with
      | error e =>
        rw [hscalar] at h
        cases h
      | ok x =>
        rw [hscalar] at h
        cases h
        rfl
    · cases h

variable (K : List (Written × TypeId))

mutual

theorem walks_expr (K : List (Written × TypeId)) : ∀ e,
    Walks K (expr e) e.script fun e' => claimsOf (Node.ofExpr e')
  | ⟨kind, span, ty⟩ => by
    rw [expr, Expr.script]
    exact walks_exprKind K span ty kind

theorem walks_value (K : List (Written × TypeId)) : ∀ e,
    Walks K (value e) e.script fun e' => claimsOf (Node.ofExpr e')
  | ⟨kind, span, ty⟩ => by
    rw [value, Expr.script]
    exact (walks_exprKind K span ty kind).last
      (fun _ _ => .finish ((Idles.lift _).bind fun _ => .decay _ _) (List.subset_append_left _ _))
      fun _ e => .still fun _ => ⟨_, e, rfl⟩

theorem walks_exprKind (K : List (Written × TypeId)) (span : Span) (ty : Option TypeId) : ∀ k,
    Walks K (exprKind span ty k) k.script fun e' => claimsOf (Node.ofExpr e')
  | .integer n => by
    rw [exprKind, ExprKind.script]
    refine .typed (.pure _) fun t _ => ?_
    rw [claimsOf_ofExpr rfl, Node.ofKind]
    exact List.nil_subset _
  | .character b => by
    rw [exprKind, ExprKind.script]
    refine .typed (.pure _) fun t _ => ?_
    rw [claimsOf_ofExpr rfl, Node.ofKind]
    exact List.nil_subset _
  | .string text => by
    rw [exprKind, ExprKind.script]
    refine .typed (.arrayOf _ _ _) fun t _ => ?_
    rw [claimsOf_ofExpr rfl, Node.ofKind]
    exact List.nil_subset _
  | .name name => by
    rw [exprKind, ExprKind.script]
    refine .typed (idles_nameType name span) fun t _ => ?_
    rw [claimsOf_ofExpr rfl, Node.ofKind]
    exact List.nil_subset _
  | .binary op left right => by
    rw [exprKind, ExprKind.script]
    refine (walks_value K left).bind (fun l _ => (walks_value _ right).last (fun r _ =>
      .typed ((Idles.lift _).bind fun _ => (Idles.lift _).bind fun _ => .rule _) fun t _ => ?_)
      fun _ e => .still fun _ => ⟨_, e, rfl⟩) fun _ e => .still fun _ => ⟨_, e, rfl⟩
    rw [claimsOf_ofExpr rfl, Node.ofKind, claimsOf_append]
    grind
  | .cast target operand => by
    rw [exprKind, ExprKind.script]
    refine Walks.found (x := .value target) (fun t => (walks_value _ operand).last
      (fun o v => .typed ((Idles.lift _).bind fun _ => (Idles.lift _).bind fun _ => .rule _) ?_)
      fun _ e => .still fun _ => ⟨_, e, rfl⟩) fun e => .still fun _ => ⟨_, e, rfl⟩
    rintro u ⟨s, s', hu⟩
    replace hu : outcome (rule (checkCast · t v o.span span)) s = _ := hu
    rw [outcome_rule] at hu
    obtain rfl := eq_of_checkCast (congrArg Prod.fst hu)
    rw [Node.ofExpr, Node.ofKind, claimsOf_cons]
    show (_ :: claimsOf _) ⊆ _
    grind [bare]
  | .unary op operand => by
    rw [exprKind, ExprKind.script]
    refine (walks_value K operand).last (fun o _ => .typed ((Idles.lift _).bind fun _ => .rule _)
      fun t _ => ?_) fun _ e => .still fun _ => ⟨_, e, rfl⟩
    rw [claimsOf_ofExpr rfl, Node.ofKind]
    exact List.subset_append_left _ _
  | .assign op target source => by
    rw [exprKind, ExprKind.script]
    refine (walks_expr K target).bind (fun t _ =>
      .check ((Idles.lift _).bind fun _ => idles_checkTarget _ _) (fun _ _ =>
        (walks_value _ source).last (fun v _ =>
          .typed ((Idles.lift _).bind fun _ => (Idles.lift _).bind fun _ => (Idles.lift _).bind fun _ =>
            idles_checkAssignment _ _ _ _ _) fun t _ => ?_) fun _ e => .still fun _ => ⟨_, e, rfl⟩)
        fun e => .still fun _ => ⟨_, e, rfl⟩) fun _ e => .still fun _ => ⟨_, e, rfl⟩
    rw [claimsOf_ofExpr rfl, Node.ofKind, claimsOf_append]
    grind
  | .conditional cond yes no => by
    rw [exprKind, ExprKind.script]
    refine (walks_condition K cond).bind (fun c _ => (walks_value _ yes).bind (fun y _ =>
      (walks_value _ no).last (fun n _ => .typed ((Idles.lift _).bind fun _ =>
        (Idles.lift _).bind fun _ => (Idles.lift _).bind fun _ => .rule _) fun t _ => ?_)
        fun _ e => .still fun _ => ⟨_, e, rfl⟩) fun _ e => .still fun _ => ⟨_, e, rfl⟩)
      fun _ e => .still fun _ => ⟨_, e, rfl⟩
    rw [claimsOf_ofExpr rfl, Node.ofKind, claimsOf_append, claimsOf_append]
    grind
  | .call ⟨kind, calleeSpan, calleeTy⟩ args => by
    rw [exprKind, ExprKind.script, Expr.script]
    cases kind with
    | name name =>
      rw [ExprKind.script]
      refine .check ((idles_calledFunction _).bind fun _ => (idles_checkArgumentCount _ _ _).bind
        fun _ => .pure _) (fun f _ => (walks_arguments K f.2.params args).last (fun as _ =>
          .typed ((Idles.lift _).bind fun _ => .pure _) fun t _ => ?_) fun _ e => .still fun _ => ⟨_, e, rfl⟩)
        fun e => .still fun _ => ⟨_, e, rfl⟩
      rw [claimsOf_ofExpr rfl, Node.ofKind]
      exact List.subset_append_left _ _
    | _ => exact .fail (.still fun _ => ⟨_, _, rfl⟩)
  | .index array subscript => by
    rw [exprKind, ExprKind.script]
    refine (walks_expr K array).bind (fun a _ => (walks_value _ subscript).last (fun i _ =>
      .typed ((Idles.lift _).bind fun _ => (Idles.lift _).bind fun _ => idles_checkIndex _ _ _ _)
        fun t _ => ?_)
      fun _ e => .still fun _ => ⟨_, e, rfl⟩) fun _ e => .still fun _ => ⟨_, e, rfl⟩
    rw [claimsOf_ofExpr rfl, Node.ofKind, claimsOf_append]
    grind
  | .member object field old => by
    rw [exprKind, ExprKind.script]
    refine (walks_expr K object).last (fun o _ =>
      .memberExpr ((Idles.lift _).bind fun _ => .rule _) fun m => ?_) fun _ e => .still fun _ => ⟨_, e, rfl⟩
    rw [claimsOf_ofExpr rfl, Node.ofKind]
    exact List.subset_append_left _ _
  | .pointerMember pointer field old => by
    rw [exprKind, ExprKind.script]
    refine (walks_value K pointer).last (fun o _ =>
      .memberExpr ((Idles.lift _).bind fun _ => .rule _) fun m => ?_) fun _ e => .still fun _ => ⟨_, e, rfl⟩
    rw [claimsOf_ofExpr rfl, Node.ofKind]
    exact List.subset_append_left _ _
  | .query q operand => by
    rw [exprKind, ExprKind.script]
    refine (walks_expr K operand).last (fun o _ => .folded ((Idles.lift _).bind fun _ => .rule _)
      fun n t => ?_) fun _ e => .still fun _ => ⟨_, e, rfl⟩
    rw [claimsOf_ofExpr rfl, Node.ofKind]
    exact List.nil_subset _
  | .typeQuery q target => by
    rw [exprKind, ExprKind.script]
    show Walks K (outcome (findType (.value target) >>= fun t => rule (checkQuery · q t target.span))
      >>= _) _ _
    refine .find (fun _ => .rule _) (fun _ _ _ => .get_bind fun _ => .pure fun _ _ => ?_)
      fun e => .still fun _ => ⟨_, e, rfl⟩
    rw [claimsOf_ofExpr rfl, Node.ofKind]
    exact List.nil_subset _
  | .addressOf operand => by
    rw [exprKind, ExprKind.script]
    refine (walks_expr K operand).last (fun o _ => .typed ((Idles.lift _).bind fun _ =>
      idles_addressType _ _ _) fun t _ => ?_) fun _ e => .still fun _ => ⟨_, e, rfl⟩
    rw [claimsOf_ofExpr rfl, Node.ofKind]
    exact List.subset_append_left _ _
  | .deref operand => by
    rw [exprKind, ExprKind.script]
    refine (walks_value K operand).last (fun o _ => .typed ((Idles.lift _).bind fun _ => .rule _)
      fun t _ => ?_) fun _ e => .still fun _ => ⟨_, e, rfl⟩
    rw [claimsOf_ofExpr rfl, Node.ofKind]
    exact List.subset_append_left _ _
  | .step operand decrement yieldsOld => by
    rw [exprKind, ExprKind.script]
    refine (walks_expr K operand).last (fun o _ => .typed ((Idles.lift _).bind fun _ =>
      idles_checkStepped _ _ _) fun t _ => ?_) fun _ e => .still fun _ => ⟨_, e, rfl⟩
    rw [claimsOf_ofExpr rfl, Node.ofKind]
    exact List.subset_append_left _ _
  | .comma items => by
    rw [exprKind, ExprKind.script]
    refine (walks_values K Registry.void items).last (fun is _ =>
      .typed (.lift _) fun t _ => ?_) fun _ e => .still fun _ => ⟨_, e, rfl⟩
    rw [claimsOf_ofExpr rfl, Node.ofKind]
    exact List.subset_append_left _ _
  | .block b => by
    rw [exprKind, ExprKind.script]
    refine Walks.last (Walks.inScope (N := fun b => claimsOf (Node.ofItems b.items)) ?_) (fun b' _ => .typed (.lift _) fun t _ => ?_)
      fun _ e => .still fun _ => ⟨_, e, rfl⟩
    · exact (walks_block K false b).last (fun b' _ =>
        .finish ((Idles.lift _).bind fun _ => idles_blockType _ _) (List.subset_append_left _ _))
        fun _ e => .still fun _ => ⟨_, e, rfl⟩
    obtain ⟨items, _⟩ := b'
    rw [claimsOf_ofExpr rfl, Node.ofKind]
    exact List.subset_append_left _ _

theorem walks_condition (K : List (Written × TypeId)) : ∀ e,
    Walks K (condition e) e.script fun e' => claimsOf (Node.ofExpr e')
  | ⟨kind, span, ty⟩ => by
    rw [condition, Expr.script]
    exact (walks_exprKind K span ty kind).last
      (fun _ _ => .finish ((Idles.lift _).bind fun _ => (Idles.decay _ _).bind fun _ => .rule _)
        (List.subset_append_left _ _)) fun _ e => .still fun _ => ⟨_, e, rfl⟩

theorem walks_values (K : List (Written × TypeId)) (last : TypeId) : ∀ es,
    Walks K (values last es) (scriptOfExprs es) fun es' => claimsOf (Node.ofExprs es')
  | [] => by
    rw [values, scriptOfExprs]
    refine .pure fun _ _ => ?_
    rw [Node.ofExprs]
    exact List.nil_subset _
  | e :: es => by
    rw [values, scriptOfExprs]
    refine (walks_value K e).bind (fun e' t => (walks_values _ t es).last (fun es' _ =>
      .pure fun _ _ => ?_) fun _ e => .still fun _ => ⟨_, e, rfl⟩) fun _ e => .still fun _ => ⟨_, e, rfl⟩
    rw [Node.ofExprs, claimsOf_append]
    grind

theorem walks_arguments (K : List (Written × TypeId)) (params : List TypeId) : ∀ es,
    Walks K (arguments params es) (scriptOfExprs es) fun es' => claimsOf (Node.ofExprs es')
  | [] => by
    rw [arguments, scriptOfExprs]
    refine .pure fun _ _ => ?_
    rw [Node.ofExprs]
    exact List.nil_subset _
  | e :: es => by
    rw [arguments, scriptOfExprs]
    refine (walks_value K e).bind (fun e' t =>
      .check ((Idles.lift _).bind fun _ => idles_checkArgument _ _ _) (fun _ _ =>
        (walks_arguments _ params.tail es).last (fun es' _ => .pure fun _ _ => ?_) fun _ e => .still fun _ => ⟨_, e, rfl⟩)
        fun e => .still fun _ => ⟨_, e, rfl⟩) fun _ e => .still fun _ => ⟨_, e, rfl⟩
    rw [Node.ofExprs, claimsOf_append]
    grind

theorem walks_block (K : List (Written × TypeId)) (recover : Bool) : ∀ b,
    Walks K (block recover b) b.script fun b' => claimsOf (Node.ofItems b'.items)
  | ⟨items, span⟩ => by
    rw [block, Block.script]
    exact (walks_blockItems K recover items).last
      (fun _ _ => .pure fun _ _ => List.subset_append_left _ _) fun _ e => .still fun _ => ⟨_, e, rfl⟩

theorem walks_blockItems (K : List (Written × TypeId)) (recover : Bool) : ∀ is,
    Walks K (blockItems recover is) (scriptOfItems is) fun is' => claimsOf (Node.ofItems is')
  | [] => by
    rw [blockItems, scriptOfItems]
    refine .pure fun _ _ => ?_
    rw [Node.ofItems]
    exact List.nil_subset _
  | i :: is => by
    rw [blockItems, scriptOfItems]
    refine (walks_blockItem K i).bind (fun i' _ => (walks_blockItems _ recover is).last
      (fun is' _ => .pure fun _ _ => ?_) fun _ e => .still fun _ => ⟨_, e, rfl⟩) fun i' e => ?_
    · rw [Node.ofItems, claimsOf_append]
      grind
    · cases recover with
      | true =>
        exact .recorded e ((walks_blockItems [] true is).last
          (fun is' _ => .pure (N := fun _ => []) fun _ _ => List.nil_subset _) fun _ e => .still fun _ => ⟨_, e, rfl⟩)
      | false => exact .still fun _ => ⟨_, e, rfl⟩

theorem walks_blockItem (K : List (Written × TypeId)) : ∀ i,
    Walks K (blockItem i) i.script fun i' => claimsOf (Node.ofItem i')
  | .statement s => by
    rw [blockItem, BlockItem.script]
    refine (walks_stmt K s).last (fun s' _ => .pure fun _ _ => ?_) fun _ e => .still fun _ => ⟨_, e, rfl⟩
    rw [Node.ofItem]
    exact List.subset_append_left _ _
  | .declaration d => by
    rw [blockItem, BlockItem.script]
    refine (walks_declaration K d).last (fun d' _ => .pure fun _ _ => ?_) fun _ e => .still fun _ => ⟨_, e, rfl⟩
    rw [Node.ofItem]
    exact List.subset_append_left _ _

theorem walks_stmt (K : List (Written × TypeId)) : ∀ s,
    Walks K (stmt s) s.script fun s' => claimsOf (Node.ofStmt s')
  | ⟨kind, span⟩ => by
    rw [stmt, Stmt.script]
    refine (walks_stmtKind K span kind).last (fun k _ => .pure fun _ _ => ?_) fun _ e => .still fun _ => ⟨_, e, rfl⟩
    rw [Node.ofStmt]
    exact List.subset_append_left _ _

theorem walks_stmtKind (K : List (Written × TypeId)) (span : Span) : ∀ k,
    Walks K (stmtKind span k) k.script fun k' => claimsOf (Node.ofStmtKind k')
  | .expr e => by
    rw [stmtKind, StmtKind.script]
    refine (walks_expr K e).last (fun e' _ => .pure fun _ _ => ?_) fun _ e => .still fun _ => ⟨_, e, rfl⟩
    rw [Node.ofStmtKind]
    exact List.subset_append_left _ _
  | .empty => by
    rw [stmtKind, StmtKind.script]
    refine .pure fun _ _ => ?_
    rw [Node.ofStmtKind]
    exact List.nil_subset _
  | .block b => by
    rw [stmtKind, StmtKind.script]
    refine (walks_block K true b).inScope.last (fun b' _ => .pure fun _ _ => ?_) fun _ e => .still fun _ => ⟨_, e, rfl⟩
    obtain ⟨items, _⟩ := b'
    rw [Node.ofStmtKind]
    exact List.subset_append_left _ _
  | .if_ cond yes no => by
    rw [stmtKind, StmtKind.script]
    refine (walks_condition K cond).bind (fun c _ => (walks_stmt _ yes).bind (fun y _ =>
      (walks_stmt? _ no).last (fun n _ => .pure fun _ _ => ?_) fun _ e => .still fun _ => ⟨_, e, rfl⟩) fun _ e => .still fun _ => ⟨_, e, rfl⟩) fun _ e => .still fun _ => ⟨_, e, rfl⟩
    rw [Node.ofStmtKind, claimsOf_append, claimsOf_append]
    grind
  | .loop kind init cond update body => by
    rw [stmtKind, StmtKind.script]
    have hrest (i : Option LoopInit) :
        Walks (claimsOf (Node.ofInit i) ++ K) (do
          let (cond, c) ← condition? cond
          let before := both (.ok ()) c
          let (update, u) ← andThen before update (expr? update)
          let before := both before u
          let (body, b) ← andThen before body (inLoop (stmt body))
          return (StmtKind.loop kind i cond update body, both before b))
        ((scriptOfExpr? cond).append ((scriptOfExpr? update).append body.script))
        fun k' => claimsOf (Node.ofStmtKind k') := by
      refine (walks_condition? _ cond).bind (fun c _ => (walks_expr? _ update).bind (fun u _ =>
        (walks_stmt _ body).inLoop.last (fun b _ => .pure fun _ _ => ?_) fun _ e => .still fun _ => ⟨_, e, rfl⟩) fun _ e => .still fun _ => ⟨_, e, rfl⟩) fun _ e => .still fun _ => ⟨_, e, rfl⟩
      rw [Node.ofStmtKind, claimsOf_append, claimsOf_append, claimsOf_append]
      grind
    by_cases hkind : kind.testsFirst = true
    · rw [if_pos hkind]
      exact Walks.inScope ((walks_loopInit? K init).bind (fun i _ => hrest i) fun _ e => .still fun _ => ⟨_, e, rfl⟩)
    · rw [if_neg hkind]
      refine Walks.inScope ((walks_loopInit? K init).bind (fun i _ => .doWhile ?_) fun _ e => .still fun _ => ⟨_, e, rfl⟩)
      rw [Script.append_assoc]
      exact hrest i
  | .break_ => by
    rw [stmtKind, StmtKind.script]
    refine .finish (idles_inLoopOr _ _) ?_
    rw [Node.ofStmtKind]
    exact List.nil_subset _
  | .continue_ => by
    rw [stmtKind, StmtKind.script]
    refine .finish (idles_inLoopOr _ _) ?_
    rw [Node.ofStmtKind]
    exact List.nil_subset _
  | .return_ e => by
    rw [stmtKind, StmtKind.script]
    refine .get_bind fun s => ?_
    split
    · exact .fail (.still fun _ => ⟨_, _, rfl⟩)
    · refine (walks_returned? K e).last (fun e' _ => .pure fun _ _ => ?_) fun _ e => .still fun _ => ⟨_, e, rfl⟩
      rw [Node.ofStmtKind]
      exact List.subset_append_left _ _

theorem walks_stmt? (K : List (Written × TypeId)) : ∀ s,
    Walks K (stmt? s) (scriptOfStmt? s) fun s' => claimsOf (Node.ofStmt? s')
  | none => by
    rw [stmt?, scriptOfStmt?]
    refine .pure fun _ _ => ?_
    rw [Node.ofStmt?]
    exact List.nil_subset _
  | some s => by
    rw [stmt?, scriptOfStmt?]
    refine (walks_stmt K s).last (fun s' _ => .pure fun _ _ => ?_) fun _ e => .still fun _ => ⟨_, e, rfl⟩
    rw [Node.ofStmt?]
    exact List.subset_append_left _ _

theorem walks_expr? (K : List (Written × TypeId)) : ∀ e,
    Walks K (expr? e) (scriptOfExpr? e) fun e' => claimsOf (Node.ofExpr? e')
  | none => by
    rw [expr?, scriptOfExpr?]
    refine .pure fun _ _ => ?_
    rw [Node.ofExpr?]
    exact List.nil_subset _
  | some e => by
    rw [expr?, scriptOfExpr?]
    refine (walks_expr K e).last (fun e' _ => .pure fun _ _ => ?_) fun _ e => .still fun _ => ⟨_, e, rfl⟩
    rw [Node.ofExpr?]
    exact List.subset_append_left _ _

theorem walks_condition? (K : List (Written × TypeId)) : ∀ e,
    Walks K (condition? e) (scriptOfExpr? e) fun e' => claimsOf (Node.ofExpr? e')
  | none => by
    rw [condition?, scriptOfExpr?]
    refine .pure fun _ _ => ?_
    rw [Node.ofExpr?]
    exact List.nil_subset _
  | some e => by
    rw [condition?, scriptOfExpr?]
    refine (walks_condition K e).last (fun e' _ => .pure fun _ _ => ?_) fun _ e => .still fun _ => ⟨_, e, rfl⟩
    rw [Node.ofExpr?]
    exact List.subset_append_left _ _

theorem walks_returned? (K : List (Written × TypeId)) : ∀ e,
    Walks K (returned? e) (scriptOfExpr? e) fun e' => claimsOf (Node.ofExpr? e')
  | none => by
    rw [returned?, scriptOfExpr?]
    refine .pure fun _ _ => ?_
    rw [Node.ofExpr?]
    exact List.nil_subset _
  | some e => by
    rw [returned?, scriptOfExpr?]
    refine (walks_value K e).last (fun e' _ => .finish (idles_checkReturn _ _) ?_) fun _ e => .still fun _ => ⟨_, e, rfl⟩
    rw [Node.ofExpr?]
    exact List.subset_append_left _ _

theorem walks_loopInit? (K : List (Written × TypeId)) : ∀ i,
    Walks K (loopInit? i) (scriptOfInit? i) fun i' => claimsOf (Node.ofInit i')
  | none => by
    rw [loopInit?, scriptOfInit?]
    refine .pure fun _ _ => ?_
    rw [Node.ofInit]
    exact List.nil_subset _
  | some i => by
    rw [loopInit?, scriptOfInit?]
    exact (walks_loopInit K i).last (fun i' _ => .pure fun _ _ => List.subset_append_left _ _) fun _ e => .still fun _ => ⟨_, e, rfl⟩

theorem walks_loopInit (K : List (Written × TypeId)) : ∀ i,
    Walks K (loopInit i) i.script fun i' => claimsOf (Node.ofInit (some i'))
  | .expr e => by
    rw [loopInit, LoopInit.script]
    refine (walks_expr K e).last (fun e' _ => .pure fun _ _ => ?_) fun _ e => .still fun _ => ⟨_, e, rfl⟩
    rw [Node.ofInit]
    exact List.subset_append_left _ _
  | .declaration d => by
    rw [loopInit, LoopInit.script]
    refine (walks_declaration K d).last (fun d' _ => .pure fun _ _ => ?_) fun _ e => .still fun _ => ⟨_, e, rfl⟩
    rw [Node.ofInit]
    exact List.subset_append_left _ _

theorem walks_declaration (K : List (Written × TypeId)) : ∀ d,
    Walks K (declaration d) d.script fun d' => claimsOf (Node.ofDecl d')
  | ⟨kind, span⟩ => by
    rw [declaration, Declaration.script]
    exact (walks_declKind K span kind).last (fun k _ => .pure fun _ _ => List.subset_append_left _ _)
      fun _ e => .still fun _ => ⟨_, e, rfl⟩

theorem walks_declKind (K : List (Written × TypeId)) (span : Span) : ∀ k,
    Walks K (declKind k) k.script fun k' => claimsOf (Node.ofDecl ⟨k', span⟩)
  | .vars vars => by
    rw [declKind, DeclKind.script]
    refine (walks_varDecls K vars).last (fun vs _ => .pure fun _ _ => ?_) fun _ e => .still fun _ => ⟨_, e, rfl⟩
    rw [Node.ofDecl]
    exact List.subset_append_left _ _
  | .struct spec => by
    rw [declKind, DeclKind.script]
    unfold checkStructDecl
    split
    · exact .fail (.still fun _ => ⟨_, _, rfl⟩)
    · refine Walks.find (x := .struct spec) (f := fun _ => (pure ⟨⟩ : Check PUnit)) (fun _ => .pure _)
        (fun _ _ _ => .pure fun _ _ => ?_) fun e => .still fun _ => ⟨_, e, rfl⟩
      rw [Node.ofDecl]
      exact List.nil_subset _

theorem walks_varDecls (K : List (Written × TypeId)) : ∀ vs,
    Walks K (varDecls vs) (scriptOfVars vs) fun vs' => claimsOf (Node.ofVars vs')
  | [] => by
    rw [varDecls, scriptOfVars]
    refine .pure fun _ _ => ?_
    rw [Node.ofVars]
    exact List.nil_subset _
  | v :: vs => by
    rw [varDecls, scriptOfVars]
    refine (walks_varDecl K v).bind (fun v' _ => (walks_varDecls _ vs).last (fun vs' _ =>
      .pure fun _ _ => ?_) fun _ e => .still fun _ => ⟨_, e, rfl⟩) fun _ e => .still fun _ => ⟨_, e, rfl⟩
    rw [Node.ofVars, claimsOf_append]
    grind

theorem walks_varDecl (K : List (Written × TypeId)) : ∀ v,
    Walks K (varDecl v) v.script fun v' => claimsOf (Node.ofVar v')
  | ⟨name, ty, init, span, resolved⟩ => by
    rw [varDecl, VarDecl.script]
    refine Walks.find (x := .object ty init) (f := fun t => do
        if (← registry).isVoid t then type (.voidVariable name) span
        return t)
      (fun _ => .registry_bind fun _ => .guard (.throw _) (.pure _)) (fun t u hu => ?_)
      fun e => .still fun _ => ⟨_, e, rfl⟩
    refine .get_bind fun s => .check (Idles.define _) (fun _ _ =>
      (walks_initializer? _ u s.scope.isGlobal init).last (fun i _ => .pure fun _ _ => ?_) fun _ e => .still fun _ => ⟨_, e, rfl⟩)
      fun e => .still fun _ => ⟨_, e, rfl⟩
    obtain rfl := Gives.registry_bind (fun _ => .guard (.pure t)) u hu
    rw [Node.ofVar, claimsOf_cons]
    show (_ :: claimsOf _) ⊆ _
    grind [bare]

theorem walks_initializer? (K : List (Written × TypeId)) (t : TypeId) (isGlobal : Bool) : ∀ i,
    Walks K (initializer? t isGlobal i) (scriptOfInitializer? i) fun i' =>
      claimsOf (Node.ofInitializer? i')
  | none => by
    rw [initializer?, scriptOfInitializer?]
    refine .pure fun _ _ => ?_
    rw [Node.ofInitializer?]
    exact List.nil_subset _
  | some i => by
    rw [initializer?, scriptOfInitializer?]
    refine (walks_initializer K t isGlobal i).last (fun i' _ => .pure fun _ _ => ?_) fun _ e => .still fun _ => ⟨_, e, rfl⟩
    rw [Node.ofInitializer?]
    exact List.subset_append_left _ _

theorem walks_initializer (K : List (Written × TypeId)) (t : TypeId) (isGlobal : Bool) : ∀ i,
    Walks K (initializer t isGlobal i) i.script fun i' => claimsOf (Node.ofInitializer i')
  | .expr e => by
    rw [initializer, Initializer.script]
    refine (walks_initialValue K t isGlobal e).last (fun e' _ => .pure fun _ _ => ?_) fun _ e => .still fun _ => ⟨_, e, rfl⟩
    rw [Node.ofInitializer]
    exact List.subset_append_left _ _
  | .list items span => by
    rw [initializer, Initializer.script]
    refine .get_bind fun s => ?_
    have hlist {K : List (Written × TypeId)} {x : Analysis (List Initializer × Verdict Unit)}
        (hx : Walks K x (scriptOfInitializers items) fun is => claimsOf (Node.ofInitializers is)) :
        Walks K (do let (items, done) ← x; return (Initializer.list items span, done))
          (scriptOfInitializers items) fun i' => claimsOf (Node.ofInitializer i') := by
      refine hx.last (fun is _ => .pure fun _ _ => ?_) fun _ e => .still fun _ => ⟨_, e, rfl⟩
      rw [Node.ofInitializer]
      exact List.subset_append_left _ _
    split
    · exact .check (idles_checkExcess _ _ _) (fun _ _ => hlist (walks_elementInits K _ isGlobal items))
        fun e => .still fun _ => ⟨_, e, rfl⟩
    · rename_i types _
      by_cases hlength : items.length ≤ types.length
      · exact .check (idles_checkExcess _ _ _)
          (fun _ _ => hlist (walks_memberInits K isGlobal items hlength))
          fun e => .still fun _ => ⟨_, e, rfl⟩
      · have hextra : items[types.length]? = some items[types.length] :=
          List.getElem?_eq_getElem (by omega)
        simp only [checkExcess, hextra]
        exact .fail (.still fun _ => ⟨_, _, rfl⟩)
    · exact hlist (walks_scalarInit K t isGlobal span items)

theorem walks_initialValue (K : List (Written × TypeId)) (t : TypeId) (isGlobal : Bool) : ∀ e,
    Walks K (initialValue t isGlobal e) e.script fun e' => claimsOf (Node.ofExpr e')
  | ⟨kind, span, ty⟩ => by
    rw [initialValue, Expr.script]
    refine .get_bind fun s => ?_
    have he := walks_exprKind K span ty kind
    split
    · exact .check (idles_checkStringInit _ _ _ _) (fun _ _ =>
        he.last (fun e' _ => .pure fun _ _ => List.subset_append_left _ _) fun _ e => .still fun _ => ⟨_, e, rfl⟩)
        fun e => .still fun _ => ⟨_, e, rfl⟩
    · exact .fail (.still fun _ => ⟨_, _, rfl⟩)
    · exact he.last (fun e' _ => .finish ((Idles.lift _).bind fun _ => (Idles.decay _ _).bind fun _ =>
        (Idles.rule _).bind fun _ => idles_checkConstantInit _ _) (List.subset_append_left _ _)) fun _ e => .still fun _ => ⟨_, e, rfl⟩

theorem walks_elementInits (K : List (Written × TypeId)) (element : TypeId) (isGlobal : Bool) : ∀ is,
    Walks K (elementInits element isGlobal is) (scriptOfInitializers is) fun is' =>
      claimsOf (Node.ofInitializers is')
  | [] => by
    rw [elementInits, scriptOfInitializers]
    refine .pure fun _ _ => ?_
    rw [Node.ofInitializers]
    exact List.nil_subset _
  | i :: is => by
    rw [elementInits, scriptOfInitializers]
    refine (walks_initializer K element isGlobal i).bind (fun i' _ =>
      (walks_elementInits _ element isGlobal is).last (fun is' _ => .pure fun _ _ => ?_) fun _ e => .still fun _ => ⟨_, e, rfl⟩) fun _ e => .still fun _ => ⟨_, e, rfl⟩
    rw [Node.ofInitializers, claimsOf_append]
    grind

theorem walks_memberInits (K : List (Written × TypeId)) (isGlobal : Bool) {types : List TypeId} :
    ∀ is, is.length ≤ types.length →
    Walks K (memberInits types isGlobal is) (scriptOfInitializers is) fun is' =>
      claimsOf (Node.ofInitializers is')
  | [], _ => by
    rw [memberInits, scriptOfInitializers]
    refine .pure fun _ _ => ?_
    rw [Node.ofInitializers]
    exact List.nil_subset _
  | i :: is, hlength => by
    cases types with
    | nil => cases hlength
    | cons t ts =>
      rw [memberInits, scriptOfInitializers]
      refine (walks_initializer K t isGlobal i).bind (fun i' _ =>
        (walks_memberInits _ isGlobal is (Nat.le_of_succ_le_succ hlength)).last
          (fun is' _ => .pure fun _ _ => ?_) fun _ e => .still fun _ => ⟨_, e, rfl⟩) fun _ e => .still fun _ => ⟨_, e, rfl⟩
      rw [Node.ofInitializers, claimsOf_append]
      grind

theorem walks_scalarInit (K : List (Written × TypeId)) (t : TypeId) (isGlobal : Bool) (span : Span) :
    ∀ is, Walks K (scalarInit t isGlobal span is) (scriptOfInitializers is) fun is' =>
      claimsOf (Node.ofInitializers is')
  | [.expr e] => by
    rw [scalarInit, scriptOfInitializers, scriptOfInitializers, Initializer.script,
      Script.append_done]
    refine (walks_initialValue K t isGlobal e).last (fun e' _ => .pure fun _ _ => ?_) fun _ e => .still fun _ => ⟨_, e, rfl⟩
    rw [Node.ofInitializers, Node.ofInitializers, Node.ofInitializer, List.append_nil]
    exact List.subset_append_left _ _
  | [] => by rw [scalarInit]; exact .fail (.still fun _ => ⟨_, _, rfl⟩); nofun
  | [.list items span'] => by rw [scalarInit]; exact .fail (.still fun _ => ⟨_, _, rfl⟩); nofun
  | i :: j :: is => by rw [scalarInit]; exact .fail (.still fun _ => ⟨_, _, rfl⟩); nofun

end

/-! Functions and whole units. -/

theorem walks_params (K : List (Written × TypeId)) (hasBody : Bool) : ∀ ps,
    Walks K (params hasBody ps) (scriptOfParams ps) claimsOfParams
  | [] => .pure fun _ _ => List.nil_subset _
  | p :: ps => by
    rw [params, scriptOfParams]
    refine Walks.find (x := .param p.ty) (f := fun t => do
        if (← registry).isVoid t then type .voidParameter p.span
        if hasBody && p.name.isNone then Check.name .unnamedParameter p.span
        return t)
      (fun _ => .registry_bind fun _ => .guard (.throw _) (.guard (.throw _) (.pure _)))
      (fun t u hu => ?_) fun e => .still fun _ => ⟨_, e, rfl⟩
    obtain rfl := Gives.registry_bind (fun _ => .guard (.guard (.pure t))) u hu
    refine (walks_params _ hasBody ps).last (fun ps' ts => .pure fun _ _ => ?_)
      fun _ e => .still fun _ => ⟨_, e, rfl⟩
    show (_ :: claimsOfParams ps') ⊆ _
    grind [bare]

theorem walks_functionBody (K : List (Written × TypeId)) (ret : TypeId) (ps : List ParamDecl)
    (body : Block) :
    Walks K (functionBody ret ps body) (.scope body.script .done) fun body' =>
      claimsOf (Node.ofItems body'.items) :=
  Walks.inFunction ret (Walks.inScope (.check (idles_defineParams ps)
    (fun _ _ => walks_block K true body) fun e => .still fun _ => ⟨_, e, rfl⟩))

theorem walks_function (K : List (Written × TypeId)) (f : FuncDecl) :
    Walks K (function f) f.script fun f' => claimsOf (Node.ofTopDecl (.function f')) := by
  unfold function FuncDecl.script
  refine Walks.find (x := .value f.returns) (f := fun t => do
      let r ← registry
      if r.isStruct t then Check.name .structReturn f.returns.span
      if r.isArray t then type .arrayReturn f.returns.span
      return t)
    (fun _ => .registry_bind fun _ => .guard (.throw _) (.guard (.throw _) (.pure _)))
    (fun t u hu => ?_) fun e => .still fun _ => ⟨_, e, rfl⟩
  obtain rfl := Gives.registry_bind (fun _ => .guard (.guard (.pure t))) u hu
  refine (walks_params _ _ f.params).bind (fun ps ts => .check ((Idles.lift _).bind fun _ =>
    idles_declareFunction _ _ _ _) (fun _ _ => ?_) fun e => .still fun _ => ⟨_, e, rfl⟩)
    fun _ e => .still fun _ => ⟨_, e, rfl⟩
  obtain ⟨name, returns, _, variadic, body, span, _⟩ := f
  cases body with
  | none =>
    refine .pure fun _ _ => ?_
    show (_ :: claimsOfParams ps) ++ [] ⊆ _
    grind [bare]
  | some body =>
    refine (walks_functionBody _ u ps body).last (fun body' _ => .pure fun _ _ => ?_)
      fun _ e => .still fun _ => ⟨_, e, rfl⟩
    show (_ :: claimsOfParams ps) ++ claimsOf (Node.ofItems body'.items) ⊆ _
    grind [bare]

theorem walks_topDecl (K : List (Written × TypeId)) : ∀ d,
    Walks K (topDecl d) d.script fun d' => claimsOf (Node.ofTopDecl d')
  | .declaration d => by
    unfold topDecl
    exact (walks_declaration K d).last (fun _ _ => .pure fun _ _ => List.subset_append_left _ _)
      fun _ e => .still fun _ => ⟨_, e, rfl⟩
  | .function f => by
    unfold topDecl
    exact (walks_function K f).last (fun _ _ => .pure fun _ _ => List.subset_append_left _ _)
      fun _ e => .still fun _ => ⟨_, e, rfl⟩

/-- Each failure is recorded, and the next declaration is looked at. -/
theorem walks_topDecls (K : List (Written × TypeId)) : ∀ ds,
    Walks K (do return (← topDecls ds, (.ok () : Verdict Unit))) (scriptOfDecls ds) fun ds' =>
      claimsOf (ds'.flatMap Node.ofTopDecl)
  | [] => .pure fun _ _ => List.nil_subset _
  | d :: ds => by
    have htail (K : List (Written × TypeId)) (d' : TopDecl) :
        Walks (claimsOf (Node.ofTopDecl d') ++ K)
          (do return (d' :: (← topDecls ds), (.ok () : Verdict Unit))) (scriptOfDecls ds)
          fun ds' => claimsOf (ds'.flatMap Node.ofTopDecl) := by
      have h : Walks (claimsOf (Node.ofTopDecl d') ++ K)
          ((do return (← topDecls ds, (.ok () : Verdict Unit))) >>= fun x => pure (d' :: x.1, x.2))
          (scriptOfDecls ds) fun ds' => claimsOf (ds'.flatMap Node.ofTopDecl) :=
        (walks_topDecls (claimsOf (Node.ofTopDecl d') ++ K) ds).last
          (fun ds' _ => .pure fun _ _ => ?_) fun _ e => .still fun _ => ⟨_, e, rfl⟩
      · simpa only [bind_assoc, pure_bind] using h
      · rw [List.flatMap_cons, claimsOf_append]
        grind
    let next : TopDecl × Verdict Unit → Analysis (List TopDecl × Verdict Unit)
      | (d', .ok ()) => do return (d' :: (← topDecls ds), (.ok () : Verdict Unit))
      | (d', .error e) => do
        record e
        return (d' :: (← topDecls ds), (.ok () : Verdict Unit))
    have h : Walks K (topDecl d >>= next) (d.script.append (scriptOfDecls ds)) fun ds' =>
        claimsOf (ds'.flatMap Node.ofTopDecl) :=
      (walks_topDecl K d).bind (fun d' _ => htail K d') fun d' e => .recorded e (htail K d')
    rw [scriptOfDecls]
    convert h using 1
    funext s
    obtain ⟨⟨⟨d', v⟩, s₁⟩, hrun⟩ : ∃ y, topDecl d s = y := ⟨_, rfl⟩
    rw [topDecls, bind_assoc, run_bind hrun, run_bind hrun]
    cases v <;> rfl

end MiniC.Typing
