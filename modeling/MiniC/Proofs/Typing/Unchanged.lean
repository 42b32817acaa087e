import MiniC.Proofs.Syntax.Demands
import MiniC.Proofs.Typing.Annotated
/-!
What analysis does not change. Main statements: an analyzed tree has the forms and texts of its source
and integers, follows no pointer unless its source does, and has the globals of its source.
-/
namespace MiniC

/-- Forms that reach an object through a pointer or an index. -/
def Syntax.ExprKind.isIndirect : Syntax.ExprKind → Bool
  | .index .. | .pointerMember .. | .deref _ => true
  | _ => false

def Typing.Node.isIndirect : Typing.Node → Bool
  | .expr e => e.kind.isIndirect
  | _ => false

namespace Typing

open Syntax

/-- No pointer is followed at any of these places. -/
def Direct (ns : List Node) : Prop := ∀ n ∈ ns, n.isIndirect = false

/-- What the expressions of a tree may be: whether they may reach an object through a pointer or an
index, and which texts may stand there. -/
structure Forms where
  indirect : Prop
  text : String → Prop

namespace Forms

variable (F : Forms)

def kind : ExprKind → Prop
  | .index .. | .pointerMember .. | .deref _ => F.indirect
  | .string text => F.text text
  | _ => True

def node : Node → Prop
  | .expr e => F.kind e.kind
  | .var _ | .function _ => True

def All (ns : List Node) : Prop := ∀ n ∈ ns, F.node n

end Forms

theorem direct_iff {ns : List Node} : Direct ns ↔ Forms.All ⟨False, fun _ => True⟩ ns := by
  refine forall₂_congr fun n _ => ?_
  cases n with
  | expr e =>
    obtain ⟨kind, span, ty⟩ := e
    cases kind <;> simp [Node.isIndirect, ExprKind.isIndirect, Forms.node, Forms.kind]
  | var | function => exact iff_of_true rfl trivial

/-- Whatever the state, the result of the analysis has the property. -/
def Returns {α : Type} (act : Analysis α) (P : α → Prop) : Prop := ∀ s, P (act s).1

section Rules

variable {F : Forms} {ns ns' : List Node} {α β τ : Type} {act : Analysis α} {P : α → Prop}
  {Q : β → Prop}

theorem all_nil : F.All [] := List.forall_mem_nil _

theorem all_append : F.All (ns ++ ns') ↔ F.All ns ∧ F.All ns' := List.forall_mem_append

theorem all_cons {n : Node} : F.All (n :: ns) ↔ F.node n ∧ F.All ns :=
  List.forall_mem_cons

theorem all_expr {kind : ExprKind} {span : Span} {ty : Option TypeId} :
    F.All (Node.ofExpr ⟨kind, span, ty⟩) ↔
      F.kind kind ∧ F.All (Node.ofKind kind) := by
  rw [Node.ofExpr, all_cons]
  rfl

namespace Returns

theorem pure {a : α} (h : P a) : Returns (Pure.pure a) P := fun _ => h

theorem bind {k : α → Analysis β} (h : Returns act P) (hk : ∀ a, P a → Returns (k a) Q) :
    Returns (act >>= k) Q :=
  fun s => hk _ (h s) _

/-- Nothing matters of what was found out. -/
theorem after {k : α → Analysis β} (hk : ∀ a, Returns (k a) Q) : Returns (act >>= k) Q :=
  fun _ => hk _ _

theorem andThen (nodes : τ → List Node) {tree : τ} {earlier : Verdict β}
    {act : Analysis (τ × Verdict α)} (htree : F.All (nodes tree))
    (hact : Returns act fun x => F.All (nodes x.1)) :
    Returns (Typing.andThen earlier tree act) fun x => F.All (nodes x.1) := by
  cases earlier with
  | ok _ => exact hact
  | error e => exact .pure htree

theorem inScope (h : Returns act P) : Returns (Typing.inScope act) P :=
  .after fun _ => h.bind fun _ ha => .after fun _ => .pure ha

theorem inLoop (h : Returns act P) : Returns (Typing.inLoop act) P :=
  .after fun _ => h.bind fun _ ha => .after fun _ => .pure ha

variable {kind : ExprKind} {span : Span} {ty : Option TypeId}

theorem typed {c : Check TypeId} (hkind : F.kind kind) (h : F.All (Node.ofKind kind)) :
    Returns (Typing.typed kind span ty c) fun x => F.All (Node.ofExpr x.1) := by
  refine .after fun v => ?_
  cases v <;> exact .pure (all_expr.mpr ⟨hkind, h⟩)

theorem folded {c : Check Nat} (hkind : F.kind kind) (h : F.All (Node.ofKind kind)) :
    Returns (Typing.folded kind span ty c) fun x => F.All (Node.ofExpr x.1) := by
  refine .after fun v => ?_
  cases v with
  | ok n =>
    refine .after fun s => .pure (all_expr.mpr ⟨trivial, ?_⟩)
    rw [Node.ofKind]
    exact all_nil
  | error e => exact .pure (all_expr.mpr ⟨hkind, h⟩)

end Returns

end Rules

variable {F : Forms}

mutual

theorem returns_expr : ∀ e, F.All (Node.ofExpr e) →
    Returns (expr e) fun x => F.All (Node.ofExpr x.1)
  | ⟨kind, span, ty⟩, h => by
    rw [expr]
    exact returns_exprKind span ty kind (all_expr.mp h).1 (all_expr.mp h).2

theorem returns_value : ∀ e, F.All (Node.ofExpr e) →
    Returns (value e) fun x => F.All (Node.ofExpr x.1)
  | ⟨kind, span, ty⟩, h => by
    rw [value]
    exact (returns_exprKind span ty kind (all_expr.mp h).1 (all_expr.mp h).2).bind fun _ he =>
      .after fun _ => .pure he

theorem returns_exprKind (span : Span) (ty : Option TypeId) : ∀ k, F.kind k →
    F.All (Node.ofKind k) → Returns (exprKind span ty k) fun x => F.All (Node.ofExpr x.1)
  | .integer n, hk, h => by
    rw [exprKind]
    exact .typed hk h
  | .character b, hk, h => by
    rw [exprKind]
    exact .typed hk h
  | .string text, hk, h => by
    rw [exprKind]
    exact .typed hk h
  | .name name, hk, h => by
    rw [exprKind]
    exact .typed hk h
  | .binary op left right, _, h => by
    rw [Node.ofKind, all_append] at h
    rw [exprKind]
    refine (returns_value left h.1).bind fun l hl =>
      (Returns.andThen Node.ofExpr h.2 (returns_value right h.2)).bind fun r hr => .typed trivial ?_
    rw [Node.ofKind]
    exact all_append.mpr ⟨hl, hr⟩
  | .unary op operand, _, h => by
    rw [Node.ofKind] at h
    rw [exprKind]
    refine (returns_value operand h).bind fun o ho => .typed trivial ?_
    rwa [Node.ofKind]
  | .assign op target source, _, h => by
    rw [Node.ofKind, all_append] at h
    rw [exprKind]
    refine (returns_expr target h.1).bind fun t ht => .after fun _ =>
      (Returns.andThen Node.ofExpr h.2 (returns_value source h.2)).bind fun s hs => .typed trivial ?_
    rw [Node.ofKind]
    exact all_append.mpr ⟨ht, hs⟩
  | .conditional cond yes no, _, h => by
    rw [Node.ofKind, all_append, all_append] at h
    obtain ⟨hcond, hyes, hno⟩ := h
    rw [exprKind]
    refine (returns_condition cond hcond).bind fun c hc =>
      (Returns.andThen Node.ofExpr hyes (returns_value yes hyes)).bind fun y hy =>
        (Returns.andThen Node.ofExpr hno (returns_value no hno)).bind fun n hn => .typed trivial ?_
    rw [Node.ofKind]
    exact all_append.mpr ⟨hc, all_append.mpr ⟨hy, hn⟩⟩
  | .call callee args, hk, h => by
    have hargs := h
    rw [Node.ofKind] at hargs
    rw [exprKind]
    refine .after fun f => ?_
    cases f with
    | error e => exact .pure (all_expr.mpr ⟨hk, h⟩)
    | ok f =>
      refine (returns_arguments f.2.params args hargs).bind fun a ha => .typed trivial ?_
      rwa [Node.ofKind]
  | .index array subscript, hk, h => by
    rw [Node.ofKind, all_append] at h
    rw [exprKind]
    refine (returns_expr array h.1).bind fun a ha =>
      (Returns.andThen Node.ofExpr h.2 (returns_value subscript h.2)).bind fun i hi => .typed hk ?_
    rw [Node.ofKind]
    exact all_append.mpr ⟨ha, hi⟩
  | .member object field old, _, h => by
    rw [Node.ofKind] at h
    rw [exprKind]
    refine (returns_expr object h).bind fun o ho => .after fun m => ?_
    have hobject (resolved : Option MemberRef) :
        F.All (Node.ofKind (.member o.1 field resolved)) := by rwa [Node.ofKind]
    cases m <;> exact .pure (all_expr.mpr ⟨trivial, hobject _⟩)
  | .pointerMember pointer field old, hk, h => by
    rw [Node.ofKind] at h
    rw [exprKind]
    refine (returns_value pointer h).bind fun p hp => .after fun m => ?_
    have hpointer (resolved : Option MemberRef) :
        F.All (Node.ofKind (.pointerMember p.1 field resolved)) := by rwa [Node.ofKind]
    cases m <;> exact .pure (all_expr.mpr ⟨hk, hpointer _⟩)
  | .cast target operand, _, h => by
    rw [Node.ofKind] at h
    rw [exprKind]
    refine .after fun t =>
      (Returns.andThen Node.ofExpr h (returns_value operand h)).bind fun o ho => .typed trivial ?_
    rwa [Node.ofKind]
  | .query q operand, _, h => by
    rw [Node.ofKind] at h
    rw [exprKind]
    refine (returns_expr operand h).bind fun o ho => .folded trivial ?_
    rwa [Node.ofKind]
  | .typeQuery q target, hk, h => by
    rw [exprKind]
    exact .folded hk h
  | .addressOf operand, _, h => by
    rw [Node.ofKind] at h
    rw [exprKind]
    refine (returns_expr operand h).bind fun o ho => .typed trivial ?_
    rwa [Node.ofKind]
  | .deref pointer, hk, h => by
    rw [Node.ofKind] at h
    rw [exprKind]
    refine (returns_value pointer h).bind fun p hp => .typed hk ?_
    rwa [Node.ofKind]
  | .step operand decrement yieldsOld, _, h => by
    rw [Node.ofKind] at h
    rw [exprKind]
    refine (returns_expr operand h).bind fun o ho => .typed trivial ?_
    rwa [Node.ofKind]
  | .comma items, _, h => by
    rw [Node.ofKind] at h
    rw [exprKind]
    refine (returns_values Registry.void items h).bind fun is his => .typed trivial ?_
    rwa [Node.ofKind]
  | .block ⟨items, bspan⟩, _, h => by
    rw [Node.ofKind] at h
    rw [exprKind]
    refine (Returns.inScope (P := fun x => F.All (Node.ofItems x.1.items))
      ((returns_block false ⟨items, bspan⟩ h).bind fun b hb => .after fun _ => .pure hb)).bind
        fun b hb => ?_
    obtain ⟨⟨items, bspan⟩, t⟩ := b
    refine .typed trivial ?_
    rwa [Node.ofKind]

theorem returns_condition : ∀ e, F.All (Node.ofExpr e) →
    Returns (condition e) fun x => F.All (Node.ofExpr x.1)
  | ⟨kind, span, ty⟩, h => by
    rw [condition]
    exact (returns_exprKind span ty kind (all_expr.mp h).1 (all_expr.mp h).2).bind fun _ he =>
      .after fun _ => .pure he

theorem returns_values (last : TypeId) : ∀ es, F.All (Node.ofExprs es) →
    Returns (values last es) fun x => F.All (Node.ofExprs x.1)
  | [], h => by
    rw [values]
    exact .pure h
  | e :: es, h => by
    rw [Node.ofExprs, all_append] at h
    rw [values]
    refine (returns_value e h.1).bind fun x hx => ?_
    obtain ⟨e', t⟩ := x
    cases t with
    | error err =>
      refine .pure ?_
      rw [Node.ofExprs]
      exact all_append.mpr ⟨hx, h.2⟩
    | ok t =>
      refine (returns_values t es h.2).bind fun rest hrest => .pure ?_
      rw [Node.ofExprs]
      exact all_append.mpr ⟨hx, hrest⟩

theorem returns_arguments (params : List TypeId) : ∀ es, F.All (Node.ofExprs es) →
    Returns (arguments params es) fun x => F.All (Node.ofExprs x.1)
  | [], h => by
    rw [arguments]
    exact .pure h
  | e :: es, h => by
    rw [Node.ofExprs, all_append] at h
    rw [arguments]
    refine (returns_value e h.1).bind fun x hx => .after fun _ =>
      (Returns.andThen Node.ofExprs h.2 (returns_arguments params.tail es h.2)).bind
        fun rest hrest => .pure ?_
    rw [Node.ofExprs]
    exact all_append.mpr ⟨hx, hrest⟩

theorem returns_block (recover : Bool) : ∀ b, F.All (Node.ofItems b.items) →
    Returns (block recover b) fun x => F.All (Node.ofItems x.1.items)
  | ⟨items, span⟩, h => by
    rw [block]
    exact (returns_blockItems recover items h).bind fun _ his => .pure his

theorem returns_blockItems (recover : Bool) : ∀ is, F.All (Node.ofItems is) →
    Returns (blockItems recover is) fun x => F.All (Node.ofItems x.1)
  | [], h => by
    rw [blockItems]
    exact .pure h
  | i :: is, h => by
    rw [Node.ofItems, all_append] at h
    rw [blockItems]
    refine (returns_blockItem i h.1).bind fun x hx => ?_
    obtain ⟨i', done⟩ := x
    have hrest : Returns (do
        let (is, rest) ← blockItems recover is
        return (i' :: is, rest)) fun x => F.All (Node.ofItems x.1) := by
      refine (returns_blockItems recover is h.2).bind fun rest hrest => .pure ?_
      rw [Node.ofItems]
      exact all_append.mpr ⟨hx, hrest⟩
    cases done with
    | ok _ => exact hrest
    | error e =>
      dsimp only
      split
      · exact .after fun _ => hrest
      · refine .pure ?_
        rw [Node.ofItems]
        exact all_append.mpr ⟨hx, h.2⟩

theorem returns_blockItem : ∀ i, F.All (Node.ofItem i) →
    Returns (blockItem i) fun x => F.All (Node.ofItem x.1)
  | .statement s, h => by
    rw [Node.ofItem] at h
    rw [blockItem]
    refine (returns_stmt s h).bind fun x hx => .pure ?_
    rwa [Node.ofItem]
  | .declaration d, h => by
    rw [Node.ofItem] at h
    rw [blockItem]
    refine (returns_declaration d h).bind fun x hx => .pure ?_
    rwa [Node.ofItem]

theorem returns_stmt : ∀ s, F.All (Node.ofStmt s) →
    Returns (stmt s) fun x => F.All (Node.ofStmt x.1)
  | ⟨kind, span⟩, h => by
    rw [Node.ofStmt] at h
    rw [stmt]
    refine (returns_stmtKind span kind h).bind fun x hx => .pure ?_
    rwa [Node.ofStmt]

theorem returns_stmtKind (span : Span) : ∀ k, F.All (Node.ofStmtKind k) →
    Returns (stmtKind span k) fun x => F.All (Node.ofStmtKind x.1)
  | .expr e, h => by
    rw [Node.ofStmtKind] at h
    rw [stmtKind]
    refine (returns_expr e h).bind fun x hx => .pure ?_
    rwa [Node.ofStmtKind]
  | .empty, h => by
    rw [stmtKind]
    exact .pure h
  | .break_, h => by
    rw [stmtKind]
    exact .after fun _ => .pure h
  | .continue_, h => by
    rw [stmtKind]
    exact .after fun _ => .pure h
  | .block ⟨items, bspan⟩, h => by
    rw [Node.ofStmtKind] at h
    rw [stmtKind]
    refine (Returns.inScope (returns_block true ⟨items, bspan⟩ h)).bind fun x hx => .pure ?_
    obtain ⟨⟨items, bspan⟩, done⟩ := x
    rwa [Node.ofStmtKind]
  | .if_ cond yes no, h => by
    rw [Node.ofStmtKind, all_append, all_append] at h
    obtain ⟨hcond, hyes, hno⟩ := h
    rw [stmtKind]
    refine (returns_condition cond hcond).bind fun c hc =>
      (Returns.andThen Node.ofStmt hyes (returns_stmt yes hyes)).bind fun y hy =>
        (Returns.andThen Node.ofStmt? hno (returns_stmt? no hno)).bind fun n hn => .pure ?_
    rw [Node.ofStmtKind]
    exact all_append.mpr ⟨hc, all_append.mpr ⟨hy, hn⟩⟩
  | .loop kind init cond update body, h => by
    rw [Node.ofStmtKind, all_append, all_append, all_append] at h
    obtain ⟨hinit, hcond, hupdate, hbody⟩ := h
    rw [stmtKind]
    refine .inScope ((returns_loopInit? init hinit).bind fun i hi =>
      (Returns.andThen Node.ofExpr? hcond (returns_condition? cond hcond)).bind fun c hc =>
        (Returns.andThen Node.ofExpr? hupdate (returns_expr? update hupdate)).bind fun u hu =>
          (Returns.andThen Node.ofStmt hbody (.inLoop (returns_stmt body hbody))).bind
            fun b hb => .pure ?_)
    rw [Node.ofStmtKind]
    exact all_append.mpr ⟨hi, all_append.mpr ⟨hc, all_append.mpr ⟨hu, hb⟩⟩⟩
  | .return_ e, h => by
    have he := h
    rw [Node.ofStmtKind] at he
    rw [stmtKind]
    refine .after fun s => ?_
    split
    · exact .pure h
    · refine (returns_returned? e he).bind fun x hx => .pure ?_
      rwa [Node.ofStmtKind]

theorem returns_stmt? : ∀ s, F.All (Node.ofStmt? s) →
    Returns (stmt? s) fun x => F.All (Node.ofStmt? x.1)
  | none, h => by
    rw [stmt?]
    exact .pure h
  | some s, h => by
    rw [Node.ofStmt?] at h
    rw [stmt?]
    refine (returns_stmt s h).bind fun x hx => .pure ?_
    rwa [Node.ofStmt?]

theorem returns_expr? : ∀ e, F.All (Node.ofExpr? e) →
    Returns (expr? e) fun x => F.All (Node.ofExpr? x.1)
  | none, h => by
    rw [expr?]
    exact .pure h
  | some e, h => by
    rw [Node.ofExpr?] at h
    rw [expr?]
    refine (returns_expr e h).bind fun x hx => .pure ?_
    rwa [Node.ofExpr?]

theorem returns_condition? : ∀ e, F.All (Node.ofExpr? e) →
    Returns (condition? e) fun x => F.All (Node.ofExpr? x.1)
  | none, h => by
    rw [condition?]
    exact .pure h
  | some e, h => by
    rw [Node.ofExpr?] at h
    rw [condition?]
    refine (returns_condition e h).bind fun x hx => .pure ?_
    rwa [Node.ofExpr?]

theorem returns_returned? : ∀ e, F.All (Node.ofExpr? e) →
    Returns (returned? e) fun x => F.All (Node.ofExpr? x.1)
  | none, h => by
    rw [returned?]
    exact .pure h
  | some e, h => by
    rw [Node.ofExpr?] at h
    rw [returned?]
    refine (returns_value e h).bind fun x hx => .after fun _ => .pure ?_
    rwa [Node.ofExpr?]

theorem returns_loopInit? : ∀ i, F.All (Node.ofInit i) →
    Returns (loopInit? i) fun x => F.All (Node.ofInit x.1)
  | none, h => by
    rw [loopInit?]
    exact .pure h
  | some i, h => by
    rw [loopInit?]
    exact (returns_loopInit i h).bind fun x hx => .pure hx

theorem returns_loopInit : ∀ i, F.All (Node.ofInit (some i)) →
    Returns (loopInit i) fun x => F.All (Node.ofInit (some x.1))
  | .expr e, h => by
    rw [Node.ofInit] at h
    rw [loopInit]
    refine (returns_expr e h).bind fun x hx => .pure ?_
    rwa [Node.ofInit]
  | .declaration d, h => by
    rw [Node.ofInit] at h
    rw [loopInit]
    refine (returns_declaration d h).bind fun x hx => .pure ?_
    rwa [Node.ofInit]

theorem returns_declaration : ∀ d, F.All (Node.ofDecl d) →
    Returns (declaration d) fun x => F.All (Node.ofDecl x.1)
  | ⟨.vars vs, span⟩, h => by
    rw [Node.ofDecl] at h
    rw [declaration, declKind]
    refine ((returns_varDecls vs h).bind (Q := fun x => F.All (Node.ofDecl ⟨x.1, span⟩))
      fun x hx => .pure ?_).bind fun x hx => .pure hx
    rwa [Node.ofDecl]
  | ⟨.struct spec, span⟩, h => by
    rw [declaration, declKind]
    exact (Returns.after (Q := fun x => F.All (Node.ofDecl ⟨x.1, span⟩)) fun _ => .pure h).bind
      fun x hx => .pure hx

theorem returns_varDecls : ∀ vs, F.All (Node.ofVars vs) →
    Returns (varDecls vs) fun x => F.All (Node.ofVars x.1)
  | [], h => by
    rw [varDecls]
    exact .pure h
  | v :: vs, h => by
    rw [Node.ofVars, all_append] at h
    rw [varDecls]
    refine (returns_varDecl v h.1).bind fun x hx =>
      (Returns.andThen Node.ofVars h.2 (returns_varDecls vs h.2)).bind fun rest hrest => .pure ?_
    rw [Node.ofVars]
    exact all_append.mpr ⟨hx, hrest⟩

theorem returns_varDecl : ∀ v, F.All (Node.ofVar v) →
    Returns (varDecl v) fun x => F.All (Node.ofVar x.1)
  | ⟨name, ty, init, span, resolved⟩, h => by
    have hinit := h
    rw [Node.ofVar, all_cons] at hinit
    rw [varDecl]
    refine .after fun v => ?_
    cases v with
    | error e => exact .pure h
    | ok t =>
      refine .after fun s => .after fun defined => (Returns.andThen Node.ofInitializer? hinit.2
        (returns_initializer? t _ init hinit.2)).bind fun x hx => .pure ?_
      rw [Node.ofVar]
      exact all_cons.mpr ⟨trivial, hx⟩

theorem returns_initializer? (t : TypeId) (isGlobal : Bool) : ∀ i, F.All (Node.ofInitializer? i) →
    Returns (initializer? t isGlobal i) fun x => F.All (Node.ofInitializer? x.1)
  | none, h => by
    rw [initializer?]
    exact .pure h
  | some i, h => by
    rw [Node.ofInitializer?] at h
    rw [initializer?]
    refine (returns_initializer t isGlobal i h).bind fun x hx => .pure ?_
    rwa [Node.ofInitializer?]

theorem returns_initializer (t : TypeId) (isGlobal : Bool) : ∀ i, F.All (Node.ofInitializer i) →
    Returns (initializer t isGlobal i) fun x => F.All (Node.ofInitializer x.1)
  | .expr e, h => by
    rw [Node.ofInitializer] at h
    rw [initializer]
    refine (returns_initialValue t isGlobal e h).bind fun x hx => .pure ?_
    rwa [Node.ofInitializer]
  | .list items span, h => by
    rw [Node.ofInitializer] at h
    rw [initializer]
    have hlist {items : List Initializer} (h : F.All (Node.ofInitializers items)) :
        F.All (Node.ofInitializer (.list items span)) := by rwa [Node.ofInitializer]
    refine .after fun s => ?_
    cases listTarget s.registry t with
    | elements element length =>
      exact .after fun few => (Returns.andThen Node.ofInitializers h
        (returns_elementInits element isGlobal items h)).bind fun x hx => .pure (hlist hx)
    | members types =>
      exact .after fun few => (Returns.andThen Node.ofInitializers h
        (returns_memberInits types isGlobal items h)).bind fun x hx => .pure (hlist hx)
    | scalar => exact (returns_scalarInit t isGlobal span items h).bind fun x hx => .pure (hlist hx)

theorem returns_initialValue (t : TypeId) (isGlobal : Bool) : ∀ e, F.All (Node.ofExpr e) →
    Returns (initialValue t isGlobal e) fun x => F.All (Node.ofExpr x.1)
  | ⟨kind, span, ty⟩, h => by
    have hkind := returns_exprKind span ty kind (all_expr.mp h).1 (all_expr.mp h).2
    rw [initialValue]
    refine .after fun s => ?_
    split
    · refine .after fun v => ?_
      cases v with
      | error e => exact .pure h
      | ok _ => exact hkind.bind fun x hx => .pure hx
    · exact .pure h
    · exact hkind.bind fun x hx => .after fun _ => .pure hx

theorem returns_elementInits (element : TypeId) (isGlobal : Bool) : ∀ is,
    F.All (Node.ofInitializers is) →
      Returns (elementInits element isGlobal is) fun x => F.All (Node.ofInitializers x.1)
  | [], h => by
    rw [elementInits]
    exact .pure h
  | i :: is, h => by
    rw [Node.ofInitializers, all_append] at h
    rw [elementInits]
    refine (returns_initializer element isGlobal i h.1).bind fun x hx =>
      (Returns.andThen Node.ofInitializers h.2 (returns_elementInits element isGlobal is h.2)).bind
        fun rest hrest => .pure ?_
    rw [Node.ofInitializers]
    exact all_append.mpr ⟨hx, hrest⟩

theorem returns_memberInits (types : List TypeId) (isGlobal : Bool) : ∀ is,
    F.All (Node.ofInitializers is) →
      Returns (memberInits types isGlobal is) fun x => F.All (Node.ofInitializers x.1)
  | [], h => by
    rw [memberInits]
    exact .pure h
  | i :: is, h => by
    cases types with
    | nil =>
      rw [memberInits]
      exact .pure h
    | cons t ts =>
      rw [Node.ofInitializers, all_append] at h
      rw [memberInits]
      refine (returns_initializer t isGlobal i h.1).bind fun x hx =>
        (Returns.andThen Node.ofInitializers h.2 (returns_memberInits ts isGlobal is h.2)).bind
          fun rest hrest => .pure ?_
      rw [Node.ofInitializers]
      exact all_append.mpr ⟨hx, hrest⟩

theorem returns_scalarInit (t : TypeId) (isGlobal : Bool) (span : Span) : ∀ is,
    F.All (Node.ofInitializers is) →
      Returns (scalarInit t isGlobal span is) fun x => F.All (Node.ofInitializers x.1)
  | [.expr e], h => by
    rw [Node.ofInitializers, Node.ofInitializer, all_append] at h
    rw [scalarInit]
    refine (returns_initialValue t isGlobal e h.1).bind fun x hx => .pure ?_
    rw [Node.ofInitializers, Node.ofInitializer]
    exact all_append.mpr ⟨hx, h.2⟩
  | [], h | [.list _ _], h | _ :: _ :: _, h => by
    rw [scalarInit]
    · exact .pure h
    all_goals exact nofun

end

section Units

theorem all_function {f : FuncDecl} :
    F.All (Node.ofTopDecl (.function f)) ↔ F.All (f.body.elim [] fun b => Node.ofItems b.items) :=
  all_cons.trans (and_iff_right trivial)

theorem returns_function {f : FuncDecl} (h : F.All (Node.ofTopDecl (.function f))) :
    Returns (function f) fun x => F.All (Node.ofTopDecl (.function x.1)) := by
  obtain ⟨name, returns, ps, variadic, body, span, resolved⟩ := f
  unfold function
  refine .after fun v => ?_
  have hsame := all_function.mp h
  cases v with
  | error e => exact .pure h
  | ok ret =>
    refine .after fun ps => .after fun declared => ?_
    cases declared with
    | error e => cases body <;> exact .pure (all_function.mpr hsame)
    | ok _ =>
      cases body with
      | none => exact .pure (all_function.mpr hsame)
      | some body =>
        have hbody := returns_block true body hsame
        have hin (defined : Verdict Unit) : Returns (Typing.andThen defined body (block true body))
            fun x => F.All (Node.ofItems x.1.items) :=
          .andThen (fun b : Block => Node.ofItems b.items) hsame hbody
        refine Returns.bind (P := fun x => F.All (Node.ofItems x.1.items))
          (.after fun _ => (Returns.inScope (.after hin)).bind fun b hb => .after fun _ => .pure hb)
          fun b hb => .pure ?_
        exact all_function.mpr hb

theorem returns_topDecl : ∀ d, F.All (Node.ofTopDecl d) →
    Returns (topDecl d) fun x => F.All (Node.ofTopDecl x.1)
  | .declaration d, h => (returns_declaration d h).bind fun _ hd => .pure hd
  | .function _, h => (returns_function h).bind fun _ hf => .pure hf

theorem returns_topDecls : ∀ ds, F.All (ds.flatMap Node.ofTopDecl) →
    Returns (topDecls ds) fun ds => F.All (ds.flatMap Node.ofTopDecl)
  | [], h => .pure h
  | d :: ds, h => by
    rw [List.flatMap_cons, all_append] at h
    rw [topDecls]
    refine (returns_topDecl d h.1).bind fun x hx => ?_
    obtain ⟨d', done⟩ := x
    have hrest : Returns (do return d' :: (← topDecls ds))
        fun ds => F.All (ds.flatMap Node.ofTopDecl) := by
      refine (returns_topDecls ds h.2).bind fun rest hrest => .pure ?_
      rw [List.flatMap_cons]
      exact all_append.mpr ⟨hx, hrest⟩
    cases done with
    | ok _ => exact hrest
    | error e => exact .after fun _ => hrest

/-- Analysis makes no new forms but integers. -/
theorem all_analyze {config : Layout.Config} {u : CompilationUnit} (h : F.All (Node.ofUnit u)) :
    F.All (Node.ofUnit (analyze config u).tree) := by
  have hdecls := returns_topDecls u.decls h (State.initial config)
  unfold analyze
  exact hdecls

/-- Analysis makes nothing follow a pointer. -/
theorem direct_analyze {config : Layout.Config} {u : CompilationUnit} (h : Direct (Node.ofUnit u)) :
    Direct (Node.ofUnit (analyze config u).tree) :=
  direct_iff.mpr (all_analyze (direct_iff.mp h))

/-! Names. -/

theorem returns_varDecl_name (v : VarDecl) : Returns (varDecl v) fun x => x.1.name = v.name := by
  obtain ⟨name, ty, init, span, resolved⟩ := v
  rw [varDecl]
  refine .after fun c => ?_
  cases c with
  | error e => exact .pure rfl
  | ok t => exact .after fun s => .after fun defined => .after fun x => .pure rfl

theorem returns_varDecls_names (vs : List VarDecl) :
    Returns (varDecls vs) fun x => x.1.map (·.name) = vs.map (·.name) := by
  induction vs with
  | nil =>
    rw [varDecls]
    exact .pure rfl
  | cons v vs ih =>
    rw [varDecls]
    refine (returns_varDecl_name v).bind fun x hx => ?_
    refine Returns.bind (P := fun rest => rest.1.map (·.name) = vs.map (·.name)) ?_
      fun rest hrest => .pure (by rw [List.map_cons, List.map_cons, hx, hrest])
    cases x.2 with
    | ok _ => exact ih
    | error e => exact .pure rfl

theorem returns_topDecl_globals (d : TopDecl) :
    Returns (topDecl d) fun x => x.1.globals = d.globals := by
  cases d with
  | function f => exact .after fun x => .pure rfl
  | declaration d =>
    obtain ⟨kind, span⟩ := d
    rw [topDecl, declaration]
    have hkind : Returns (declKind kind)
        fun x => x.1.declared.map (·.name) = kind.declared.map (·.name) := by
      cases kind with
      | vars vs =>
        rw [declKind]
        exact (returns_varDecls_names vs).bind fun x hx => .pure hx
      | struct spec =>
        rw [declKind]
        exact .after fun x => .pure rfl
    exact Returns.bind (P := fun x : Declaration × Verdict Unit =>
      x.1.kind.declared.map (·.name) = kind.declared.map (·.name))
      (hkind.bind fun x hx => .pure hx) fun x hx => .pure hx

theorem returns_topDecls_globals : ∀ ds,
    Returns (topDecls ds) fun x => x.flatMap TopDecl.globals = ds.flatMap TopDecl.globals
  | [] => .pure rfl
  | d :: ds => by
    rw [topDecls]
    refine (returns_topDecl_globals d).bind fun x hx => ?_
    obtain ⟨d', done⟩ := x
    have hrest : Returns (do return d' :: (← topDecls ds))
        fun x => x.flatMap TopDecl.globals = (d :: ds).flatMap TopDecl.globals := by
      refine (returns_topDecls_globals ds).bind fun rest hrest => .pure ?_
      rw [List.flatMap_cons, List.flatMap_cons, hx, hrest]
    cases done with
    | ok _ => exact hrest
    | error e => exact .after fun _ => hrest

theorem globals_analyze (config : Layout.Config) (u : CompilationUnit) :
    (analyze config u).tree.decls.flatMap TopDecl.globals = u.decls.flatMap TopDecl.globals := by
  have hdecls := returns_topDecls_globals u.decls (State.initial config)
  unfold analyze
  exact hdecls

end Units

/-! What is asked of each expression of a tree holds at each of its places. -/

section Demanded

variable {D : Demands} {F : Forms}

mutual

theorem all_ofExpr (h : ∀ e, D.node e → F.kind e.kind) : ∀ e, D.expr e → F.All (Node.ofExpr e)
  | ⟨kind, span, ty⟩, hd => by
    rw [Demands.expr] at hd
    exact all_expr.mpr ⟨h _ hd.2.1, all_ofKind h kind hd.2.2⟩

theorem all_ofKind (h : ∀ e, D.node e → F.kind e.kind) : ∀ k, D.exprKind k → F.All (Node.ofKind k)
  | .integer _, _ | .character _, _ | .string _, _ | .name _, _ | .typeQuery .., _ => by
    rw [Node.ofKind]
    exact all_nil
  | .binary _ left right, hd | .assign _ left right, hd | .index left right, hd => by
    rw [Demands.exprKind] at hd
    rw [Node.ofKind]
    exact all_append.mpr ⟨all_ofExpr h left hd.1, all_ofExpr h right hd.2⟩
  | .unary _ operand, hd | .member operand _ _, hd | .pointerMember operand _ _, hd
  | .query _ operand, hd | .addressOf operand, hd | .deref operand, hd | .step operand _ _, hd => by
    rw [Demands.exprKind] at hd
    rw [Node.ofKind]
    exact all_ofExpr h operand hd
  | .cast _ operand, hd => by
    rw [Demands.exprKind] at hd
    rw [Node.ofKind]
    exact all_ofExpr h operand hd.2
  | .conditional cond yes no, hd => by
    rw [Demands.exprKind] at hd
    rw [Node.ofKind]
    exact all_append.mpr ⟨all_ofExpr h cond hd.1,
      all_append.mpr ⟨all_ofExpr h yes hd.2.1, all_ofExpr h no hd.2.2⟩⟩
  | .call _ args, hd => by
    rw [Demands.exprKind] at hd
    rw [Node.ofKind]
    exact all_ofExprs h args hd.2
  | .comma items, hd => by
    rw [Demands.exprKind] at hd
    rw [Node.ofKind]
    exact all_ofExprs h items hd
  | .block ⟨items, _⟩, hd => by
    rw [Demands.exprKind, Demands.block] at hd
    rw [Node.ofKind]
    exact all_ofItems h items hd.2

theorem all_ofExprs (h : ∀ e, D.node e → F.kind e.kind) : ∀ es, D.exprs es → F.All (Node.ofExprs es)
  | [], _ => by
    rw [Node.ofExprs]
    exact all_nil
  | e :: es, hd => by
    rw [Demands.exprs] at hd
    rw [Node.ofExprs]
    exact all_append.mpr ⟨all_ofExpr h e hd.1, all_ofExprs h es hd.2⟩

theorem all_ofItems (h :
    ∀ e, D.node e → F.kind e.kind) : ∀ is, D.blockItems is → F.All (Node.ofItems is)
  | [], _ => by
    rw [Node.ofItems]
    exact all_nil
  | i :: is, hd => by
    rw [Demands.blockItems] at hd
    rw [Node.ofItems]
    exact all_append.mpr ⟨all_ofItem h i hd.1, all_ofItems h is hd.2⟩

theorem all_ofItem (h : ∀ e, D.node e → F.kind e.kind) : ∀ i, D.blockItem i → F.All (Node.ofItem i)
  | .statement s, hd => by
    rw [Demands.blockItem] at hd
    rw [Node.ofItem]
    exact all_ofStmt h s hd
  | .declaration d, hd => by
    rw [Demands.blockItem] at hd
    rw [Node.ofItem]
    exact all_ofDecl h d hd

theorem all_ofStmt (h : ∀ e, D.node e → F.kind e.kind) : ∀ s, D.stmt s → F.All (Node.ofStmt s)
  | ⟨kind, _⟩, hd => by
    rw [Demands.stmt] at hd
    rw [Node.ofStmt]
    exact all_ofStmtKind h kind hd.2

theorem all_ofStmtKind (h :
    ∀ e, D.node e → F.kind e.kind) : ∀ k, D.stmtKind k → F.All (Node.ofStmtKind k)
  | .expr e, hd => by
    rw [Demands.stmtKind] at hd
    rw [Node.ofStmtKind]
    exact all_ofExpr h e hd
  | .empty, _ | .break_, _ | .continue_, _ => by
    rw [Node.ofStmtKind]
    exact all_nil
  | .block ⟨items, _⟩, hd => by
    rw [Demands.stmtKind, Demands.block] at hd
    rw [Node.ofStmtKind]
    exact all_ofItems h items hd.2
  | .if_ cond yes no, hd => by
    rw [Demands.stmtKind] at hd
    rw [Node.ofStmtKind]
    exact all_append.mpr ⟨all_ofExpr h cond hd.1,
      all_append.mpr ⟨all_ofStmt h yes hd.2.1, all_ofStmt? h no hd.2.2⟩⟩
  | .loop _ init cond update body, hd => by
    rw [Demands.stmtKind] at hd
    obtain ⟨hinit, hcond, hupdate, hbody⟩ := hd
    rw [Node.ofStmtKind]
    exact all_append.mpr ⟨all_ofInit h init hinit, all_append.mpr ⟨all_ofExpr? h cond hcond,
      all_append.mpr ⟨all_ofExpr? h update hupdate, all_ofStmt h body hbody⟩⟩⟩
  | .return_ e, hd => by
    rw [Demands.stmtKind] at hd
    rw [Node.ofStmtKind]
    exact all_ofExpr? h e hd

theorem all_ofStmt? (h : ∀ e, D.node e → F.kind e.kind) : ∀ s, D.stmt? s → F.All (Node.ofStmt? s)
  | none, _ => by
    rw [Node.ofStmt?]
    exact all_nil
  | some s, hd => by
    rw [Demands.stmt?] at hd
    rw [Node.ofStmt?]
    exact all_ofStmt h s hd

theorem all_ofExpr? (h : ∀ e, D.node e → F.kind e.kind) : ∀ e, D.expr? e → F.All (Node.ofExpr? e)
  | none, _ => by
    rw [Node.ofExpr?]
    exact all_nil
  | some e, hd => by
    rw [Demands.expr?] at hd
    rw [Node.ofExpr?]
    exact all_ofExpr h e hd

theorem all_ofInit (h : ∀ e, D.node e → F.kind e.kind) : ∀ i, D.loopInit? i → F.All (Node.ofInit i)
  | none, _ => by
    rw [Node.ofInit]
    exact all_nil
  | some (.expr e), hd => by
    rw [Demands.loopInit?, Demands.loopInit] at hd
    rw [Node.ofInit]
    exact all_ofExpr h e hd
  | some (.declaration d), hd => by
    rw [Demands.loopInit?, Demands.loopInit] at hd
    rw [Node.ofInit]
    exact all_ofDecl h d hd

theorem all_ofDecl (h :
    ∀ e, D.node e → F.kind e.kind) : ∀ d, D.declaration d → F.All (Node.ofDecl d)
  | ⟨.vars vs, _⟩, hd => by
    rw [Demands.declaration, Demands.declKind] at hd
    rw [Node.ofDecl]
    exact all_ofVars h vs hd.2
  | ⟨.struct _, _⟩, _ => by
    rw [Node.ofDecl]
    exact all_nil

theorem all_ofVars (h :
    ∀ e, D.node e → F.kind e.kind) : ∀ vs, D.varDecls vs → F.All (Node.ofVars vs)
  | [], _ => by
    rw [Node.ofVars]
    exact all_nil
  | v :: vs, hd => by
    rw [Demands.varDecls] at hd
    rw [Node.ofVars]
    exact all_append.mpr ⟨all_ofVar h v hd.1, all_ofVars h vs hd.2⟩

theorem all_ofVar (h : ∀ e, D.node e → F.kind e.kind) : ∀ v, D.varDecl v → F.All (Node.ofVar v)
  | ⟨_, _, init, _, _⟩, hd => by
    rw [Demands.varDecl] at hd
    rw [Node.ofVar]
    exact all_cons.mpr ⟨trivial, all_ofInitializer? h init hd.2.2.2⟩

theorem all_ofInitializer? (h :
    ∀ e, D.node e → F.kind e.kind) : ∀ i, D.initializer? i → F.All (Node.ofInitializer? i)
  | none, _ => by
    rw [Node.ofInitializer?]
    exact all_nil
  | some i, hd => by
    rw [Demands.initializer?] at hd
    rw [Node.ofInitializer?]
    exact all_ofInitializer h i hd

theorem all_ofInitializer (h :
    ∀ e, D.node e → F.kind e.kind) : ∀ i, D.initializer i → F.All (Node.ofInitializer i)
  | .expr e, hd => by
    rw [Demands.initializer] at hd
    rw [Node.ofInitializer]
    exact all_ofExpr h e hd
  | .list items _, hd => by
    rw [Demands.initializer] at hd
    rw [Node.ofInitializer]
    exact all_ofInitializers h items hd.2

theorem all_ofInitializers (h :
    ∀ e, D.node e → F.kind e.kind) : ∀ is, D.initializers is → F.All (Node.ofInitializers is)
  | [], _ => by
    rw [Node.ofInitializers]
    exact all_nil
  | i :: is, hd => by
    rw [Demands.initializers] at hd
    rw [Node.ofInitializers]
    exact all_append.mpr ⟨all_ofInitializer h i hd.1, all_ofInitializers h is hd.2⟩

end

theorem all_ofUnit (h :
    ∀ e, D.node e → F.kind e.kind) {u : CompilationUnit} (hd : D.unit u) : F.All (Node.ofUnit u) := by
  intro n hn
  obtain ⟨d, hmem, hn⟩ := List.mem_flatMap.mp hn
  cases d with
  | declaration d => exact all_ofDecl h d (hd _ hmem) n hn
  | function f =>
    obtain ⟨-, -, -, hbody⟩ := hd _ hmem
    refine all_function.mpr ?_ n hn
    cases hf : f.body with
    | none => exact all_nil
    | some b =>
      obtain ⟨items, span⟩ := b
      have hblock := hbody _ hf
      rw [Demands.block] at hblock
      exact all_ofItems h items hblock.2

end Demanded

end Typing

end MiniC
