import MiniC.Proofs.Typing.Names
/-!
The analysis of trees, one form at a time. Main statements: expressions and statements leave the
locals as they are, declarations add theirs, and what comes of each is scoped.
-/
namespace MiniC.Typing

open Code (Names)
open Syntax
open Check

mutual

theorem analyzes_expr (L : Locals) : ∀ e,
    Analyzes L L [] (expr e) fun N e' => Scoped.expr N L e'
  | ⟨kind, span, ty⟩ => by
    rw [expr]
    exact analyzes_exprKind L span ty kind

theorem analyzes_value (L : Locals) : ∀ e,
    Analyzes L L [] (value e) fun N e' => Scoped.expr N L e'
  | ⟨kind, span, ty⟩ => by
    rw [value]
    exact (analyzes_exprKind L span ty kind).bind
      (fun _ _ => .finish ((Quiet.lift _).bind fun _ => .decay _ _).checked fun _ _ _ h => h)
      fun _ e => .still e fun _ => ⟨_, rfl⟩

theorem analyzes_exprKind (L : Locals) (span : Span) (ty : Option TypeId) : ∀ k,
    Analyzes L L [] (exprKind span ty k) fun N e' => Scoped.expr N L e'
  | .integer n => by
    rw [exprKind]
    exact .typed (Quiet.pure _).checked fun N t _ => by rw [Scoped.expr, Scoped.exprKind]; trivial
  | .character b => by
    rw [exprKind]
    exact .typed (Quiet.pure _).checked fun N t _ => by rw [Scoped.expr, Scoped.exprKind]; trivial
  | .string text => by
    rw [exprKind]
    exact .typed (Quiet.intern _ _).checked fun N t _ => by rw [Scoped.expr, Scoped.exprKind]; trivial
  | .name name => by
    rw [exprKind]
    exact .typed (checked_nameType name span) fun N t h => by rw [Scoped.expr, Scoped.exprKind]; exact h
  | .binary op left right => by
    rw [exprKind]
    refine (analyzes_value L left).bind (fun l _ => (analyzes_value L right).bind (fun r _ =>
      .typed ((Quiet.lift _).bind fun _ => (Quiet.lift _).bind fun _ => .rule _).checked ?_)
      fun _ e => .still e fun _ => ⟨_, rfl⟩) fun _ e => .still e fun _ => ⟨_, rfl⟩
    intro N t _ hr hl
    rw [Scoped.expr, Scoped.exprKind]
    exact ⟨hl, hr⟩
  | .unary op operand => by
    rw [exprKind]
    refine (analyzes_value L operand).bind (fun o _ =>
      .typed ((Quiet.lift _).bind fun _ => .rule _).checked ?_) fun _ e => .still e fun _ => ⟨_, rfl⟩
    intro N t _ ho
    rw [Scoped.expr, Scoped.exprKind]
    exact ho
  | .assign op target source => by
    rw [exprKind]
    refine (analyzes_expr L target).bind (fun t _ =>
      .check ((Quiet.lift _).bind fun _ => quiet_checkTarget _ _).checked (fun _ =>
        (analyzes_value L source).bind (fun v _ =>
          .typed ((Quiet.lift _).bind fun _ => (Quiet.lift _).bind fun _ => (Quiet.lift _).bind fun _ =>
            quiet_checkAssignment _ _ _ _ _).checked ?_) fun _ e => .still e fun _ => ⟨_, rfl⟩)
        fun e => .still e fun _ => ⟨_, rfl⟩) fun _ e => .still e fun _ => ⟨_, rfl⟩
    intro N _ _ hv _ ht
    rw [Scoped.expr, Scoped.exprKind]
    exact ⟨ht, hv⟩
  | .conditional cond yes no => by
    rw [exprKind]
    refine (analyzes_condition L cond).bind (fun c _ => (analyzes_value L yes).bind (fun y _ =>
      (analyzes_value L no).bind (fun n _ => .typed ((Quiet.lift _).bind fun _ =>
        (Quiet.lift _).bind fun _ => (Quiet.lift _).bind fun _ => .rule _).checked ?_)
        fun _ e => .still e fun _ => ⟨_, rfl⟩) fun _ e => .still e fun _ => ⟨_, rfl⟩)
      fun _ e => .still e fun _ => ⟨_, rfl⟩
    intro N _ _ hn hy hc
    rw [Scoped.expr, Scoped.exprKind]
    exact ⟨hc, hy, hn⟩
  | .call callee args => by
    rw [exprKind]
    refine .check (checked_calledFunction callee args.length span) (fun f =>
      (analyzes_arguments L f.2.params args).bind (fun as _ =>
        .typed ((Quiet.lift _).bind fun _ => .pure _).checked ?_)
        fun _ e => .still e fun _ => ⟨_, rfl⟩) fun e => .still e fun _ => ⟨_, rfl⟩
    intro N _ _ has hfits
    rw [Scoped.expr, Scoped.exprKind, has.2]
    exact ⟨hfits, has.1⟩
  | .index array subscript => by
    rw [exprKind]
    refine (analyzes_expr L array).bind (fun a _ => (analyzes_value L subscript).bind (fun i _ =>
      .typed ((Quiet.lift _).bind fun _ => (Quiet.lift _).bind fun _ =>
        quiet_checkIndex _ _ _ _).checked ?_)
      fun _ e => .still e fun _ => ⟨_, rfl⟩) fun _ e => .still e fun _ => ⟨_, rfl⟩
    intro N _ _ hi ha
    rw [Scoped.expr, Scoped.exprKind]
    exact ⟨ha, hi⟩
  | .member object field old => by
    rw [exprKind]
    refine (analyzes_expr L object).bind (fun o _ =>
      .memberExpr ((Quiet.lift _).bind fun _ => .rule _) ?_) fun _ e => .still e fun _ => ⟨_, rfl⟩
    intro N _ ho
    rw [Scoped.expr, Scoped.exprKind]
    exact ho
  | .pointerMember pointer field old => by
    rw [exprKind]
    refine (analyzes_value L pointer).bind (fun p _ =>
      .memberExpr ((Quiet.lift _).bind fun _ => .rule _) ?_) fun _ e => .still e fun _ => ⟨_, rfl⟩
    intro N _ hp
    rw [Scoped.expr, Scoped.exprKind]
    exact hp
  | .cast target operand => by
    rw [exprKind]
    refine .check (quiet_resolveAt 1 target).checked (fun t => (analyzes_value L operand).bind
      (fun o _ => .typed ((Quiet.lift _).bind fun _ => (Quiet.lift _).bind fun _ => .rule _).checked ?_)
      fun _ e => .still e fun _ => ⟨_, rfl⟩) fun e => .still e fun _ => ⟨_, rfl⟩
    intro N _ _ ho _
    rw [Scoped.expr, Scoped.exprKind]
    exact ho
  | .query q operand => by
    rw [exprKind]
    exact (analyzes_expr L operand).bind (fun o _ =>
      .folded ((Quiet.lift _).bind fun _ => .rule _) fun N n t _ => by
        rw [Scoped.expr, Scoped.exprKind]; trivial) fun _ e => .still e fun _ => ⟨_, rfl⟩
  | .typeQuery q target => by
    rw [exprKind]
    exact .folded (quiet_queryType q target) fun N n t => by
      rw [Scoped.expr, Scoped.exprKind]; trivial
  | .addressOf operand => by
    rw [exprKind]
    refine (analyzes_expr L operand).bind (fun o _ =>
      .typed ((Quiet.lift _).bind fun _ => quiet_addressType _ _ _).checked ?_)
      fun _ e => .still e fun _ => ⟨_, rfl⟩
    intro N _ _ ho
    rw [Scoped.expr, Scoped.exprKind]
    exact ho
  | .deref operand => by
    rw [exprKind]
    refine (analyzes_value L operand).bind (fun o _ =>
      .typed ((Quiet.lift _).bind fun _ => .rule _).checked ?_) fun _ e => .still e fun _ => ⟨_, rfl⟩
    intro N _ _ ho
    rw [Scoped.expr, Scoped.exprKind]
    exact ho
  | .step operand decrement yieldsOld => by
    rw [exprKind]
    refine (analyzes_expr L operand).bind (fun o _ =>
      .typed ((Quiet.lift _).bind fun _ => quiet_checkStepped _ _ _).checked ?_)
      fun _ e => .still e fun _ => ⟨_, rfl⟩
    intro N _ _ ho
    rw [Scoped.expr, Scoped.exprKind]
    exact ho
  | .comma items => by
    rw [exprKind]
    refine (analyzes_values L Registry.void items).bind (fun es _ =>
      .typed (Quiet.lift _).checked ?_) fun _ e => .still e fun _ => ⟨_, rfl⟩
    intro N _ _ hes
    rw [Scoped.expr, Scoped.exprKind]
    exact hes
  | .block b => by
    rw [exprKind]
    obtain ⟨scope, hscope⟩ := BlockItem.localsAfter_cons [] L b.items
    have hb := analyzes_block [] L false b
    rw [hscope] at hb
    have hvalue : Analyzes ([] :: L) (scope :: L) [] (do
        let (b, done) ← block false b
        return (b, ← outcome (do
          done
          blockType b span))) fun N b' => Scoped.blockItems N ([] :: L) b'.items :=
      hb.bind (fun _ _ => .finish ((Quiet.lift _).bind fun _ => quiet_blockType _ _).checked
        fun _ _ _ h => h) fun _ e => .still e fun _ => ⟨_, rfl⟩
    refine hvalue.inScope.bind (fun b' _ => .typed (Quiet.lift _).checked ?_)
      fun _ e => .still e fun _ => ⟨_, rfl⟩
    intro N _ _ hb
    obtain ⟨items, blockSpan⟩ := b'
    rw [Scoped.expr, Scoped.exprKind]
    exact hb

theorem analyzes_condition (L : Locals) : ∀ e,
    Analyzes L L [] (condition e) fun N e' => Scoped.expr N L e'
  | ⟨kind, span, ty⟩ => by
    rw [condition]
    exact (analyzes_exprKind L span ty kind).bind
      (fun _ _ => .finish ((Quiet.lift _).bind fun _ => (Quiet.decay _ _).bind fun _ =>
        .rule _).checked fun _ _ _ h => h)
      fun _ e => .still e fun _ => ⟨_, rfl⟩

theorem analyzes_values (L : Locals) (last : TypeId) : ∀ es,
    Analyzes L L [] (values last es) fun N es' => Scoped.exprs N L es'
  | [] => by
    rw [values]
    exact .pure fun N => by rw [Scoped.exprs]; trivial
  | e :: es => by
    rw [values]
    refine (analyzes_value L e).bind (fun e' t => (analyzes_values L t es).bind (fun es' _ =>
      .pure fun N hes he => ?_) fun _ e => .still e fun _ => ⟨_, rfl⟩)
      fun _ e => .still e fun _ => ⟨_, rfl⟩
    rw [Scoped.exprs]
    exact ⟨he, hes⟩

theorem analyzes_arguments (L : Locals) (params : List TypeId) : ∀ es,
    Analyzes L L [] (arguments params es) fun N es' =>
      Scoped.exprs N L es' ∧ es'.length = es.length
  | [] => by
    rw [arguments]
    exact .pure fun N => by rw [Scoped.exprs]; exact ⟨trivial, rfl⟩
  | e :: es => by
    rw [arguments]
    refine (analyzes_value L e).bind (fun e' t =>
      .check ((Quiet.lift _).bind fun _ => quiet_checkArgument _ _ _).checked (fun _ =>
        (analyzes_arguments L params.tail es).bind (fun es' _ => .pure fun N hes _ he => ?_)
          fun _ e => .still e fun _ => ⟨_, rfl⟩) fun e => .still e fun _ => ⟨_, rfl⟩)
      fun _ e => .still e fun _ => ⟨_, rfl⟩
    rw [Scoped.exprs]
    exact ⟨⟨he, hes.1⟩, congrArg (· + 1) hes.2⟩

theorem analyzes_block (scope : List String) (L : Locals) (recover : Bool) : ∀ b,
    Analyzes (scope :: L) (BlockItem.localsAfter (scope :: L) b.items) [] (block recover b)
      fun N b' => Scoped.blockItems N (scope :: L) b'.items
  | ⟨items, span⟩ => by
    rw [block]
    exact (analyzes_blockItems scope L recover items).bind (fun _ _ => .pure fun N h => h)
      fun _ e => .still e fun _ => ⟨_, rfl⟩

theorem analyzes_blockItems (scope : List String) (L : Locals) (recover : Bool) : ∀ is,
    Analyzes (scope :: L) (BlockItem.localsAfter (scope :: L) is) [] (blockItems recover is)
      fun N is' => Scoped.blockItems N (scope :: L) is'
  | [] => by
    rw [blockItems]
    exact .pure fun N => by rw [Scoped.blockItems]; trivial
  | i :: is => by
    rw [blockItems]
    obtain ⟨scope', hscope⟩ := i.locals_cons scope L
    have hi := analyzes_blockItem scope L i
    have his := analyzes_blockItems scope' L recover is
    rw [← hscope] at his
    refine hi.bind (fun i' _ => his.bind (fun is' _ => .pure fun N his hi => ?_)
      fun _ e => .still e fun _ => ⟨_, rfl⟩) fun i' e => ?_
    · rw [Scoped.blockItems, hi.2]
      exact ⟨hi.1, his⟩
    · cases recover with
      | true => exact .recorded e fun s hs => his.errors s hs
      | false => exact .still e fun _ => ⟨_, rfl⟩

theorem analyzes_blockItem (scope : List String) (L : Locals) : ∀ i,
    Analyzes (scope :: L) (i.locals (scope :: L)) [] (blockItem i) fun N i' =>
      Scoped.blockItem N (scope :: L) i' ∧ i'.locals (scope :: L) = i.locals (scope :: L)
  | .statement s => by
    rw [blockItem]
    refine (analyzes_stmt (scope :: L) s).bind (fun s' _ => .pure fun N hs => ?_)
      fun _ e => .still e fun _ => ⟨_, rfl⟩
    rw [Scoped.blockItem]
    exact ⟨hs, rfl⟩
  | .declaration d => by
    rw [blockItem]
    refine (analyzes_declaration (scope :: L) d).bind (fun d' _ => .pure fun N hd => ?_)
      fun _ e => .still e fun _ => ⟨_, rfl⟩
    rw [Scoped.blockItem]
    exact ⟨hd.1, hd.2.1⟩

theorem analyzes_stmt (L : Locals) : ∀ s,
    Analyzes L L [] (stmt s) fun N s' => Scoped.stmt N L s'
  | ⟨kind, span⟩ => by
    rw [stmt]
    refine (analyzes_stmtKind L span kind).bind (fun k _ => .pure fun N hk => ?_)
      fun _ e => .still e fun _ => ⟨_, rfl⟩
    rw [Scoped.stmt]
    exact hk

theorem analyzes_stmtKind (L : Locals) (span : Span) : ∀ k,
    Analyzes L L [] (stmtKind span k) fun N k' => Scoped.stmtKind N L k'
  | .expr e => by
    rw [stmtKind]
    refine (analyzes_expr L e).bind (fun e' _ => .pure fun N he => ?_)
      fun _ e => .still e fun _ => ⟨_, rfl⟩
    rw [Scoped.stmtKind]
    exact he
  | .empty => by
    rw [stmtKind]
    exact .pure fun N => by rw [Scoped.stmtKind]; trivial
  | .block b => by
    rw [stmtKind]
    obtain ⟨scope, hscope⟩ := BlockItem.localsAfter_cons [] L b.items
    have hb := analyzes_block [] L true b
    rw [hscope] at hb
    refine hb.inScope.bind (fun b' _ => .pure fun N hb => ?_) fun _ e => .still e fun _ => ⟨_, rfl⟩
    obtain ⟨items, blockSpan⟩ := b'
    rw [Scoped.stmtKind]
    exact hb
  | .if_ cond yes no => by
    rw [stmtKind]
    refine (analyzes_condition L cond).bind (fun c _ => (analyzes_stmt L yes).bind (fun y _ =>
      (analyzes_stmt? L no).bind (fun n _ => .pure fun N hn hy hc => ?_)
        fun _ e => .still e fun _ => ⟨_, rfl⟩) fun _ e => .still e fun _ => ⟨_, rfl⟩)
      fun _ e => .still e fun _ => ⟨_, rfl⟩
    rw [Scoped.stmtKind]
    exact ⟨hc, hy, hn⟩
  | .loop kind init cond update body => by
    rw [stmtKind]
    obtain ⟨scope, hscope⟩ := LoopInit.locals_cons [] L init
    have hinit := analyzes_loopInit? [] L init
    rw [hscope] at hinit
    refine Analyzes.inScope (?_ : Analyzes ([] :: L) (scope :: L) [] _ _)
    refine hinit.bind (fun i _ => (analyzes_condition? (scope :: L) cond).bind (fun c _ =>
      (analyzes_expr? (scope :: L) update).bind (fun u _ =>
        (analyzes_stmt (scope :: L) body).inLoop.bind (fun b _ => .pure fun N hb hu hc hi => ?_)
          fun _ e => .still e fun _ => ⟨_, rfl⟩) fun _ e => .still e fun _ => ⟨_, rfl⟩)
        fun _ e => .still e fun _ => ⟨_, rfl⟩) fun _ e => .still e fun _ => ⟨_, rfl⟩
    rw [Scoped.stmtKind, hi.2]
    exact ⟨hi.1, hc, hu, hb⟩
  | .break_ => by
    rw [stmtKind]
    exact .finish (quiet_inLoopOr _ _).checked fun N _ _ => by rw [Scoped.stmtKind]; trivial
  | .continue_ => by
    rw [stmtKind]
    exact .finish (quiet_inLoopOr _ _).checked fun N _ _ => by rw [Scoped.stmtKind]; trivial
  | .return_ e => by
    rw [stmtKind]
    refine .get_bind fun s => ?_
    split
    · exact .fail (.still _ fun _ => ⟨_, rfl⟩)
    · refine (analyzes_returned? L e).bind (fun e' _ => .pure fun N he => ?_)
        fun _ e => .still e fun _ => ⟨_, rfl⟩
      rw [Scoped.stmtKind]
      exact he

theorem analyzes_stmt? (L : Locals) : ∀ s,
    Analyzes L L [] (stmt? s) fun N s' => Scoped.stmt? N L s'
  | none => by
    rw [stmt?]
    exact .pure fun N => by rw [Scoped.stmt?]; trivial
  | some s => by
    rw [stmt?]
    refine (analyzes_stmt L s).bind (fun s' _ => .pure fun N hs => ?_)
      fun _ e => .still e fun _ => ⟨_, rfl⟩
    rw [Scoped.stmt?]
    exact hs

theorem analyzes_expr? (L : Locals) : ∀ e,
    Analyzes L L [] (expr? e) fun N e' => Scoped.expr? N L e'
  | none => by
    rw [expr?]
    exact .pure fun N => by rw [Scoped.expr?]; trivial
  | some e => by
    rw [expr?]
    refine (analyzes_expr L e).bind (fun e' _ => .pure fun N he => ?_)
      fun _ e => .still e fun _ => ⟨_, rfl⟩
    rw [Scoped.expr?]
    exact he

theorem analyzes_condition? (L : Locals) : ∀ e,
    Analyzes L L [] (condition? e) fun N e' => Scoped.expr? N L e'
  | none => by
    rw [condition?]
    exact .pure fun N => by rw [Scoped.expr?]; trivial
  | some e => by
    rw [condition?]
    refine (analyzes_condition L e).bind (fun e' _ => .pure fun N he => ?_)
      fun _ e => .still e fun _ => ⟨_, rfl⟩
    rw [Scoped.expr?]
    exact he

theorem analyzes_returned? (L : Locals) : ∀ e,
    Analyzes L L [] (returned? e) fun N e' => Scoped.expr? N L e'
  | none => by
    rw [returned?]
    exact .pure fun N => by rw [Scoped.expr?]; trivial
  | some e => by
    rw [returned?]
    refine (analyzes_value L e).bind (fun e' _ =>
      .finish (quiet_checkReturn _ _).checked fun N _ _ he => ?_)
      fun _ e => .still e fun _ => ⟨_, rfl⟩
    rw [Scoped.expr?]
    exact he

theorem analyzes_loopInit? (scope : List String) (L : Locals) : ∀ i,
    Analyzes (scope :: L) (LoopInit.locals (scope :: L) i) [] (loopInit? i) fun N i' =>
      Scoped.loopInit N (scope :: L) i' ∧
        LoopInit.locals (scope :: L) i' = LoopInit.locals (scope :: L) i
  | none => by
    rw [loopInit?]
    exact .pure fun N => by rw [Scoped.loopInit]; exact ⟨trivial, rfl⟩
  | some (.expr e) => by
    have he : Analyzes (scope :: L) (scope :: L) [] (loopInit (.expr e)) fun N i' =>
        Scoped.loopInit N (scope :: L) (some i') ∧
          LoopInit.locals (scope :: L) (some i') = scope :: L := by
      rw [loopInit]
      refine (analyzes_expr (scope :: L) e).bind (fun e' _ => .pure fun N he => ?_)
        fun _ e => .still e fun _ => ⟨_, rfl⟩
      rw [Scoped.loopInit]
      exact ⟨he, rfl⟩
    rw [loopInit?]
    exact he.bind (fun i _ => .pure fun N hi => hi) fun _ e => .still e fun _ => ⟨_, rfl⟩
  | some (.declaration d) => by
    have hd : Analyzes (scope :: L) (d.locals (scope :: L)) [] (loopInit (.declaration d))
        fun N i' => Scoped.loopInit N (scope :: L) (some i') ∧
          LoopInit.locals (scope :: L) (some i') = d.locals (scope :: L) := by
      rw [loopInit]
      refine (analyzes_declaration (scope :: L) d).bind (fun d' _ => .pure fun N hd => ?_)
        fun _ e => .still e fun _ => ⟨_, rfl⟩
      rw [Scoped.loopInit]
      exact ⟨hd.1, hd.2.1⟩
    rw [loopInit?]
    exact hd.bind (fun i _ => .pure fun N hi => hi) fun _ e => .still e fun _ => ⟨_, rfl⟩

theorem analyzes_declaration (L : Locals) : ∀ d,
    Analyzes L (d.locals L) (L.fresh (d.kind.declared.map (·.name))) (declaration d) fun N d' =>
      Scoped.declaration N L d' ∧ d'.locals L = d.locals L ∧
        d'.kind.declared.map (·.name) = d.kind.declared.map (·.name)
  | ⟨.vars vars, span⟩ => by
    have hvars : Analyzes L (L.declareAll vars) (L.fresh (vars.map (·.name))) (declKind (.vars vars))
        fun N k => ∃ vars', k = .vars vars' ∧ Scoped.varDecls N L vars' ∧
          vars'.map (·.name) = vars.map (·.name) := by
      rw [declKind]
      exact (analyzes_varDecls L vars).bind_last (fun vars' _ => .pure fun N h => ⟨vars', rfl, h⟩)
        fun _ e => .still e fun _ => ⟨_, rfl⟩
    rw [declaration]
    refine hvars.bind_last (fun k _ => .pure fun N h => ?_) fun _ e => .still e fun _ => ⟨_, rfl⟩
    obtain ⟨vars', rfl, hscoped, hnames⟩ := h
    rw [Scoped.declaration]
    exact ⟨hscoped, Locals.declareAll_congr L hnames, hnames⟩
  | ⟨.struct spec, span⟩ => by
    have hstruct : Analyzes L L [] (declKind (.struct spec)) fun _ k => k = .struct spec := by
      rw [declKind]
      exact .finish (quiet_checkStructDecl spec).checked fun _ _ _ => rfl
    rw [declaration]
    show Analyzes L L (L.fresh []) _ _
    rw [L.fresh_nil]
    refine hstruct.bind (fun k _ => .pure fun N hk => ?_) fun _ e => .still e fun _ => ⟨_, rfl⟩
    subst hk
    rw [Scoped.declaration]
    exact ⟨trivial, rfl, rfl⟩

theorem analyzes_varDecls (L : Locals) : ∀ vs,
    Analyzes L (L.declareAll vs) (L.fresh (vs.map (·.name))) (varDecls vs) fun N vs' =>
      Scoped.varDecls N L vs' ∧ vs'.map (·.name) = vs.map (·.name)
  | [] => by
    rw [varDecls]
    show Analyzes L L (L.fresh []) _ _
    rw [L.fresh_nil]
    exact .pure fun N => by rw [Scoped.varDecls]; exact ⟨trivial, rfl⟩
  | v :: vs => by
    rw [varDecls, List.map_cons, ← L.fresh_append v.name]
    refine (analyzes_varDecl L v).bind_new (fun v' _ => (analyzes_varDecls (L.declare v.name)
      vs).bind_last (fun vs' _ => .pure fun N hvs hv => ?_) fun _ e => .still e fun _ => ⟨_, rfl⟩)
      fun _ e => .still e fun _ => ⟨_, rfl⟩
    rw [Scoped.varDecls, hv.2]
    exact ⟨⟨hv.1, hvs.1⟩, by rw [List.map_cons, hv.2, hvs.2]⟩

theorem analyzes_varDecl (L : Locals) : ∀ v,
    Analyzes L (L.declare v.name) (L.fresh [v.name]) (varDecl v) fun N v' =>
      Scoped.varDecl N L v' ∧ v'.name = v.name
  | ⟨name, ty, init, span, resolved⟩ => by
    rw [varDecl]
    refine .check (quiet_checkVariable _).checked (fun t => .get_bind fun s => ?_)
      fun e => .still e fun _ => ⟨_, rfl⟩
    have hsym : Symbol.IsObject ⟨name, .variable s.scope.isGlobal, t, span⟩ := trivial
    refine .defines (moves_define hsym) (fun _ => (analyzes_initializer? (L.declare name) t
      s.scope.isGlobal init).bind (fun i _ => .pure fun N hi _ => ?_)
      fun _ e => .still e fun _ => ⟨_, rfl⟩) fun e => .still e fun _ => ⟨_, rfl⟩
    rw [Scoped.varDecl]
    exact ⟨hi, rfl⟩

theorem analyzes_initializer? (L : Locals) (t : TypeId) (isGlobal : Bool) : ∀ i,
    Analyzes L L [] (initializer? t isGlobal i) fun N i' => Scoped.initializer? N L i'
  | none => by
    rw [initializer?]
    exact .pure fun N => by rw [Scoped.initializer?]; trivial
  | some i => by
    rw [initializer?]
    refine (analyzes_initializer L t isGlobal i).bind (fun i' _ => .pure fun N hi => ?_)
      fun _ e => .still e fun _ => ⟨_, rfl⟩
    rw [Scoped.initializer?]
    exact hi

theorem analyzes_initializer (L : Locals) (t : TypeId) (isGlobal : Bool) : ∀ i,
    Analyzes L L [] (initializer t isGlobal i) fun N i' => Scoped.initializer N L i'
  | .expr e => by
    rw [initializer]
    refine (analyzes_initialValue L t isGlobal e).bind (fun e' _ => .pure fun N he => ?_)
      fun _ e => .still e fun _ => ⟨_, rfl⟩
    rw [Scoped.initializer]
    exact he
  | .list items span => by
    rw [initializer]
    refine .get_bind fun s => ?_
    have hlist {x : Analysis (List Initializer × Verdict Unit)}
        (hx : Analyzes L L [] x fun N is => Scoped.initializers N L is) :
        Analyzes L L [] (do let (items, done) ← x; return (Initializer.list items span, done))
          fun N i' => Scoped.initializer N L i' := by
      refine hx.bind (fun is _ => .pure fun N his => ?_) fun _ e => .still e fun _ => ⟨_, rfl⟩
      rw [Scoped.initializer]
      exact his
    split
    · exact .check (quiet_checkExcess _ _ _).checked
        (fun _ => (hlist (analyzes_elementInits L _ isGlobal items)).mono fun _ _ h _ => h)
        fun e => .still e fun _ => ⟨_, rfl⟩
    · rename_i types _
      by_cases hlength : items.length ≤ types.length
      · exact .check (quiet_checkExcess _ _ _).checked
          (fun _ => (hlist (analyzes_memberInits L isGlobal items hlength)).mono fun _ _ h _ => h)
          fun e => .still e fun _ => ⟨_, rfl⟩
      · have hextra : items[types.length]? = some items[types.length] :=
          List.getElem?_eq_getElem (by omega)
        simp only [checkExcess, hextra]
        exact .fail (.still _ fun _ => ⟨_, rfl⟩)
    · exact hlist (analyzes_scalarInit L t isGlobal span items)

theorem analyzes_initialValue (L : Locals) (t : TypeId) (isGlobal : Bool) : ∀ e,
    Analyzes L L [] (initialValue t isGlobal e) fun N e' => Scoped.expr N L e'
  | ⟨kind, span, ty⟩ => by
    rw [initialValue]
    refine .get_bind fun s => ?_
    have he := analyzes_exprKind L span ty kind
    split
    · refine .check (quiet_checkStringInit _ _ _ _).checked (fun _ =>
        he.bind (fun e' _ => .pure fun N h _ => h) fun _ e => .still e fun _ => ⟨_, rfl⟩)
        fun e => .still e fun _ => ⟨_, rfl⟩
    · exact .fail (.still _ fun _ => ⟨_, rfl⟩)
    · exact he.bind (fun e' _ => .finish ((Quiet.lift _).bind fun _ => (Quiet.decay _ _).bind fun _ =>
        (Quiet.rule _).bind fun _ => quiet_checkConstantInit _ _).checked fun _ _ _ h => h)
        fun _ e => .still e fun _ => ⟨_, rfl⟩

theorem analyzes_elementInits (L : Locals) (element : TypeId) (isGlobal : Bool) : ∀ is,
    Analyzes L L [] (elementInits element isGlobal is) fun N is' => Scoped.initializers N L is'
  | [] => by
    rw [elementInits]
    exact .pure fun N => by rw [Scoped.initializers]; trivial
  | i :: is => by
    rw [elementInits]
    refine (analyzes_initializer L element isGlobal i).bind (fun i' _ =>
      (analyzes_elementInits L element isGlobal is).bind (fun is' _ => .pure fun N his hi => ?_)
        fun _ e => .still e fun _ => ⟨_, rfl⟩) fun _ e => .still e fun _ => ⟨_, rfl⟩
    rw [Scoped.initializers]
    exact ⟨hi, his⟩

theorem analyzes_memberInits (L : Locals) (isGlobal : Bool) {types : List TypeId} : ∀ is,
    is.length ≤ types.length →
    Analyzes L L [] (memberInits types isGlobal is) fun N is' => Scoped.initializers N L is'
  | [], _ => by
    rw [memberInits]
    exact .pure fun N => by rw [Scoped.initializers]; trivial
  | i :: is, hlength => by
    cases types with
    | nil => cases hlength
    | cons t ts =>
      rw [memberInits]
      refine (analyzes_initializer L t isGlobal i).bind (fun i' _ =>
        (analyzes_memberInits L isGlobal is (Nat.le_of_succ_le_succ hlength)).bind
          (fun is' _ => .pure fun N his hi => ?_)
          fun _ e => .still e fun _ => ⟨_, rfl⟩) fun _ e => .still e fun _ => ⟨_, rfl⟩
      rw [Scoped.initializers]
      exact ⟨hi, his⟩

theorem analyzes_scalarInit (L : Locals) (t : TypeId) (isGlobal : Bool) (span : Span) : ∀ is,
    Analyzes L L [] (scalarInit t isGlobal span is) fun N is' => Scoped.initializers N L is'
  | [.expr e] => by
    rw [scalarInit]
    refine (analyzes_initialValue L t isGlobal e).bind (fun e' _ => .pure fun N he => ?_)
      fun _ e => .still e fun _ => ⟨_, rfl⟩
    rw [Scoped.initializers, Scoped.initializers, Scoped.initializer]
    exact ⟨he, trivial⟩
  | [] => by rw [scalarInit]; exact .fail (.still _ fun _ => ⟨_, rfl⟩); nofun
  | [.list items span'] => by rw [scalarInit]; exact .fail (.still _ fun _ => ⟨_, rfl⟩); nofun
  | i :: j :: is => by rw [scalarInit]; exact .fail (.still _ fun _ => ⟨_, rfl⟩); nofun

end

end MiniC.Typing
