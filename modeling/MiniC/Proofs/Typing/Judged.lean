import MiniC.Proofs.Typing.Acceptance
import MiniC.Proofs.Typing.Trees
/-!
What comes of the analysis of a tree, one form at a time. Main statements: an accepted expression has
the type that is found for it, and an accepted statement or declaration makes sense where it stands.
-/
namespace MiniC.Typing

open Syntax Check
open Registry (Grows)

/-- The type of an expression, and of an object in case it stands for one. -/
structure Judged (C : Site) (E : Env) (e : Expr) (t : TypeId) : Prop where
  hasType : HasType E C e t
  valid : E.registry.Valid t
  object : isLvalue e = true → E.registry.isVoid t = false

structure Valued (C : Site) (E : Env) (e : Expr) (t : TypeId) : Prop where
  hasValue : HasValue E C e t
  valid : E.registry.Valid t

section

variable {C : Site} {E : Env} {K : Env → Prop} {t : TypeId}

theorem Judged.rvalue {e : Expr} (h : HasType E C e t) (ht : E.registry.Valid t)
    (he : isLvalue e = false) : Judged C E e t :=
  ⟨h, ht, fun hl => by rw [he] at hl; cases hl⟩

/-- The value of a block expression has a type of the registry. -/
theorem IsItems.valid_trailing {b : Block} (h : IsItems E C b.items)
    (ht : b.trailing?.bind (·.ty) = some t) : E.registry.Valid t := by
  obtain ⟨is, span⟩ := b
  replace h : IsItems E C is := h
  induction is generalizing C with
  | nil => cases ht
  | cons i is ih =>
    cases is with
    | cons j js =>
      have hrest : (Block.trailing? ⟨j :: js, span⟩).bind (·.ty) = some t := by
        simpa only [Block.trailing?, List.getLast?_cons_cons] using ht
      cases h with
      | statement _ his => exact ih hrest his
      | declaration _ his => exact ih hrest his
    | nil =>
      cases h with
      | declaration => cases ht
      | statement hs =>
        cases hs with
        | expr he hvalid =>
          have hty : some _ = some t := he.ty_eq.symm.trans ht
          cases hty
          exact hvalid
        | _ => cases ht

/-- What initializes an array implies the same length after its analysis. -/
def KeepsLength (E : Env) (t : TypeId) (i i' : Option Initializer) : Prop :=
  E.registry.isArray t = true → impliedLength? i' = impliedLength? i

/-- A text stands for an array of its bytes and a NUL. -/
theorem accepts_text (C : Site) (K : Env → Prop) (span : Span) (ty : Option TypeId) (text : String) :
    Accepts C K (exprKind span ty (.string text)) (fun _ => C) fun E e t =>
      e = ⟨.string text, span, some t⟩ ∧ Judged C E e t := by
  rw [exprKind]
  refine .typed (checks_arrayOf fun E hE _ => ?_) fun E t _ _ hty => ⟨rfl, ?_⟩
  · have hchar : E.registry.isInteger Registry.cChar = true := isInteger_int hE.consistent (by decide)
    exact ⟨Registry.valid_of_isInteger hchar, Registry.isVoid_of_isInteger hchar⟩
  · exact .rvalue (.string hty) (Registry.valid_of_ty (by simp [hty])) rfl

end

mutual

theorem accepts_expr (C : Site) (K : Env → Prop) : ∀ e,
    Accepts C K (expr e) (fun _ => C) (Judged C)
  | ⟨kind, span, ty⟩ => by
    rw [expr]
    exact accepts_exprKind C K span ty kind

theorem accepts_value (C : Site) (K : Env → Prop) : ∀ e,
    Accepts C K (value e) (fun _ => C) (Valued C)
  | ⟨kind, span, ty⟩ => by
    rw [value]
    exact (accepts_exprKind C K span ty kind).bind
      (fun e t => .finish rfl (.lift_ok (checks_decay fun E _ hE => hE.2.valid))
        fun E t' _ hE ht => ⟨.decays hE.2.hasType ht.1, ht.2⟩)
      fun _ e => .still e fun _ => ⟨_, rfl⟩

theorem accepts_exprKind (C : Site) (K : Env → Prop) (span : Span) (ty : Option TypeId) : ∀ k,
    Accepts C K (exprKind span ty k) (fun _ => C) (Judged C)
  | .integer n => by
    rw [exprKind]
    exact .typed (Q := fun E t => E.registry.isInteger t = true ∧ t = integerType n)
      (.pure fun E hE _ => ⟨isInteger_integerType hE.consistent n, rfl⟩)
      fun E t _ _ ht => .rvalue (.integer ht.1 (.inl ht.2)) (Registry.valid_of_isInteger ht.1) rfl
  | .character b => by
    rw [exprKind]
    refine .typed (Q := fun E t => t = Registry.cInt ∧ E.registry.Valid t)
      (.pure fun E hE _ => ⟨rfl, hE.consistent.valid_int (by decide)⟩) ?_
    rintro E t _ _ ⟨rfl, ht⟩
    exact .rvalue .character ht rfl
  | .string text => (accepts_text C K span ty text).mono fun _ _ _ _ _ h => h.2
  | .name name => by
    rw [exprKind]
    exact .typed (checks_nameType name span) fun E t _ _ h => ⟨h.1, h.2.1, fun _ => h.2.2⟩
  | .binary op left right => by
    rw [exprKind]
    refine (accepts_value C K left).bind (fun left l => (accepts_value C _ right).bind
      (fun right r => .typed (Q := fun E t => binaryType E.registry op l r span = .ok t)
        (.lift_ok (.lift_ok (.rule fun E₀ E t hE₀ hK₀ hok hE _ => ?_))) fun E t hE hK ht => ?_)
      fun _ e => .still e fun _ => ⟨_, rfl⟩) fun _ e => .still e fun _ => ⟨_, rfl⟩
    · exact (binaryType_later hE.registry hE₀.consistent op hK₀.1.2.valid hK₀.2.valid span).ok hok
    · exact .rvalue (.binary hK.1.2.hasValue hK.2.hasValue ht)
        (Registry.valid_of_isScalar (isScalar_binaryType hE.consistent ht)) rfl
  | .unary op operand => by
    rw [exprKind]
    refine (accepts_value C K operand).bind (fun operand o =>
      .typed (Q := fun E t => unaryType E.registry op o operand.span span = .ok t)
        (.lift_ok (.rule fun E₀ E t hE₀ hK₀ hok hE _ => ?_)) fun E t hE hK ht => ?_)
      fun _ e => .still e fun _ => ⟨_, rfl⟩
    · exact (unaryType_later hE.registry op hK₀.2.valid operand.span span).ok hok
    · exact .rvalue (.unary hK.2.hasValue ht)
        (Registry.valid_of_isInteger (isInteger_unaryType hE.consistent ht)) rfl
  | .assign op target source => by
    rw [exprKind]
    refine (accepts_expr C K target).bind (fun target t =>
      .check (.lift_ok (checks_checkTarget (fun E _ hE => hE.2.valid) fun E _ hE => hE.2.object))
        (fun _ => (accepts_value C _ source).bind (fun source v =>
          .typed (.lift_ok (.lift_ok (.lift_ok (checks_checkAssignment
            (fun E _ hE => hE.1.1.2.valid) fun E _ hE => hE.2.valid)))) ?_)
          fun _ e => .still e fun _ => ⟨_, rfl⟩)
        fun e => .still e fun _ => ⟨_, rfl⟩) fun _ e => .still e fun _ => ⟨_, rfl⟩
    rintro E _ _ ⟨⟨⟨-, ht⟩, hlvalue, hmovable⟩, hv⟩ ⟨rfl, hassigns⟩
    exact .rvalue (.assign ht.hasType hlvalue hmovable hv.hasValue hassigns) ht.valid rfl
  | .conditional cond yes no => by
    rw [exprKind]
    refine (accepts_condition C K cond).bind (fun cond _ => (accepts_value C _ yes).bind
      (fun yes y => (accepts_value C _ no).bind (fun no n =>
        .typed (Q := fun E t => conditionalType E.registry y n yes no span = .ok t)
          (.lift_ok (.lift_ok (.lift_ok (.rule fun E₀ E t hE₀ hK₀ hok hE _ => ?_))))
          fun E t hE hK ht => ?_)
        fun _ e => .still e fun _ => ⟨_, rfl⟩) fun _ e => .still e fun _ => ⟨_, rfl⟩)
      fun _ e => .still e fun _ => ⟨_, rfl⟩
    · exact (conditionalType_later hE.registry hE₀.consistent yes no hK₀.1.2.valid hK₀.2.valid
        span).ok hok
    · obtain ⟨c, hc, hscalar⟩ := hK.1.1.2
      exact .rvalue (.conditional hc hscalar hK.1.2.hasValue hK.2.hasValue ht)
        (valid_conditionalType hE.consistent hK.1.2.valid hK.2.valid ht) rfl
  | .call callee args => by
    rw [exprKind]
    refine .check ((checks_calledFunction callee).bind fun f =>
      (checks_checkArgumentCount f.2 args.length span).bind fun _ =>
        Checks.pure (Q := fun E g => Calls C callee E g ∧ g.2.Takes args.length)
          fun E _ hE => ⟨hE.1.2, hE.2⟩) (fun f =>
      (accepts_arguments C _ f.2.params args (fun E _ hE => hE.2.1.params)).bind (fun args _ =>
        .typed (Q := fun E t => t = f.1) (.lift_ok (.pure fun _ _ _ => rfl)) ?_)
        fun _ e => .still e fun _ => ⟨_, rfl⟩) fun e => .still e fun _ => ⟨_, rfl⟩
    rintro E _ _ ⟨⟨-, ⟨⟨sym, hsym, hname, hlocal, hkind, hty⟩, hvalid, -⟩, htakes⟩, hargs, hlength⟩ rfl
    rw [← hty] at hvalid ⊢
    exact .rvalue (.call hname hlocal hsym rfl hkind (hlength ▸ htakes) hargs) hvalid rfl
  | .index array subscript => by
    rw [exprKind]
    refine (accepts_expr C K array).bind (fun array a => (accepts_value C _ subscript).bind
      (fun subscript i => .typed (.lift_ok (.lift_ok (checks_checkIndex
        (fun E _ hE => hE.1.2.valid) fun E _ hE => hE.2.valid))) fun E t hE hK ht => ?_)
      fun _ e => .still e fun _ => ⟨_, rfl⟩) fun _ e => .still e fun _ => ⟨_, rfl⟩
    obtain ⟨hvalid, hvoid⟩ := valid_elementType hE.consistent ht.2
    exact ⟨.index hK.1.2.hasType hK.2.hasValue ht.1 ht.2, hvalid, fun _ => hvoid⟩
  | .member object field old => by
    rw [exprKind]
    refine (accepts_expr C K object).bind (fun object o =>
      .memberExpr (.lift_ok checks_memberOf) fun E m hE hK hm => ?_)
      fun _ e => .still e fun _ => ⟨_, rfl⟩
    exact ⟨.member hK.2.hasType hm, (hE.member hm).1, fun _ => (hE.member hm).2⟩
  | .pointerMember pointer field old => by
    rw [exprKind]
    refine (accepts_value C K pointer).bind (fun pointer p =>
      .memberExpr (.lift_ok (checks_pointerMemberOf fun E _ hE => hE.2.valid)) fun E m hE hK hm => ?_)
      fun _ e => .still e fun _ => ⟨_, rfl⟩
    obtain ⟨target, htarget, hm⟩ := hm
    exact ⟨.pointerMember hK.2.hasValue htarget hm, (hE.member hm).1, fun _ => (hE.member hm).2⟩
  | .cast target operand => by
    rw [exprKind]
    refine .check (checks_resolveAt K 1 target) (fun t => (accepts_value C _ operand).bind
      (fun operand o => .typed
        (Q := fun E u => u = t ∧ checkCast E.registry t o operand.span span = .ok t)
        (.lift_ok (.lift_ok (.rule fun E₀ E u hE₀ hK₀ hok hE _ => ?_))) ?_)
      fun _ e => .still e fun _ => ⟨_, rfl⟩) fun e => .still e fun _ => ⟨_, rfl⟩
    · obtain rfl := checkCast_eq_ok hok
      exact ⟨rfl, (checkCast_later hE.registry hK₀.1.2.1 hK₀.2.valid operand.span span).ok hok⟩
    · rintro E _ _ ⟨⟨-, ht⟩, ho⟩ ⟨rfl, hok⟩
      exact .rvalue (.cast ho.hasValue hok) ht.1 rfl
  | .query q operand => by
    rw [exprKind]
    exact (accepts_expr C K operand).bind (fun operand o =>
      .folded (Q := fun _ _ => True) (.lift_ok (.rule fun _ _ _ _ _ _ _ _ => trivial))
        fun E n t _ ht hsize => .rvalue (.integer ht (.inr hsize)) (Registry.valid_of_isInteger ht) rfl)
      fun _ e => .still e fun _ => ⟨_, rfl⟩
  | .typeQuery q target => by
    rw [exprKind]
    exact .folded (checks_queryType q target) fun E n t _ ht hsize =>
      .rvalue (.integer ht (.inr hsize)) (Registry.valid_of_isInteger ht) rfl
  | .addressOf operand => by
    rw [exprKind]
    refine (accepts_expr C K operand).bind (fun operand o =>
      .typed (.lift_ok (checks_addressType fun E _ hE => hE.2.valid)) fun E t _ hK ht => ?_)
      fun _ e => .still e fun _ => ⟨_, rfl⟩
    exact .rvalue (.addressOf hK.2.hasType ht.1 ht.2) (Registry.valid_of_ty (by simp [ht.2])) rfl
  | .deref operand => by
    rw [exprKind]
    refine (accepts_value C K operand).bind (fun operand o =>
      .typed (Q := fun E t => derefType E.registry o span = .ok t)
        (.lift_ok (.rule fun E₀ E t hE₀ hK₀ hok hE _ => ?_)) fun E t hE hK ht => ?_)
      fun _ e => .still e fun _ => ⟨_, rfl⟩
    · exact (derefType_later hE.registry hE₀.consistent hK₀.2.valid span).ok hok
    · obtain ⟨hvalid, hvoid⟩ := valid_derefType hE.consistent ht
      exact ⟨.deref hK.2.hasValue ht, hvalid, fun _ => hvoid⟩
  | .step operand decrement yieldsOld => by
    rw [exprKind]
    refine (accepts_expr C K operand).bind (fun operand o =>
      .typed (.lift_ok (checks_checkStepped fun E _ hE => hE.2.valid)) ?_)
      fun _ e => .still e fun _ => ⟨_, rfl⟩
    rintro E _ _ ⟨-, ho⟩ ⟨rfl, hlvalue, hscalar, hstep⟩
    exact .rvalue (.step ho.hasType hlvalue hscalar hstep) ho.valid rfl
  | .comma items => by
    rw [exprKind]
    refine (accepts_values C K Registry.void items fun E hE _ => hE.consistent.valid_void).bind
      (fun items last => .typed (Q := fun _ t => t = last) (.lift_ok (.pure fun _ _ _ => rfl)) ?_)
      fun _ e => .still e fun _ => ⟨_, rfl⟩
    rintro E _ _ ⟨-, hlast, hvalid⟩ rfl
    exact .rvalue (.comma hlast) hvalid rfl
  | .block b => by
    rw [exprKind]
    have hvalue : Accepts C.inner K (do
        let (b, done) ← block false b
        return (b, ← outcome (do
          done
          blockType b span))) (fun b => C.inner.afterItems b.items) fun E b t =>
            (IsItems E C.inner b.items ∧ Yields E b t) ∧ E.registry.Valid t :=
      (accepts_block C.inner K false b).bind (fun b _ =>
        .finish rfl (.lift_ok (checks_blockType fun E _ hE t ht => hE.2.valid_trailing ht))
          fun E t _ hE ht => ⟨⟨hE.2, ht.1⟩, ht.2⟩) fun _ e => .still e fun _ => ⟨_, rfl⟩
    refine (hvalue.inScope fun b => (C.encloses_inner).afterItems b.items).bind
      (fun b t => .typed (Q := fun _ u => u = t) (.lift_ok (.pure fun _ _ _ => rfl)) ?_)
      fun _ e => .still e fun _ => ⟨_, rfl⟩
    rintro E _ _ ⟨-, ⟨hitems, hyields⟩, hvalid⟩ rfl
    exact .rvalue (.block hitems hyields) hvalid rfl

theorem accepts_condition (C : Site) (K : Env → Prop) : ∀ e,
    Accepts C K (condition e) (fun _ => C) fun E e _ =>
      ∃ t, HasValue E C e t ∧ E.registry.isScalar t = true
  | ⟨kind, span, ty⟩ => by
    rw [condition]
    have hscalar {E₀ E : Env} {t : TypeId} (ht : E₀.registry.Valid t) (hE : Later E₀ E)
        (hok : checkCondition E₀.registry t span = .ok ()) : E.registry.isScalar t = true := by
      rw [hE.registry.isScalar_eq ht]
      unfold checkCondition at hok
      split at hok
      · assumption
      · cases hok
    exact (accepts_exprKind C K span ty kind).bind (fun e t => .finish rfl
      (.lift_ok ((checks_decay fun E _ hE => hE.2.valid).bind fun t' =>
        Checks.rule (Q := fun E _ => ∃ u, E.registry.Decays t u ∧ E.registry.isScalar u = true)
          fun E₀ E _ _ hK₀ hok hE hK => ⟨t', hK.2.1, hscalar hK₀.2.2 hE hok⟩))
      fun E _ _ hE ⟨u, hu, hscalar⟩ => ⟨u, .decays hE.2.hasType hu, hscalar⟩)
      fun _ e => .still e fun _ => ⟨_, rfl⟩

theorem accepts_values (C : Site) (K : Env → Prop) (last : TypeId) : ∀ es,
    (∀ E, E.Sound → K E → E.registry.Valid last) →
    Accepts C K (values last es) (fun _ => C) fun E es t =>
      LastValue E C last es t ∧ E.registry.Valid t
  | [], hlast => by
    rw [values]
    exact .pure rfl fun E hE hK => ⟨.nil, hlast E hE hK⟩
  | e :: es, hlast => by
    rw [values]
    refine (accepts_value C K e).bind (fun e t =>
      (accepts_values C _ t es fun E _ hE => hE.2.valid).bind (fun es u =>
        .pure rfl fun E _ hE => ⟨.cons hE.1.2.hasValue hE.2.1, hE.2.2⟩)
        fun _ e => .still e fun _ => ⟨_, rfl⟩) fun _ e => .still e fun _ => ⟨_, rfl⟩

theorem accepts_arguments (C : Site) (K : Env → Prop) (params : List TypeId) : ∀ es,
    (∀ E, E.Sound → K E → ∀ p ∈ params, E.registry.Valid p) →
    Accepts C K (arguments params es) (fun _ => C) fun E es' _ =>
      Arguments E C params es' ∧ es'.length = es.length
  | [], _ => by
    rw [arguments]
    exact .pure rfl fun E _ _ => ⟨.nil, rfl⟩
  | e :: es, hparams => by
    rw [arguments]
    refine (accepts_value C K e).bind (fun e t =>
      .check (.lift_ok (checks_checkArgument (fun E _ hE => hE.2.valid) fun E hE hK p hp =>
        hparams E hE hK.1 p (List.mem_of_mem_head? hp))) (fun _ =>
        (accepts_arguments C _ params.tail es fun E hE hK p hp =>
          hparams E hE hK.1.1 p (List.mem_of_mem_tail hp)).bind (fun es _ =>
            .pure rfl fun E _ hE => ⟨.cons hE.1.1.2.hasValue hE.1.2 hE.2.1, ?_⟩)
          fun _ e => .still e fun _ => ⟨_, rfl⟩) fun e => .still e fun _ => ⟨_, rfl⟩)
      fun _ e => .still e fun _ => ⟨_, rfl⟩
    exact congrArg (· + 1) hE.2.2

theorem accepts_block (C : Site) (K : Env → Prop) (recover : Bool) : ∀ b,
    Accepts C K (block recover b) (fun b => C.afterItems b.items) fun E b _ => IsItems E C b.items
  | ⟨items, span⟩ => by
    rw [block]
    exact (accepts_blockItems C K recover items).bind (fun is _ => .pure rfl fun E _ hE => hE.2)
      fun _ e => .still e fun _ => ⟨_, rfl⟩

theorem accepts_blockItems (C : Site) (K : Env → Prop) (recover : Bool) : ∀ is,
    Accepts C K (blockItems recover is) C.afterItems fun E is _ => IsItems E C is
  | [] => by
    rw [blockItems]
    exact .pure rfl fun E _ _ => .nil
  | i :: is => by
    rw [blockItems]
    refine (accepts_blockItem C K i).bind (fun i _ =>
      (accepts_blockItems (C.afterItem i) _ recover is).bind
        (fun is _ => .pure rfl fun E _ hE => hE.1.2 is hE.2)
        fun _ e => .still e fun _ => ⟨_, rfl⟩) fun i' e => ?_
    cases recover with
    | true => exact .recorded e fun s hs => (analyzes_blockItems [] [] true is).errors s hs
    | false => exact .still e fun _ => ⟨_, rfl⟩

theorem accepts_blockItem (C : Site) (K : Env → Prop) : ∀ i,
    Accepts C K (blockItem i) C.afterItem fun E i _ =>
      ∀ is, IsItems E (C.afterItem i) is → IsItems E C (i :: is)
  | .statement s => by
    rw [blockItem]
    exact (accepts_stmt C K s).bind (fun s _ => .pure rfl fun E _ hE is his => .statement hE.2 his)
      fun _ e => .still e fun _ => ⟨_, rfl⟩
  | .declaration d => by
    rw [blockItem]
    exact (accepts_declaration C K d).bind
      (fun d _ => .pure rfl fun E _ hE is his => .declaration hE.2 his)
      fun _ e => .still e fun _ => ⟨_, rfl⟩

theorem accepts_stmt (C : Site) (K : Env → Prop) : ∀ s,
    Accepts C K (stmt s) (fun _ => C) fun E s _ => IsStmt E C s
  | ⟨kind, span⟩ => by
    rw [stmt]
    exact (accepts_stmtKind C K span kind).bind (fun k _ => .pure rfl fun E _ hE => hE.2 span)
      fun _ e => .still e fun _ => ⟨_, rfl⟩

theorem accepts_stmtKind (C : Site) (K : Env → Prop) (span : Span) : ∀ k,
    Accepts C K (stmtKind span k) (fun _ => C) fun E k _ => ∀ span, IsStmt E C ⟨k, span⟩
  | .expr e => by
    rw [stmtKind]
    exact (accepts_expr C K e).bind
      (fun e t => .pure rfl fun E _ hE _ => .expr hE.2.hasType hE.2.valid)
      fun _ e => .still e fun _ => ⟨_, rfl⟩
  | .empty => by
    rw [stmtKind]
    exact .pure rfl fun E _ _ _ => .empty
  | .block b => by
    rw [stmtKind]
    exact ((accepts_block C.inner K true b).inScope fun b =>
      (C.encloses_inner).afterItems b.items).bind (fun b _ => .pure rfl fun E _ hE _ => .block hE.2)
      fun _ e => .still e fun _ => ⟨_, rfl⟩
  | .if_ cond yes no => by
    rw [stmtKind]
    refine (accepts_condition C K cond).bind (fun cond _ => (accepts_stmt C _ yes).bind (fun yes _ =>
      (accepts_stmt? C _ no).bind (fun no _ => .pure rfl fun E _ hE _ => ?_)
        fun _ e => .still e fun _ => ⟨_, rfl⟩) fun _ e => .still e fun _ => ⟨_, rfl⟩)
      fun _ e => .still e fun _ => ⟨_, rfl⟩
    obtain ⟨t, ht, hscalar⟩ := hE.1.1.2
    exact .if_ (.some ht hscalar) hE.1.2 hE.2
  | .loop kind init cond update body => by
    rw [stmtKind]
    have hbody : Accepts C.inner K (do
        let (init, i) ← loopInit? init
        let (cond, c) ← andThen i cond (condition? cond)
        let before := both i c
        let (update, u) ← andThen before update (expr? update)
        let before := both before u
        let (body, b) ← andThen before body (inLoop (stmt body))
        return (StmtKind.loop kind init cond update body, both before b))
        (fun k => match k with | .loop _ init .. => C.inner.afterInit init | _ => C.inner)
        fun E k _ => ∀ span, IsStmt E C ⟨k, span⟩ := by
      refine (accepts_loopInit? C.inner K init).bind (fun init _ =>
        (accepts_condition? (C.inner.afterInit init) _ cond).bind (fun cond _ =>
          (accepts_expr? (C.inner.afterInit init) _ update).bind (fun update _ =>
            (accepts_stmt (C.inner.afterInit init).inLoop _ body).inLoop.bind (fun body _ =>
              .pure rfl fun E _ hE _ => .loop hE.1.1.1.2 hE.1.1.2 hE.1.2 hE.2)
              fun _ e => .still e fun _ => ⟨_, rfl⟩) fun _ e => .still e fun _ => ⟨_, rfl⟩)
          fun _ e => .still e fun _ => ⟨_, rfl⟩) fun _ e => .still e fun _ => ⟨_, rfl⟩
    refine hbody.inScope fun k => ?_
    split
    · exact (C.encloses_inner).afterInit _
    · exact C.encloses_inner
  | .break_ => by
    rw [stmtKind]
    exact .finish rfl (checks_inLoopOr _ _) fun E _ _ _ h _ => .break_ h
  | .continue_ => by
    rw [stmtKind]
    exact .finish rfl (checks_inLoopOr _ _) fun E _ _ _ h _ => .continue_ h
  | .return_ e => by
    rw [stmtKind]
    refine .get_bind (fun s h => ?_) fun s G hG _ => ?_
    · refine (analyzes_stmtKind [] span (.return_ e)).errors s ?_
      rw [stmtKind]
      exact h
    · split
      · exact .fail (.still _ fun _ => ⟨_, rfl⟩)
      · rename_i hreturns
        obtain ⟨ret, hret⟩ : ∃ ret, C.returns = some ret := by
          rw [← hG.returns]
          exact Option.ne_none_iff_exists'.mp (by simpa using hreturns)
        exact (accepts_returned? C _ e hret).bind (fun e _ => .pure rfl fun E _ hE _ => .return_ hE.2)
          fun _ e => .still e fun _ => ⟨_, rfl⟩

theorem accepts_stmt? (C : Site) (K : Env → Prop) : ∀ s,
    Accepts C K (stmt? s) (fun _ => C) fun E s _ => IsStmt? E C s
  | none => by
    rw [stmt?]
    exact .pure rfl fun E _ _ => .none
  | some s => by
    rw [stmt?]
    exact (accepts_stmt C K s).bind (fun s _ => .pure rfl fun E _ hE => .some hE.2)
      fun _ e => .still e fun _ => ⟨_, rfl⟩

theorem accepts_expr? (C : Site) (K : Env → Prop) : ∀ e,
    Accepts C K (expr? e) (fun _ => C) fun E e _ => IsExpr? E C e
  | none => by
    rw [expr?]
    exact .pure rfl fun E _ _ => .none
  | some e => by
    rw [expr?]
    exact (accepts_expr C K e).bind (fun e _ => .pure rfl fun E _ hE => .some hE.2.hasType)
      fun _ e => .still e fun _ => ⟨_, rfl⟩

theorem accepts_condition? (C : Site) (K : Env → Prop) : ∀ e,
    Accepts C K (condition? e) (fun _ => C) fun E e _ => IsCondition E C e
  | none => by
    rw [condition?]
    exact .pure rfl fun E _ _ => .none
  | some e => by
    rw [condition?]
    refine (accepts_condition C K e).bind (fun e _ => .pure rfl fun E _ hE => ?_)
      fun _ e => .still e fun _ => ⟨_, rfl⟩
    obtain ⟨t, ht, hscalar⟩ := hE.2
    exact .some ht hscalar

theorem accepts_returned? (C : Site) (K : Env → Prop) {ret : TypeId} : ∀ e, C.returns = some ret →
    Accepts C K (returned? e) (fun _ => C) fun E e _ => IsReturn E C e
  | none, hret => by
    rw [returned?]
    exact .pure rfl fun E _ _ => .none hret
  | some e, hret => by
    rw [returned?]
    refine (accepts_value C K e).bind (fun e v =>
      .finish rfl (checks_checkReturn fun E _ hE => hE.2.valid) fun E _ _ hE h => ?_)
      fun _ e => .still e fun _ => ⟨_, rfl⟩
    obtain ⟨hvoid, hassign⟩ := h ret hret
    exact .some hret hvoid hE.2.hasValue hassign

theorem accepts_loopInit? (C : Site) (K : Env → Prop) : ∀ i,
    Accepts C K (loopInit? i) C.afterInit fun E i _ => IsLoopInit E C i
  | none => by
    rw [loopInit?]
    exact .pure rfl fun E _ _ => .none
  | some i => by
    rw [loopInit?]
    exact (accepts_loopInit C K i).bind (fun i _ => .pure rfl fun E _ hE => hE.2)
      fun _ e => .still e fun _ => ⟨_, rfl⟩

theorem accepts_loopInit (C : Site) (K : Env → Prop) : ∀ i,
    Accepts C K (loopInit i) (fun i => C.afterInit (some i)) fun E i _ => IsLoopInit E C (some i)
  | .expr e => by
    rw [loopInit]
    exact (accepts_expr C K e).bind (fun e _ => .pure rfl fun E _ hE => .expr hE.2.hasType)
      fun _ e => .still e fun _ => ⟨_, rfl⟩
  | .declaration d => by
    rw [loopInit]
    exact (accepts_declaration C K d).bind (fun d _ => .pure rfl fun E _ hE => .declaration hE.2)
      fun _ e => .still e fun _ => ⟨_, rfl⟩

theorem accepts_declaration (C : Site) (K : Env → Prop) : ∀ d,
    Accepts C K (declaration d) C.afterDecl fun E d _ => IsDecl E C d
  | ⟨.vars vars, span⟩ => by
    have hvars : Accepts C K (declKind (.vars vars)) (fun k => C.afterDecl ⟨k, span⟩)
        fun E k _ => IsDecl E C ⟨k, span⟩ := by
      rw [declKind]
      exact (accepts_varDecls C K vars).bind (fun vs _ => .pure rfl fun E _ hE => .vars hE.2)
        fun _ e => .still e fun _ => ⟨_, rfl⟩
    rw [declaration]
    exact hvars.bind (fun k _ => .pure rfl fun E _ hE => hE.2) fun _ e => .still e fun _ => ⟨_, rfl⟩
  | ⟨.struct spec, span⟩ => by
    have hstruct : Accepts C K (declKind (.struct spec)) (fun k => C.afterDecl ⟨k, span⟩)
        fun E k _ => IsDecl E C ⟨k, span⟩ := by
      rw [declKind]
      exact .finish rfl (checks_checkStructDecl spec) fun E _ _ _ _ => .struct
    rw [declaration]
    exact hstruct.bind (fun k _ => .pure rfl fun E _ hE => hE.2) fun _ e => .still e fun _ => ⟨_, rfl⟩

theorem accepts_varDecls (C : Site) (K : Env → Prop) : ∀ vs,
    Accepts C K (varDecls vs) C.afterVars fun E vs _ => IsVars E C vs
  | [] => by
    rw [varDecls]
    exact .pure rfl fun E _ _ => .nil
  | v :: vs => by
    rw [varDecls]
    refine (accepts_varDecl C K v).bind (fun v _ => (accepts_varDecls (C.afterVar v) _ vs).bind
      (fun vs _ => .pure rfl fun E _ hE => ?_) fun _ e => .still e fun _ => ⟨_, rfl⟩)
      fun _ e => .still e fun _ => ⟨_, rfl⟩
    obtain ⟨t, hresolved, hvoid, hcounted, hinit⟩ := hE.1.2
    exact .cons hresolved hvoid hcounted hinit hE.2

theorem accepts_varDecl (C : Site) (K : Env → Prop) : ∀ v,
    Accepts C K (varDecl v) C.afterVar fun E v _ => ∃ t, v.resolved = some t ∧
      E.registry.isVoid t = false ∧ Counted E v.ty v.init t ∧
      Initializes? E (C.afterVar v) t v.init
  | ⟨name, ty, init, span, resolved⟩ => by
    rw [varDecl]
    refine .check (checks_checkVariable _) (fun t => .get_bind (fun s h => ?_) fun s G hG _ => ?_)
      fun e => .still e fun _ => ⟨_, rfl⟩
    · have hsym : Symbol.IsObject ⟨name, .variable s.scope.isGlobal, t, span⟩ := trivial
      have hinit : Analyzes (Locals.declare [] name) (Locals.declare [] name) [] (do
          let (init, done) ← initializer? t s.scope.isGlobal init
          return ((⟨name, ty, init, span, some t⟩ : VarDecl), done)) fun _ _ => True :=
        (analyzes_initializer? _ t s.scope.isGlobal init).bind (fun i _ => .pure fun _ _ => trivial)
          fun _ e => .still e fun _ => ⟨_, rfl⟩
      exact (Analyzes.defines (moves_define hsym) (fun _ => hinit)
        fun e => .still e fun _ => ⟨_, rfl⟩).errors s h
    · rw [hG.isGlobal_eq]
      refine .advance (advances_define trivial fun E _ hE => ⟨hE.1.2.1, hE.1.2.2.1⟩) (fun _ =>
        (accepts_initializer? (C.declare ⟨name, .variable C.isGlobal, t, span⟩) _ t C.isGlobal init
          (C.isGlobal_declare _).symm fun E _ hE => ⟨hE.1.2.1, hE.1.2.2.1⟩).bind
            (fun i _ => .pure rfl fun E _ hE => ?_)
        fun _ e => .still e fun _ => ⟨_, rfl⟩) fun e => .still e fun _ => ⟨_, rfl⟩
      obtain ⟨⟨⟨-, -, hvoid, hcounted⟩, -⟩, hinit, hlength⟩ := hE
      refine ⟨t, rfl, hvoid, fun element helement => ?_, hinit⟩
      obtain ⟨u, length, himplied, hty⟩ := hcounted element helement
      exact ⟨u, length, (hlength (by simp [Registry.isArray, hty])).trans himplied, hty⟩

theorem accepts_initializer? (C : Site) (K : Env → Prop) (t : TypeId) (isGlobal : Bool) : ∀ i,
    isGlobal = C.isGlobal →
    (∀ E, E.Sound → K E → E.registry.Valid t ∧ E.registry.isVoid t = false) →
    Accepts C K (initializer? t isGlobal i) (fun _ => C) fun E i' _ => Initializes? E C t i' ∧
      KeepsLength E t i i'
  | none, _, _ => by
    rw [initializer?]
    exact .pure rfl fun E _ _ => ⟨.none, fun _ => rfl⟩
  | some i, hglobal, ht => by
    rw [initializer?]
    exact (accepts_initializer C K t isGlobal i hglobal ht).bind
      (fun i _ => .pure rfl fun E _ hE => ⟨.some hE.2.1, hE.2.2⟩) fun _ e => .still e fun _ => ⟨_, rfl⟩

theorem accepts_initializer (C : Site) (K : Env → Prop) (t : TypeId) (isGlobal : Bool) : ∀ i,
    isGlobal = C.isGlobal →
    (∀ E, E.Sound → K E → E.registry.Valid t ∧ E.registry.isVoid t = false) →
    Accepts C K (initializer t isGlobal i) (fun _ => C) fun E i' _ => Initializes E C t i' ∧
      KeepsLength E t (some i) (some i')
  | .expr e, hglobal, ht => by
    rw [initializer]
    refine (accepts_initialValue C K t isGlobal e hglobal ht).bind
      (fun e' _ => .pure rfl fun E _ hE => ⟨hE.2.1, fun harray => ?_⟩) fun _ e => .still e fun _ => ⟨_, rfl⟩
    have hkind := hE.2.2 harray
    obtain ⟨kind, span, ty⟩ := e
    obtain ⟨kind', span', ty'⟩ := e'
    obtain rfl : kind' = kind := hkind
    cases kind' <;> rfl
  | .list items span, hglobal, ht => by
    rw [initializer]
    refine .get_bind (fun s h => ?_) fun s G hG hK => ?_
    · refine (analyzes_initializer [] t isGlobal (.list items span)).errors s ?_
      rw [initializer]
      exact h
    obtain ⟨hvalid, hvoid⟩ := ht _ hG.sound hK
    have hlater (E : Env) (hE : Later (s.env G) E) : E.registry.ty t = s.registry.ty t :=
      hE.registry.ty_eq hvalid
    have hscalar (hstruct : s.registry.isStruct t = false) (harray : s.registry.isArray t = false) :
        Accepts C (fun E => K E ∧ Later (s.env G) E) (do
          let (items, done) ← scalarInit t isGlobal span items
          return (Initializer.list items span, done)) (fun _ => C) fun E i' _ => Initializes E C t i' ∧
            KeepsLength E t (some (.list items span)) (some i') := by
      refine (accepts_scalarInit C _ t isGlobal span items hglobal fun E hE hK => ht E hE hK.1).bind
        (fun is _ => .pure rfl fun E _ hE => ?_) fun _ e => .still e fun _ => ⟨_, rfl⟩
      obtain ⟨⟨-, hE⟩, e, rfl, he⟩ := hE
      refine ⟨.scalar ?_ he, fun harray' => ?_⟩
      · rw [hE.registry.isScalar_eq hvalid]
        exact (Registry.movable_of hvoid harray).resolve_right (by simp [State.env, hstruct])
      · rw [hE.registry.isArray_eq hvalid, show (s.env G).registry.isArray t = false from harray]
          at harray'
        cases harray'
    unfold listTarget
    cases hty : s.registry.ty t with
    | array element length =>
      have helement : s.registry.Valid element :=
        hG.sound.consistent.valid_ref hty (List.mem_singleton_self _)
      have hsolid : s.registry.isVoid element = false := hG.sound.solid.elements t element length hty
      refine .check (checks_checkExcess _ _ _) (fun _ =>
        (accepts_elementInits C _ element isGlobal length items hglobal fun E _ hE =>
          ⟨hE.1.2.registry.valid helement, (hE.1.2.registry.isVoid_eq helement).trans hsolid⟩).bind
          (fun is _ => .pure rfl fun E _ hE => ?_)
          fun _ e => .still e fun _ => ⟨_, rfl⟩) fun e => .still e fun _ => ⟨_, rfl⟩
      obtain ⟨hlength, hitems⟩ := hE.2
      exact ⟨.elements ((hlater E hE.1.1.2).trans hty) (hitems hE.1.2), fun _ => congrArg some hlength⟩
    | struct id =>
      have hbuilt := (hG.sound.consistent.entry t hvalid).built
      rw [show (s.env G).registry.ty t = .struct id from hty] at hbuilt
      have hmembers (u : TypeId) (hu : u ∈ (s.registry.structType id).members.map (·.ty)) :
          s.registry.Valid u ∧ s.registry.isVoid u = false := by
        refine ⟨hG.sound.consistent.valid_ref hty hu, ?_⟩
        obtain ⟨m, hm, rfl⟩ := List.mem_map.mp hu
        exact hG.sound.solid.members id hbuilt.1 m hm
      refine .check (checks_checkExcess _ _ _) (fun _ =>
        (accepts_memberInits C _ isGlobal _ items hglobal fun E _ hE u hu =>
          ⟨hE.1.2.registry.valid (hmembers u hu).1,
            (hE.1.2.registry.isVoid_eq (hmembers u hu).1).trans (hmembers u hu).2⟩).bind
          (fun is _ => .pure rfl fun E _ hE => ?_)
          fun _ e => .still e fun _ => ⟨_, rfl⟩) fun e => .still e fun _ => ⟨_, rfl⟩
      have hty' : E.registry.ty t = .struct id := (hlater E hE.1.1.2).trans hty
      refine ⟨.members hty' ?_, fun harray => ?_⟩
      · rw [hE.1.1.2.registry.structType_eq hbuilt.1]
        exact hE.2 hE.1.2
      · simp [Registry.isArray, hty'] at harray
    | _ =>
      exact hscalar (by simp [Registry.isStruct, hty]) (by simp [Registry.isArray, hty])

theorem accepts_initialValue (C : Site) (K : Env → Prop) (t : TypeId) (isGlobal : Bool) : ∀ e,
    isGlobal = C.isGlobal →
    (∀ E, E.Sound → K E → E.registry.Valid t ∧ E.registry.isVoid t = false) →
    Accepts C K (initialValue t isGlobal e) (fun _ => C) fun E e' _ => Initializes E C t (.expr e') ∧
      (E.registry.isArray t = true → e'.kind = e.kind)
  | ⟨kind, span, ty⟩, hglobal, ht => by
    rw [initialValue]
    refine .get_bind (fun s h => ?_) fun s G hG hK => ?_
    · refine (analyzes_initialValue [] t isGlobal ⟨kind, span, ty⟩).errors s ?_
      rw [initialValue]
      exact h
    obtain ⟨hvalid, hvoid⟩ := ht _ hG.sound hK
    have hlater (E : Env) (hE : Later (s.env G) E) : E.registry.ty t = s.registry.ty t :=
      hE.registry.ty_eq hvalid
    have he := accepts_exprKind C (fun E => K E ∧ Later (s.env G) E) span ty kind
    split
    · rename_i element length text hty
      have helement : s.registry.Valid element :=
        hG.sound.consistent.valid_ref hty (List.mem_singleton_self _)
      refine .check (checks_checkStringInit fun E _ hE => hE.2.registry.valid helement) (fun _ =>
        (accepts_text C _ span ty text).bind (fun e u => .pure rfl fun E _ hE => ?_)
          fun _ e => .still e fun _ => ⟨_, rfl⟩) fun e => .still e fun _ => ⟨_, rfl⟩
      obtain ⟨⟨⟨-, hE⟩, hsize, hint, hlength⟩, rfl, hjudged⟩ := hE
      exact ⟨.text ((hlater E hE).trans hty) hsize hint hlength hjudged.hasType, fun _ => rfl⟩
    · exact .fail (.still _ fun _ => ⟨_, rfl⟩)
    · rename_i harray _
      have harray : s.registry.isArray t = false := by
        unfold Registry.isArray
        split
        · rename_i hty
          exact absurd hty (harray _ _)
        · rfl
      have hchecked {u : TypeId} {e : Expr} : Checks C
          (fun E => (K E ∧ Later (s.env G) E) ∧ Judged C E e u) (do
            let v ← decay u span
            rule (checkAssignable · t v e)
            checkConstantInit isGlobal e) fun E _ => ∃ v, HasValue E C e v ∧
              isAssignable E.registry t v e = true ∧ (isGlobal = true → e.constant?.isSome = true) :=
        (checks_decay fun E _ hE => hE.2.valid).bind fun v =>
          (checks_checkAssignable (fun E hE hK => (ht E hE hK.1.1.1).1) fun E _ hE => hE.2.2).bind
            fun _ => (checks_checkConstantInit isGlobal e).mono fun E _ _ hE hconstant =>
              ⟨v, .decays hE.1.1.2.hasType hE.1.2.1, hE.2, hconstant⟩
      refine he.bind (fun e u => .finish rfl (.lift_ok hchecked) fun E _ hsound hE h => ?_)
        fun _ e => .still e fun _ => ⟨_, rfl⟩
      obtain ⟨v, hv, hassign, hconstant⟩ := h
      have harray' : E.registry.isArray t = false := (hE.1.2.registry.isArray_eq hvalid).trans harray
      refine ⟨.value (Registry.movable_of (ht E hsound hE.1.1).2 harray') hv hassign
        (hglobal ▸ hconstant), fun h => ?_⟩
      cases harray'.symm.trans h

theorem accepts_elementInits (C : Site) (K : Env → Prop) (element : TypeId) (isGlobal : Bool)
    (n : Nat) : ∀ is, isGlobal = C.isGlobal →
    (∀ E, E.Sound → K E → E.registry.Valid element ∧ E.registry.isVoid element = false) →
    Accepts C K (elementInits element isGlobal is) (fun _ => C) fun E is' _ =>
      is'.length = is.length ∧ (is.length ≤ n → InitializesAll E C (List.replicate n element) is')
  | [], _, _ => by
    rw [elementInits]
    exact .pure rfl fun E _ _ => ⟨rfl, fun _ => .nil⟩
  | i :: is, hglobal, helement => by
    rw [elementInits]
    refine (accepts_initializer C K element isGlobal i hglobal helement).bind (fun i' _ =>
      (accepts_elementInits C _ element isGlobal (n - 1) is hglobal fun E hE hK =>
        helement E hE hK.1).bind (fun is' _ => .pure rfl fun E _ hE => ?_)
        fun _ e => .still e fun _ => ⟨_, rfl⟩) fun _ e => .still e fun _ => ⟨_, rfl⟩
    refine ⟨congrArg (· + 1) hE.2.1, fun hlength => ?_⟩
    cases n with
    | zero => cases hlength
    | succ n => exact .cons hE.1.2.1 (hE.2.2 (Nat.le_of_succ_le_succ hlength))

theorem accepts_memberInits (C : Site) (K : Env → Prop) (isGlobal : Bool) (types : List TypeId) : ∀ is,
    isGlobal = C.isGlobal →
    (∀ E, E.Sound → K E → ∀ t ∈ types, E.registry.Valid t ∧ E.registry.isVoid t = false) →
    Accepts C K (memberInits types isGlobal is) (fun _ => C) fun E is' _ =>
      is.length ≤ types.length → InitializesAll E C types is'
  | [], _, _ => by
    rw [memberInits]
    exact .pure rfl fun E _ _ _ => .nil
  | i :: is, hglobal, htypes => by
    cases types with
    | nil =>
      rw [memberInits]
      exact .pure rfl fun E _ _ => nofun
    | cons t ts =>
      rw [memberInits]
      refine (accepts_initializer C K t isGlobal i hglobal fun E hE hK =>
        htypes E hE hK t (List.mem_cons_self ..)).bind (fun i' _ =>
          (accepts_memberInits C _ isGlobal ts is hglobal fun E hE hK u hu =>
            htypes E hE hK.1 u (List.mem_cons_of_mem _ hu)).bind
            (fun is' _ => .pure rfl fun E _ hE hlength => ?_)
            fun _ e => .still e fun _ => ⟨_, rfl⟩) fun _ e => .still e fun _ => ⟨_, rfl⟩
      exact .cons hE.1.2.1 (hE.2 (Nat.le_of_succ_le_succ hlength))

theorem accepts_scalarInit (C : Site) (K : Env → Prop) (t : TypeId) (isGlobal : Bool) (span : Span) :
    ∀ is, isGlobal = C.isGlobal →
    (∀ E, E.Sound → K E → E.registry.Valid t ∧ E.registry.isVoid t = false) →
    Accepts C K (scalarInit t isGlobal span is) (fun _ => C) fun E is' _ =>
      ∃ e, is' = [.expr e] ∧ Initializes E C t (.expr e)
  | [.expr e], hglobal, ht => by
    rw [scalarInit]
    exact (accepts_initialValue C K t isGlobal e hglobal ht).bind
      (fun e _ => .pure rfl fun E _ hE => ⟨e, rfl, hE.2.1⟩) fun _ e => .still e fun _ => ⟨_, rfl⟩
  | [], _, _ => by rw [scalarInit]; exact .fail (.still _ fun _ => ⟨_, rfl⟩); nofun
  | [.list items span'], _, _ => by rw [scalarInit]; exact .fail (.still _ fun _ => ⟨_, rfl⟩); nofun
  | i :: j :: is, _, _ => by rw [scalarInit]; exact .fail (.still _ fun _ => ⟨_, rfl⟩); nofun

end

end MiniC.Typing
